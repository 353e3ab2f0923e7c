import Ember.Highlight
import Ember.Proofs.Range
import Ember.Proofs.Stray

/-!
Highlighting covers a line. Its fragments are the lexemes that the scanner finds and the blanks
between them; from the first stray character on, the line is one fragment.
-/

namespace Ember

set_option autoImplicit true

def Fragment.isBlank (f : Fragment) : Bool := f.text.all Lexeme.isSpace

namespace Highlight

open Segmentation (textFrom ReadsFrom)

def blanks (gap : List Char) : List Fragment :=
  if gap.isEmpty then [] else [⟨.plain, gap⟩]

def paint (t : Token) (segment : Segment) : Fragment :=
  ⟨.ofCategory t.kind.category, segment.lexeme⟩

/-- The fragments of a text cut into lexemes that give these tokens. -/
def painted (ending : List Char) (segments : List Segment) (tokens : List Token) :
    List Fragment :=
  (List.zipWith (fun segment t => blanks segment.gap ++ [paint t segment]) segments tokens).flatten
    ++ blanks ending

theorem painted_cons {tail : List Char} {segment : Segment} {list : List Segment} :
    painted tail (segment :: list) (t :: tokens) =
      blanks segment.gap ++ paint t segment :: painted tail list tokens := by
  simp [painted]

theorem flatMap_blanks (gap : List Char) : (blanks gap).flatMap (·.text) = gap := by
  cases gap <;> simp [blanks]

theorem eq_of_mem_blanks (h : f ∈ blanks gap) : f = ⟨.plain, gap⟩ ∧ gap ≠ [] := by
  cases gap with
  | nil => cases h
  | cons c gap => exact ⟨List.mem_singleton.1 h, List.cons_ne_nil _ _⟩

theorem filter_blanks {gap : List Char} (h : ∀ c ∈ gap, Lexeme.isSpace c) :
    (blanks gap).filter (fun f => !f.isBlank) = [] := by
  rw [List.filter_eq_nil_iff]
  intro f hf
  rw [(eq_of_mem_blanks hf).1]
  simpa [Fragment.isBlank] using h

theorem isBlank_paint {segment : Segment} (h : Forms keywords segment.lexeme rest kind word)
    (t : Token) : (paint t segment).isBlank = false := by
  obtain ⟨c, cs, hl, hc, -⟩ := h.first?
  simp [Fragment.isBlank, paint, hl, hc]

theorem painted_nil {tail : List Char} : painted tail [] tokens = blanks tail := by
  simp [painted]

theorem startOf_ofText {front : List Char} (hn : '\n' ∉ front) :
    startOf ⟨kind, word, .ofText front⟩ = front.length := by
  have hr : front.reverse.takeWhile (· != '\n') = front.reverse := by
    rw [List.takeWhile_eq_self_iff]
    intro c hc
    simpa using ne_of_mem_of_not_mem (List.mem_reverse.1 hc) hn
  simp [startOf, Position.ofText, hr]

theorem width_of_ne_string {line : List Char} (h : kind ≠ .string) :
    width line ⟨kind, word, position⟩ = word.length := by
  rw [width, if_neg h]

theorem width_eq {front : List Char} (h : Forms .standard lexeme rest kind word)
    (hn : '\n' ∉ front) :
    width (front ++ (lexeme ++ rest)) ⟨kind, word, .ofText front⟩ = lexeme.length := by
  cases h with
  | mark hm =>
    rw [width_of_ne_string, String.length_ofList]
    rintro rfl
    unfold Lexeme.mark? at hm
    split at hm <;> cases hm
  | number =>
    have hk : TokenKind.number ≠ .string := nofun
    rw [width_of_ne_string hk, String.length_ofList]
  | word =>
    rw [width_of_ne_string, String.length_ofList]
    intro hk
    rcases Keywords.standard_kindOf (String.ofList lexeme) with ⟨h, -⟩ | h
    · rw [hk] at h
      cases h
    · rw [hk] at h
      exact absurd h (by decide)
  | @closed body rest hb =>
    have ht : (body ++ '"' :: rest).takeWhile (· != '"') = body :=
      takeWhile_run (fun c hc => by simpa using ne_of_mem_of_not_mem hc hb) (by simp)
    simp [width, startOf_ofText hn, ← List.drop_drop, ht]
  | @unclosed body hb =>
    have ht : body.takeWhile (· != '"') = body := by
      rw [List.takeWhile_eq_self_iff]
      exact fun c hc => by simpa using ne_of_mem_of_not_mem hc hb
    simp [width, startOf_ofText hn, ← List.drop_drop, ht]

theorem slice_append (front text rest : List Char) :
    slice (front ++ (text ++ rest)) front.length (front.length + text.length) = text := by
  rw [slice, List.take_length_add_append, List.take_left, List.drop_left]

theorem gap_append (front gap rest : List Char) :
    (if front.length < (front ++ gap).length then
      [⟨.plain, slice (front ++ (gap ++ rest)) front.length (front ++ gap).length⟩]
    else []) = blanks gap := by
  rw [List.length_append, slice_append]
  cases gap <;> simp [blanks]

/-- The fragments of a line without line breaks are those of its lexemes and blanks. -/
theorem fragments_eq {tail : List Char} {list : List Segment}
    (h : ReadsFrom .standard tail before list tokens) (hn : '\n' ∉ before ++ textFrom tail list) :
    fragments (before ++ textFrom tail list) before.length
      (tokens.takeWhile (·.kind != .endOfInput)) = painted tail list tokens := by
  induction h with
  | @done before ht =>
    rw [List.takeWhile_cons_of_neg (by simp [Token.endOfInput]), fragments]
    cases tail <;> simp [painted, blanks, textFrom]
  | @step kind word before tokens segment rest hg hf _ ih =>
    have hk := (hf.proper (.ofText (before ++ segment.gap))).2
    have hline : before ++ textFrom tail (segment :: rest) =
        (before ++ segment.gap) ++ (segment.lexeme ++ textFrom tail rest) := by
      simp [textFrom]
    have hfront : '\n' ∉ before ++ segment.gap := by
      rw [hline] at hn
      exact fun h => hn (List.mem_append_left _ h)
    have hrest := ih (by rwa [List.append_assoc, ← hline])
    rw [List.append_assoc, List.length_append] at hrest
    rw [List.takeWhile_cons_of_pos (by simpa using hk), fragments]
    dsimp only
    rw [startOf_ofText hfront, hline, width_eq hf hfront, slice_append, hrest,
      List.append_assoc before, gap_append, painted_cons]
    rfl

section

variable {tail : List Char} {list : List Segment}

theorem flatMap_painted (h : ReadsFrom keywords tail before list tokens) :
    (painted tail list tokens).flatMap (·.text) = textFrom tail list := by
  induction h with
  | done => rw [painted_nil, flatMap_blanks, textFrom]
  | step segment rest hg hf _ ih =>
    rw [painted_cons, List.flatMap_append, flatMap_blanks, List.flatMap_cons, ih, textFrom]
    rfl

theorem text_ne_nil_of_painted (h : ReadsFrom keywords tail before list tokens) :
    ∀ f ∈ painted tail list tokens, f.text ≠ [] := by
  have hblanks : ∀ {gap : List Char}, ∀ f ∈ blanks gap, f.text ≠ [] := by
    intro gap f hf
    obtain ⟨rfl, hgap⟩ := eq_of_mem_blanks hf
    exact hgap
  induction h with
  | done => exact painted_nil ▸ hblanks
  | step segment rest hg hf _ ih =>
    obtain ⟨c, cs, hl, -, -⟩ := hf.first?
    rw [painted_cons]
    refine List.forall_mem_append.2 ⟨hblanks, List.forall_mem_cons.2 ⟨?_, ih⟩⟩
    rw [paint, hl]
    exact List.cons_ne_nil c cs

theorem filter_painted (h : ReadsFrom keywords tail before list tokens) :
    (painted tail list tokens).filter (fun f => !f.isBlank) =
      List.zipWith paint tokens.dropLast list := by
  induction h with
  | done ht => rw [painted_nil, filter_blanks ht]; rfl
  | step segment rest hg hf hr ih =>
    rw [painted_cons, List.filter_append, filter_blanks hg, List.nil_append,
      List.filter_cons_of_pos (by rw [isBlank_paint hf]; rfl), ih,
      List.dropLast_cons_of_ne_nil hr.ne_nil, List.zipWith_cons_cons]

theorem style_of_isBlank (h : ReadsFrom keywords tail before list tokens) :
    ∀ f ∈ painted tail list tokens, f.isBlank → f.style = .plain := by
  have hblanks : ∀ {gap : List Char}, ∀ f ∈ blanks gap, f.isBlank → f.style = .plain := by
    intro gap f hf _
    rw [(eq_of_mem_blanks hf).1]
  induction h with
  | done => exact painted_nil ▸ hblanks
  | step segment rest hg hf _ ih =>
    rw [painted_cons]
    refine List.forall_mem_append.2 ⟨hblanks, List.forall_mem_cons.2 ⟨?_, ih⟩⟩
    rw [isBlank_paint hf]
    exact nofun

theorem length_of_readsFrom (h : ReadsFrom keywords tail before list tokens) :
    tokens.length = list.length + 1 := by
  induction h with
  | done => rfl
  | step segment rest _ _ _ ih => rw [List.length_cons, ih, List.length_cons]

end

theorem line_eq_painted {text : List Char} (hn : '\n' ∉ text)
    (h : scanTokens .standard (String.ofList text) = .ok tokens) :
    ∃ d : Segmentation, d.text = text ∧ d.Reads .standard tokens ∧
      line text = painted d.ending d.segments tokens := by
  obtain ⟨d, hd, hr⟩ := Segmentation.exists_of_scanTokens h
  rw [String.toList_ofList] at hd
  have hf := fragments_eq hr
    (by rwa [List.nil_append, show textFrom d.ending d.segments = _ from hd])
  rw [List.nil_append, show textFrom d.ending d.segments = _ from hd] at hf
  refine ⟨d, hd, hr, ?_⟩
  rw [line, h]
  exact hf

theorem line_nil : line [] = [] := by
  have h : scanTokens .standard (String.ofList []) = .ok [.endOfInput ⟨1, 1⟩] := rfl
  rw [line, h]
  rfl

/-- From the first stray character on, a line is one fragment in the style of errors. -/
theorem line_of_firstStray {text : List Char} (hn : '\n' ∉ text) (h : FirstStray text i c) :
    line text = line (text.take i) ++ [⟨.error, text.drop i⟩] := by
  have hi := h.lt_length
  have hscan : scanTokens .standard (String.ofList text) =
      .error (.unrecognized c (.ofText (text.take i))) := by
    refine scanTokens_eq_error_iff.2 ⟨i, c, ?_, ?_⟩ <;> rw [String.toList_ofList]
    exact h
  have hplace : failurePlace (.unrecognized c (.ofText (text.take i))) = i := by
    have hstart : startOf ⟨.endOfInput, "", .ofText (text.take i)⟩ = (text.take i).length :=
      startOf_ofText fun hm => hn (List.mem_of_mem_take hm)
    rwa [List.length_take_of_le hi.le] at hstart
  rw [line, hscan]
  dsimp only
  rw [hplace]
  split
  · rfl
  · next hzero =>
    obtain rfl : i = 0 := by omega
    rw [List.take_zero, line_nil, List.nil_append]

/-- The fragments of a line make up the line, and none is empty. If the line is scanned, the
fragments that are not blank are those of the lexemes, one for each token but the last, in order and
in the style of the token's kind. If it is not, the fragments are those of the line up to the first
stray character, which is scanned, and one more in the style of errors for all the rest. -/
theorem line_covers (text : List Char) (hn : '\n' ∉ text) :
    (line text).flatMap (·.text) = text ∧ (∀ f ∈ line text, f.text ≠ []) ∧
    (∀ tokens, scanTokens .standard (String.ofList text) = .ok tokens →
      ∃ d : Segmentation, d.text = text ∧ d.Reads .standard tokens ∧
        tokens.length = d.segments.length + 1 ∧
        (line text).filter (fun f => !f.isBlank) =
          List.zipWith (fun t segment => ⟨.ofCategory t.kind.category, segment.lexeme⟩)
            tokens.dropLast d.segments ∧
        ∀ f ∈ line text, f.isBlank → f.style = .plain) ∧
    ∀ e, scanTokens .standard (String.ofList text) = .error e →
      ∃ i c, FirstStray text i c ∧ e = .unrecognized c (.ofText (text.take i)) ∧
        (∃ tokens, scanTokens .standard (String.ofList (text.take i)) = .ok tokens) ∧
        line text = line (text.take i) ++ [⟨.error, text.drop i⟩] := by
  -- A line that is scanned.
  have hscanned : ∀ {text tokens}, '\n' ∉ text →
      scanTokens .standard (String.ofList text) = .ok tokens →
      (line text).flatMap (·.text) = text ∧ ∀ f ∈ line text, f.text ≠ [] := by
    intro text tokens hn h
    obtain ⟨d, hd, hr, hline⟩ := line_eq_painted hn h
    rw [hline]
    exact ⟨(flatMap_painted hr).trans hd, text_ne_nil_of_painted hr⟩
  -- A line with a first stray character.
  have hstray : ∀ {e}, scanTokens .standard (String.ofList text) = .error e →
      ∃ i c, FirstStray text i c ∧ e = .unrecognized c (.ofText (text.take i)) ∧
        (∃ tokens, scanTokens .standard (String.ofList (text.take i)) = .ok tokens) ∧
        line text = line (text.take i) ++ [⟨.error, text.drop i⟩] := by
    intro e h
    obtain ⟨i, c, hfirst, he⟩ := scanTokens_eq_error_iff.1 h
    rw [String.toList_ofList] at hfirst he
    exact ⟨i, c, hfirst, he, hfirst.scanTokens_take, line_of_firstStray hn hfirst⟩
  have hcover : (line text).flatMap (·.text) = text ∧ ∀ f ∈ line text, f.text ≠ [] := by
    cases h : scanTokens .standard (String.ofList text) with
    | ok tokens => exact hscanned hn h
    | error e =>
      obtain ⟨i, c, hfirst, -, ⟨tokens, htake⟩, hline⟩ := hstray h
      obtain ⟨hflat, hne⟩ := hscanned (fun hm => hn (List.mem_of_mem_take hm)) htake
      rw [hline, List.flatMap_append, hflat]
      refine ⟨by simp, List.forall_mem_append.2 ⟨hne, ?_⟩⟩
      simpa using hfirst.lt_length
  refine ⟨hcover.1, hcover.2, fun tokens h => ?_, fun e h => hstray h⟩
  obtain ⟨d, hd, hr, hline⟩ := line_eq_painted hn h
  rw [hline]
  exact ⟨d, hd, hr, length_of_readsFrom hr, filter_painted hr, style_of_isBlank hr⟩

/-- A line that ends in a string without its closing quote. -/
theorem line_covers_unclosed :
    let text := " let \"a; b".toList
    let tokens : List Token :=
      [⟨.letWord, "let", ⟨1, 2⟩⟩, ⟨.string, "a; b", ⟨1, 6⟩⟩, .endOfInput ⟨1, 11⟩]
    '\n' ∉ text ∧ scanTokens .standard (String.ofList text) = .ok tokens ∧
      ∃ d : Segmentation, d.text = text ∧ d.Reads .standard tokens ∧
        (line text).filter (fun f => !f.isBlank) =
          List.zipWith (fun t segment => ⟨.ofCategory t.kind.category, segment.lexeme⟩)
            tokens.dropLast d.segments := by
  intro text tokens
  have hn : '\n' ∉ text := by decide
  have hscan : scanTokens .standard (String.ofList text) = .ok tokens := by decide +kernel
  obtain ⟨d, hd, hr, -, hfilter, -⟩ := (line_covers text hn).2.2.1 tokens hscan
  exact ⟨hn, hscan, d, hd, hr, hfilter⟩

end Highlight

end Ember
