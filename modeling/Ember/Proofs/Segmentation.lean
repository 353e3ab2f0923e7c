import Ember.Token.Scanner
import Mathlib

/-!
What the scanner returns, said without the scanner: a text falls into lexemes with blanks between
them in one way, and the tokens are those of the lexemes, each with the place where it starts.
-/

namespace Ember

set_option autoImplicit true

/-- The place after a text, read off the text: one more than its line breaks, and one more than the
characters after the last of them. -/
def Position.ofText (text : List Char) : Position where
  line := 1 + text.count '\n'
  column := 1 + (text.reverse.takeWhile (· != '\n')).length

theorem Position.start_after (text : List Char) : start.after text = ofText text := by
  induction text using List.reverseRec with
  | nil => rfl
  | append_singleton text c ih =>
    rw [after_append, ih, after_cons, after_nil, next]
    by_cases h : c = '\n'
    · simp [ofText, h, Int.add_assoc]
    · simp [ofText, h, Int.add_assoc]

/-- `Forms keywords lexeme rest kind text`: a lexeme that `rest` follows gives a token of this kind
with this text. Runs of digits and letters do not go on in `rest`, and a string that is not closed
has nothing after it. -/
inductive Forms (keywords : Keywords) : List Char → List Char → TokenKind → String → Prop where
  | mark : Lexeme.mark? c = some kind → Forms keywords [c] rest kind (String.ofList [c])
  | number : digits ≠ [] → (∀ c ∈ digits, c.isDigit) → (∀ c ∈ rest.head?, ¬c.isDigit) →
      Forms keywords digits rest .number (String.ofList digits)
  | word : letters ≠ [] → (∀ c ∈ letters, c.isAlpha) → (∀ c ∈ rest.head?, ¬c.isAlpha) →
      Forms keywords letters rest (keywords.kindOf (String.ofList letters)) (String.ofList letters)
  | closed : '"' ∉ body → Forms keywords ('"' :: (body ++ ['"'])) rest .string (String.ofList body)
  | unclosed : '"' ∉ body → Forms keywords ('"' :: body) [] .string (String.ofList body)

/-- A lexeme and the blanks before it. -/
structure Segment where
  gap : List Char
  lexeme : List Char

/-- A text cut into lexemes, with blanks before, between and after them. -/
structure Segmentation where
  segments : List Segment
  ending : List Char

namespace Segmentation

def textFrom (ending : List Char) : List Segment → List Char
  | [] => ending
  | segment :: rest => segment.gap ++ (segment.lexeme ++ textFrom ending rest)

def text (d : Segmentation) : List Char := textFrom d.ending d.segments

/-- `ReadsFrom keywords ending before segments tokens`: after the text `before`, the segments and
the ending give these tokens and the one that ends the list. -/
inductive ReadsFrom (keywords : Keywords) (ending : List Char) :
    List Char → List Segment → List Token → Prop where
  | done : (∀ c ∈ ending, Lexeme.isSpace c) →
      ReadsFrom keywords ending before [] [.endOfInput (.ofText (before ++ ending))]
  | step (segment : Segment) (rest : List Segment) : (∀ c ∈ segment.gap, Lexeme.isSpace c) →
      Forms keywords segment.lexeme (textFrom ending rest) kind word →
      ReadsFrom keywords ending (before ++ segment.gap ++ segment.lexeme) rest tokens →
      ReadsFrom keywords ending before (segment :: rest)
        (⟨kind, word, .ofText (before ++ segment.gap)⟩ :: tokens)

def Reads (keywords : Keywords) (d : Segmentation) (tokens : List Token) : Prop :=
  ReadsFrom keywords d.ending [] d.segments tokens

end Segmentation

namespace Lexeme

theorem isSpace_of_mark (h : mark? c = some kind) : isSpace c = false := by
  unfold mark? at h
  split at h <;> first | rfl | cases h

theorem isSpace_of_digit (h : c.isDigit) : isSpace c = false := by
  simp only [isSpace, Bool.or_eq_false_iff, beq_eq_false_iff_ne]
  refine ⟨⟨⟨⟨?_, ?_⟩, ?_⟩, ?_⟩, ?_⟩ <;> rintro rfl <;> revert h <;> decide

theorem isSpace_of_alpha (h : c.isAlpha) : isSpace c = false := by
  simp only [isSpace, Bool.or_eq_false_iff, beq_eq_false_iff_ne]
  refine ⟨⟨⟨⟨?_, ?_⟩, ?_⟩, ?_⟩, ?_⟩ <;> rintro rfl <;> revert h <;> decide

theorem mark?_of_digit (h : c.isDigit) : mark? c = none := by
  unfold mark?
  split <;> first | rfl | exact absurd h (by decide)

theorem mark?_of_alpha (h : c.isAlpha) : mark? c = none := by
  unfold mark?
  split <;> first | rfl | exact absurd h (by decide)

theorem not_alpha_of_digit (h : Char.isDigit c) : c.isAlpha = false := by
  simp only [Char.isDigit, Char.isAlpha, Char.isUpper, Char.isLower] at *
  grind

end Lexeme

theorem takeWhile_run {p : α → Bool} {run rest : List α} (h : ∀ c ∈ run, p c)
    (hr : ∀ c ∈ rest.head?, ¬p c) : (run ++ rest).takeWhile p = run := by
  rw [List.takeWhile_append_of_pos h]
  cases rest with
  | nil => simp
  | cons c rest => simp [hr c rfl]

theorem drop_takeWhile {p : α → Bool} {l : List α} :
    l.drop (l.takeWhile p).length = l.dropWhile p := by
  induction l with
  | nil => rfl
  | cons c l ih => by_cases h : p c <;> simp [h, ih]

theorem head?_dropWhile {p : α → Bool} {l : List α} : ∀ c ∈ (l.dropWhile p).head?, ¬p c := by
  intro c hc
  have hn := List.head?_dropWhile_not p l
  rw [Option.mem_def.1 hc] at hn
  simpa using hn

theorem Forms.first? (h : Forms keywords lexeme rest kind text) :
    ∃ c cs, lexeme = c :: cs ∧ Lexeme.isSpace c = false ∧
      Lexeme.first? keywords c (cs ++ rest) = some ⟨lexeme, some (kind, text)⟩ := by
  cases h with
  | @mark c kind rest h =>
    have hs := Lexeme.isSpace_of_mark h
    exact ⟨c, [], rfl, hs, by simp [Lexeme.first?, hs, h]⟩
  | number hn hd hr =>
    obtain ⟨c, cs, rfl⟩ := List.exists_cons_of_ne_nil hn
    have hc := hd c (by simp)
    have hq : (c == '"') = false := by
      rw [beq_eq_false_iff_ne]
      rintro rfl
      exact absurd hc (by decide)
    have ht : (c :: (cs ++ rest)).takeWhile Char.isDigit = c :: cs := takeWhile_run hd hr
    exact ⟨c, cs, rfl, Lexeme.isSpace_of_digit hc, by
      simp only [Lexeme.first?, Lexeme.isSpace_of_digit hc, Lexeme.mark?_of_digit hc, hq, hc,
        Lexeme.number, ht, Bool.false_eq_true, if_false, if_true]⟩
  | word hn ha hr =>
    obtain ⟨c, cs, rfl⟩ := List.exists_cons_of_ne_nil hn
    have hc := ha c (by simp)
    have hq : (c == '"') = false := by
      rw [beq_eq_false_iff_ne]
      rintro rfl
      exact absurd hc (by decide)
    have hd : c.isDigit = false := by
      cases hd : c.isDigit with
      | false => rfl
      | true => exact absurd hc (by simp [Lexeme.not_alpha_of_digit hd])
    have ht : (c :: (cs ++ rest)).takeWhile Char.isAlpha = c :: cs := takeWhile_run ha hr
    exact ⟨c, cs, rfl, Lexeme.isSpace_of_alpha hc, by
      simp only [Lexeme.first?, Lexeme.isSpace_of_alpha hc, Lexeme.mark?_of_alpha hc, hq, hd, hc,
        Lexeme.word, ht, Bool.false_eq_true, if_false, if_true]⟩
  | @closed body rest hb =>
    have ht : (body ++ '"' :: rest).takeWhile (· != '"') = body :=
      takeWhile_run (fun c hc => by simpa using ne_of_mem_of_not_mem hc hb) (by simp)
    refine ⟨'"', body ++ ['"'], rfl, rfl, ?_⟩
    simp [Lexeme.first?, Lexeme.isSpace, Lexeme.mark?, Lexeme.string, ht]
  | @unclosed body hb =>
    have ht : body.takeWhile (· != '"') = body := by
      rw [List.takeWhile_eq_self_iff]
      exact fun c hc => by simpa using ne_of_mem_of_not_mem hc hb
    refine ⟨'"', body, rfl, rfl, ?_⟩
    simp [Lexeme.first?, Lexeme.isSpace, Lexeme.mark?, Lexeme.string, ht]

theorem Forms.of_first? (hc : Lexeme.isSpace c = false)
    (h : Lexeme.first? keywords c text = some found) :
    ∃ rest kind word, found.token? = some (kind, word) ∧ c :: text = found.source ++ rest ∧
      Forms keywords found.source rest kind word := by
  simp only [Lexeme.first?, hc, Bool.false_eq_true, if_false] at h
  split at h
  · next kind hm =>
    cases h
    exact ⟨text, _, _, rfl, rfl, .mark hm⟩
  · split at h
    · next hq =>
      cases h
      cases eq_of_beq hq
      have hb : '"' ∉ text.takeWhile (· != '"') := fun hm => by
        simpa using List.mem_takeWhile_imp hm
      have ht := drop_takeWhile (p := (· != '"')) (l := text)
      have he := List.takeWhile_append_dropWhile (p := (· != '"')) (l := text)
      simp only [Lexeme.string, ht]
      cases hd : text.dropWhile (· != '"') with
      | nil =>
        rw [hd, List.append_nil] at he
        refine ⟨[], _, _, rfl, by simp [he], ?_⟩
        simpa using Forms.unclosed hb
      | cons d rest =>
        have hq : d = '"' := by
          have hn := head?_dropWhile (l := text) d (by rw [hd]; rfl)
          simpa [bne_eq_false_iff_eq] using hn
        rw [hd, hq] at he
        refine ⟨rest, _, _, rfl, by simp [he, hq], ?_⟩
        simpa [hq] using Forms.closed hb
    · split at h
      · next hd =>
        cases h
        refine ⟨_, _, _, rfl, List.takeWhile_append_dropWhile.symm, .number ?_ ?_ head?_dropWhile⟩
        · simp [Lexeme.number, hd]
        · exact fun c hc => List.mem_takeWhile_imp hc
      · split at h
        · next ha =>
          cases h
          refine ⟨_, _, _, rfl, List.takeWhile_append_dropWhile.symm, .word ?_ ?_ head?_dropWhile⟩
          · simp [Lexeme.word, ha]
          · exact fun c hc => List.mem_takeWhile_imp hc
        · cases h

namespace Scanner

/-- The position is that of the text passed so far. -/
def Placed (s : Scanner) : Prop := s.position = .ofText s.passed.reverse

@[simp] theorem pass_keywords (s : Scanner) (l : Lexeme) : (s.pass l).keywords = s.keywords := rfl

@[simp] theorem pass_rest (s : Scanner) (l : Lexeme) :
    (s.pass l).rest = s.rest.drop l.source.length := rfl

@[simp] theorem pass_passed (s : Scanner) (l : Lexeme) :
    (s.pass l).passed.reverse = s.passed.reverse ++ l.source := by
  simp [pass]

@[simp] theorem pass_tokens_blank (s : Scanner) (text : List Char) :
    (s.pass ⟨text, none⟩).tokens = s.tokens := rfl

@[simp] theorem pass_tokens_some (s : Scanner) (text : List Char) (kind : TokenKind)
    (word : String) :
    (s.pass ⟨text, some (kind, word)⟩).tokens.toList =
      s.tokens.toList ++ [⟨kind, word, s.position⟩] := by
  simp [pass]

theorem Placed.pass (h : Placed s) (l : Lexeme) : Placed (s.pass l) := by
  unfold Placed
  rw [pass_passed, ← Position.start_after, Position.after_append, Position.start_after, ← h]
  rfl

theorem placed_ofSource (keywords : Keywords) (source : String) :
    Placed (ofSource keywords source) := rfl

/-- Blanks may be passed one by one or all together. -/
theorem pass_blank_blank (s : Scanner) (c : Char) (text : List Char) :
    (s.pass ⟨[c], none⟩).pass ⟨text, none⟩ = s.pass ⟨c :: text, none⟩ := by
  simp [pass]

end Scanner

namespace Scan

theorem lexemes_nil (h : s.rest = []) : lexemes count s = .ok () s := by
  cases count with
  | zero => rfl
  | succ => simp [lexemes, bind, EStateM.bind, get, getThe, MonadStateOf.get, EStateM.get, h, pure,
      EStateM.pure]

theorem lexemes_cons (h : s.rest = c :: text) :
    lexemes (count + 1) s =
      match Lexeme.first? s.keywords c text with
      | some found => lexemes count (s.pass found)
      | none => .error (.unrecognized c s.position) s := by
  simp only [lexemes, bind, EStateM.bind, get, getThe, MonadStateOf.get, EStateM.get, h, lexeme,
    List.isEmpty_cons, Bool.false_eq_true, if_false]
  cases Lexeme.first? s.keywords c text <;> rfl

theorem lexemes_blanks (hg : ∀ c ∈ gap, Lexeme.isSpace c) (h : s.rest = gap ++ rest) :
    lexemes (gap.length + count) s = lexemes count (s.pass ⟨gap, none⟩) := by
  induction gap generalizing s with
  | nil =>
    have hs : s.pass ⟨[], none⟩ = s := by simp [Scanner.pass]
    rw [hs, List.length_nil, Nat.zero_add]
  | cons c gap ih =>
    have hc : Lexeme.isSpace c := hg c (by simp)
    have hf : Lexeme.first? s.keywords c (gap ++ rest) = some ⟨[c], none⟩ := by
      simp [Lexeme.first?, hc]
    rw [List.cons_append] at h
    rw [List.length_cons, Nat.add_right_comm, lexemes_cons h, hf]
    dsimp only
    rw [ih (fun d hd => hg d (by simp [hd])) (by simp [h]), Scanner.pass_blank_blank]

end Scan

namespace Segmentation

/-- Blanks before the first lexeme join the blanks that are there. -/
theorem ReadsFrom.blanks {tail : List Char} {list : List Segment}
    (h : ReadsFrom keywords tail (before ++ gap) list tokens)
    (hg : ∀ c ∈ gap, Lexeme.isSpace c) :
    ∃ d : Segmentation, d.text = gap ++ textFrom tail list ∧
      ReadsFrom keywords d.ending before d.segments tokens := by
  cases h with
  | done he =>
    refine ⟨⟨[], gap ++ tail⟩, rfl, ?_⟩
    rw [List.append_assoc]
    refine .done fun c hc => ?_
    rcases List.mem_append.1 hc with hc | hc
    · exact hg c hc
    · exact he c hc
  | step segment rest hs hf hr =>
    refine ⟨⟨⟨gap ++ segment.gap, segment.lexeme⟩ :: rest, tail⟩, ?_, ?_⟩
    · simp [text, textFrom]
    · rw [List.append_assoc]
      refine .step ⟨gap ++ segment.gap, segment.lexeme⟩ rest (fun c hc => ?_) hf ?_
      · rcases List.mem_append.1 hc with hc | hc
        · exact hg c hc
        · exact hs c hc
      · simpa using hr

theorem ReadsFrom.lexeme {tail : List Char} {list : List Segment}
    (h : ReadsFrom keywords tail (before ++ source) list tokens)
    (hf : Forms keywords source (textFrom tail list) kind word) :
    ReadsFrom keywords tail before (⟨[], source⟩ :: list)
      (⟨kind, word, .ofText before⟩ :: tokens) := by
  have hs : ReadsFrom keywords tail before (⟨[], source⟩ :: list)
      (⟨kind, word, .ofText (before ++ [])⟩ :: tokens) :=
    .step ⟨[], source⟩ list (by simp) hf (by simpa using h)
  rwa [List.append_nil] at hs

theorem of_lexemes_nil (hp : s.Placed) (hr : s.rest = [])
    (h : Scan.lexemes count s = .ok () s') :
    ∃ d : Segmentation, ∃ tokens, d.text = s.rest ∧
      ReadsFrom s.keywords d.ending s.passed.reverse d.segments tokens ∧
      s'.tokens.toList ++ [.endOfInput s'.position] = s.tokens.toList ++ tokens := by
  rw [Scan.lexemes_nil hr] at h
  cases h
  refine ⟨⟨[], []⟩, _, hr.symm, .done (by simp), ?_⟩
  rw [List.append_nil, ← hp]

theorem of_lexemes (hp : s.Placed) (hn : s.rest.length ≤ count)
    (h : Scan.lexemes count s = .ok () s') :
    ∃ d : Segmentation, ∃ tokens, d.text = s.rest ∧
      ReadsFrom s.keywords d.ending s.passed.reverse d.segments tokens ∧
      s'.tokens.toList ++ [.endOfInput s'.position] = s.tokens.toList ++ tokens := by
  induction count generalizing s with
  | zero => exact of_lexemes_nil hp (List.eq_nil_of_length_eq_zero (Nat.le_zero.1 hn)) h
  | succ count ih =>
    cases hr : s.rest with
    | nil => exact hr ▸ of_lexemes_nil hp hr h
    | cons c text =>
      rw [Scan.lexemes_cons hr] at h
      cases hf : Lexeme.first? s.keywords c text with
      | none => simp [hf] at h
      | some found =>
        simp only [hf] at h
        by_cases hc : Lexeme.isSpace c
        · have he : found = ⟨[c], none⟩ := by simpa [Lexeme.first?, hc] using hf.symm
          subst he
          obtain ⟨d, tokens, hd, hreads, htokens⟩ :=
            ih (hp.pass _) (by simp [hr] at hn ⊢; omega) h
          rw [Scanner.pass_passed] at hreads
          obtain ⟨d', hd', hreads'⟩ := hreads.blanks (by simpa using hc)
          refine ⟨d', tokens, ?_, hreads', by simpa using htokens⟩
          rw [hd']
          exact (congrArg (c :: ·) hd).trans (by simp [hr])
        · obtain ⟨rest, kind, word, htoken, hsource, hforms⟩ :=
            Forms.of_first? (by simpa using hc) hf
          obtain ⟨source, token⟩ := found
          simp only at htoken hsource hforms
          subst htoken
          have hrest : (s.pass ⟨source, some (kind, word)⟩).rest = rest := by
            simp [hr, hsource]
          have hlength : rest.length ≤ count := by
            obtain ⟨a, as, ha, -⟩ := hforms.first?
            have hl := congrArg List.length hsource
            simp [hr, ha] at hn hl
            omega
          obtain ⟨d, tokens, hd, hreads, htokens⟩ :=
            ih (hp.pass _) (by rw [hrest]; exact hlength) h
          rw [Scanner.pass_passed] at hreads
          rw [hrest] at hd
          rw [← hd] at hforms
          refine ⟨⟨⟨[], source⟩ :: d.segments, d.ending⟩, _, ?_, hreads.lexeme hforms, ?_⟩
          · rw [hsource, ← hd]
            rfl
          · rw [← hp]
            simpa using htokens

/-- The scanner finds the tokens of any segmentation. -/
theorem ReadsFrom.lexemes {tail : List Char} {list : List Segment}
    (h : ReadsFrom s.keywords tail before list tokens) (hp : s.Placed)
    (hb : s.passed.reverse = before) (hr : s.rest = textFrom tail list)
    (hn : s.rest.length ≤ count) :
    ∃ s', Scan.lexemes count s = .ok () s' ∧
      s'.tokens.toList ++ [.endOfInput s'.position] = s.tokens.toList ++ tokens := by
  generalize hk : s.keywords = keywords at h
  induction h generalizing s count with
  | @done before he =>
    obtain ⟨spare, rfl⟩ := Nat.exists_eq_add_of_le hn
    have hs : s.rest = tail ++ [] := by rw [hr, List.append_nil]; rfl
    refine ⟨s.pass ⟨tail, none⟩, ?_, ?_⟩
    · rw [hr, textFrom, Scan.lexemes_blanks he hs, Scan.lexemes_nil (by simp [hs])]
    · rw [hp.pass ⟨tail, none⟩, Scanner.pass_passed, hb]
      rfl
  | @step kind word before tokens segment rest hg hf _ ih =>
    have hs : s.rest = segment.gap ++ (segment.lexeme ++ textFrom tail rest) := hr
    obtain ⟨c, cs, hl, -, hfirst⟩ := hf.first?
    obtain ⟨spare, rfl⟩ := Nat.exists_eq_add_of_le hn
    have hcount : s.rest.length + spare =
        segment.gap.length + (cs.length + (textFrom tail rest).length + spare + 1) := by
      rw [hs, hl]
      simp only [List.length_append, List.length_cons]
      omega
    -- The state after the blanks of the segment, and the one after its lexeme.
    have hblank : (s.pass ⟨segment.gap, none⟩).rest = c :: (cs ++ textFrom tail rest) := by
      simp [hs, hl]
    let t := (s.pass ⟨segment.gap, none⟩).pass ⟨segment.lexeme, some (kind, word)⟩
    have ht : t.rest = textFrom tail rest := by simp [t, hs]
    have hroom : t.rest.length ≤ cs.length + (textFrom tail rest).length + spare := by
      rw [ht]
      omega
    obtain ⟨s', hrun, htokens⟩ := ih ((hp.pass _).pass _) (by simp [← hb]) ht hroom hk
    refine ⟨s', ?_, ?_⟩
    · rw [hcount, Scan.lexemes_blanks hg hs, Scan.lexemes_cons hblank, Scanner.pass_keywords, hk,
        hfirst]
      exact hrun
    · rw [htokens, Scanner.pass_tokens_some, hp.pass ⟨segment.gap, none⟩, Scanner.pass_passed, hb]
      simp

end Segmentation

/-- A text starts with at most one lexeme. -/
theorem Forms.unique (h : Forms keywords lexeme rest kind text)
    (h' : Forms keywords lexeme' rest' kind' text') (he : lexeme ++ rest = lexeme' ++ rest') :
    lexeme = lexeme' ∧ rest = rest' := by
  obtain ⟨c, cs, hl, -, hf⟩ := h.first?
  obtain ⟨c', cs', hl', -, hf'⟩ := h'.first?
  have hcons : c :: (cs ++ rest) = c' :: (cs' ++ rest') := by simpa [hl, hl'] using he
  obtain ⟨hc, hcs⟩ := List.cons.inj hcons
  rw [hc, hcs, hf', Option.some.injEq, Lexeme.mk.injEq] at hf
  exact ⟨hf.1.symm, List.append_cancel_left (hf.1 ▸ he)⟩

namespace Segmentation

theorem takeWhile_gap {segment : Segment} (hg : ∀ c ∈ segment.gap, Lexeme.isSpace c)
    (hf : Forms keywords segment.lexeme rest kind word) :
    (segment.gap ++ (segment.lexeme ++ rest)).takeWhile Lexeme.isSpace = segment.gap := by
  obtain ⟨c, cs, hl, hc, -⟩ := hf.first?
  exact takeWhile_run hg (by simp [hl, hc])

theorem takeWhile_ending {tail : List Char} (h : ∀ c ∈ tail, Lexeme.isSpace c) :
    tail.takeWhile Lexeme.isSpace = tail :=
  List.takeWhile_eq_self_iff.2 h

theorem ReadsFrom.unique {tail tail' : List Char} {list list' : List Segment}
    (h : ReadsFrom keywords tail before list tokens)
    (h' : ReadsFrom keywords tail' before' list' tokens')
    (he : textFrom tail list = textFrom tail' list') : list = list' ∧ tail = tail' := by
  induction h generalizing before' list' tokens' with
  | done ht =>
    cases h' with
    | done ht' => exact ⟨rfl, he⟩
    | step segment rest hg hf _ =>
      have hgap := takeWhile_gap hg hf
      rw [textFrom, textFrom] at he
      rw [← he, takeWhile_ending ht] at hgap
      obtain ⟨c, cs, hl, -, -⟩ := hf.first?
      simp [hl, hgap] at he
  | step segment rest hg hf _ ih =>
    cases h' with
    | done ht' =>
      have hgap := takeWhile_gap hg hf
      rw [textFrom, textFrom] at he
      rw [he, takeWhile_ending ht'] at hgap
      obtain ⟨c, cs, hl, -, -⟩ := hf.first?
      simp [hl, hgap] at he
    | step segment' rest' hg' hf' hr' =>
      simp only [textFrom] at he
      have hgap : segment.gap = segment'.gap := by
        rw [← takeWhile_gap hg hf, he, takeWhile_gap hg' hf']
      rw [hgap] at he
      obtain ⟨hl, hrest⟩ := hf.unique hf' (List.append_cancel_left he)
      obtain ⟨hs, htail⟩ := ih hr' hrest
      cases segment
      cases segment'
      cases hgap
      cases hl
      exact ⟨congrArg _ hs, htail⟩

end Segmentation

theorem scanTokens_eq (keywords : Keywords) (source : String) :
    scanTokens keywords source =
      match Scan.lexemes source.toList.length (.ofSource keywords source) with
      | .ok _ s => .ok (s.tokens.toList ++ [.endOfInput s.position])
      | .error e _ => .error e := by
  have hl : (Scanner.ofSource keywords source).rest.length = source.toList.length := rfl
  simp only [scanTokens, Scan.all, bind, EStateM.bind, get, getThe, MonadStateOf.get, EStateM.get,
    modify, modifyGet, MonadStateOf.modifyGet, EStateM.modifyGet, pure, EStateM.pure, hl]
  cases Scan.lexemes source.toList.length (.ofSource keywords source) <;> simp

theorem Segmentation.Reads.scanTokens {d : Segmentation} (h : d.Reads keywords tokens)
    (ht : d.text = source.toList) : scanTokens keywords source = .ok tokens := by
  obtain ⟨s, hrun, htokens⟩ := ReadsFrom.lexemes (s := .ofSource keywords source) h
    (Scanner.placed_ofSource _ _) rfl ht.symm (Nat.le_refl _)
  rw [scanTokens_eq, show Scan.lexemes source.toList.length _ = _ from hrun]
  exact congrArg Except.ok htokens

theorem Segmentation.exists_of_scanTokens (h : scanTokens keywords source = .ok tokens) :
    ∃ d : Segmentation, d.text = source.toList ∧ d.Reads keywords tokens := by
  rw [scanTokens_eq] at h
  split at h
  · next s hrun =>
    cases h
    obtain ⟨d, tokens, ht, hr, he⟩ :=
      of_lexemes (Scanner.placed_ofSource keywords source) (Nat.le_refl _) hrun
    refine ⟨d, ht, ?_⟩
    rw [he]
    simpa [Reads, Scanner.ofSource] using hr
  · cases h

/-- Scanning returns a token list exactly when the text has one segmentation with these tokens. -/
theorem scanTokens_eq_ok_iff_existsUnique (keywords : Keywords) (source : String)
    (tokens : List Token) :
    scanTokens keywords source = .ok tokens ↔
      ∃! d : Segmentation, d.text = source.toList ∧ d.Reads keywords tokens := by
  constructor
  · intro h
    obtain ⟨d, ht, hr⟩ := Segmentation.exists_of_scanTokens h
    refine ⟨d, ⟨ht, hr⟩, ?_⟩
    rintro ⟨segments, ending⟩ ⟨ht', hr'⟩
    obtain ⟨hs, he⟩ := Segmentation.ReadsFrom.unique hr' hr (ht'.trans ht.symm)
    exact congrArg₂ Segmentation.mk hs he
  · rintro ⟨d, ⟨ht, hr⟩, -⟩
    exact hr.scanTokens ht

end Ember
