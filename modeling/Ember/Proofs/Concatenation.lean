import Ember.Proofs.Segmentation

/-!
Scanning of texts that follow each other. Where the first text leaves no string open and no run of
letters or digits goes on in the second, the tokens are those of both, and the tokens of the second
text are moved to the places that they have in the whole.
-/

namespace Ember

set_option autoImplicit true

/-- The place in a whole text of what stands at `p` in a part of it that starts at `origin`. -/
def Position.within (origin p : Position) : Position where
  line := origin.line + p.line - 1
  column := if p.line = 1 then origin.column + p.column - 1 else p.column

def Token.relocate (place : Position → Position) (t : Token) : Token :=
  { t with position := place t.position }

@[simp] theorem Token.kind_relocate (place : Position → Position) (t : Token) :
    (t.relocate place).kind = t.kind := rfl

@[simp] theorem Token.text_relocate (place : Position → Position) (t : Token) :
    (t.relocate place).text = t.text := rfl

namespace Position

theorem one_le_line_ofText (text : List Char) : 1 ≤ (ofText text).line := by
  simp only [ofText]
  omega

theorem ofText_concat (text : List Char) (c : Char) :
    ofText (text ++ [c]) = (ofText text).next c := by
  rw [← start_after, after_append, start_after, after_cons, after_nil]

theorem within_next (origin : Position) (hp : 1 ≤ p.line) (c : Char) :
    origin.within (p.next c) = (origin.within p).next c := by
  by_cases hc : c = '\n'
  · have hl : ¬p.line + 1 = 1 := by omega
    simp only [next, within, if_pos hc, hl, if_false, mk.injEq, and_true]
    omega
  · simp only [next, within, if_neg hc, mk.injEq, true_and]
    split <;> omega

theorem ofText_append (text more : List Char) :
    ofText (text ++ more) = (ofText text).within (ofText more) := by
  induction more using List.reverseRec with
  | nil => simp [within, ofText]
  | append_singleton more c ih =>
    rw [← List.append_assoc, ofText_concat, ih, ofText_concat,
      within_next _ (one_le_line_ofText more)]

end Position

/-- No run of letters and no run of digits goes on from one text to the other. -/
def Apart (text more : List Char) : Prop :=
  ∀ p ∈ [Char.isAlpha, Char.isDigit], ∀ c ∈ text.getLast?, ∀ d ∈ more.head?, ¬(p c ∧ p d)

namespace Apart

theorem of_append {text tail more : List Char} (h : Apart (text ++ tail) more) :
    Apart tail more := by
  intro p hp c hc
  exact h p hp c (by simp [Option.mem_def.1 hc])

theorem of_last {text : List Char} (more : List Char)
    (h : ∀ c ∈ text.getLast?, c.isAlpha = false ∧ c.isDigit = false) : Apart text more := by
  intro p hp c hc d _
  simp only [List.mem_cons, List.not_mem_nil, or_false] at hp
  rcases hp with rfl | rfl <;> simp [h c hc]

theorem of_head (text : List Char) {more : List Char}
    (h : ∀ d ∈ more.head?, d.isAlpha = false ∧ d.isDigit = false) : Apart text more := by
  intro p hp c _ d hd
  simp only [List.mem_cons, List.not_mem_nil, or_false] at hp
  rcases hp with rfl | rfl <;> simp [h d hd]

/-- A run that ends in a text does not go on in what follows the text. -/
theorem run {run rest more : List Char} (h : Apart (run ++ rest) more)
    (hp : p ∈ [Char.isAlpha, Char.isDigit]) (hn : run ≠ []) (hrun : ∀ c ∈ run, p c)
    (hr : ∀ c ∈ rest.head?, ¬p c) : ∀ c ∈ (rest ++ more).head?, ¬p c := by
  cases rest with
  | nil =>
    intro d hd hpd
    rw [List.append_nil] at h
    have hlast : run.getLast hn ∈ run.getLast? := by
      rw [List.getLast?_eq_some_getLast hn]
      rfl
    exact h p hp _ hlast d hd ⟨hrun _ (List.getLast_mem hn), hpd⟩
  | cons c rest => exact hr

end Apart

namespace Forms

/-- A lexeme has an even number of quotes, unless it is a string that is not closed. -/
theorem count_quotes (h : Forms keywords lexeme rest kind text) :
    Even (lexeme.count '"') ∨ lexeme.count '"' = 1 ∧ rest = [] := by
  have hfree : '"' ∉ lexeme → Even (lexeme.count '"') := by
    intro hq
    rw [List.count_eq_zero_of_not_mem hq]
    exact Even.zero
  cases h with
  | mark hm =>
    refine .inl (hfree fun hq => ?_)
    rw [List.mem_singleton] at hq
    subst hq
    cases hm
  | number _ hd _ => exact .inl (hfree fun hq => absurd (hd _ hq) (by decide))
  | word _ hl _ => exact .inl (hfree fun hq => absurd (hl _ hq) (by decide))
  | closed hb => exact .inl (by simp [List.count_eq_zero_of_not_mem hb])
  | unclosed hb => exact .inr (by simp [List.count_eq_zero_of_not_mem hb])

theorem append (h : Forms keywords lexeme rest kind text) (he : Even (lexeme.count '"'))
    (ha : Apart (lexeme ++ rest) more) : Forms keywords lexeme (rest ++ more) kind text := by
  cases h with
  | mark hm => exact .mark hm
  | number hn hd hr => exact .number hn hd (ha.run (by simp) hn hd hr)
  | word hn hl hr => exact .word hn hl (ha.run (by simp) hn hl hr)
  | closed hb => exact .closed hb
  | unclosed hb =>
    rw [List.count_cons_self, List.count_eq_zero_of_not_mem hb] at he
    exact absurd he (by decide)

end Forms

namespace Segmentation

theorem count_quotes_gap {gap : List Char} (hg : ∀ c ∈ gap, Lexeme.isSpace c) :
    gap.count '"' = 0 :=
  List.count_eq_zero_of_not_mem fun hq => absurd (hg _ hq) (by decide)

theorem ReadsFrom.ne_nil {tail : List Char} {list : List Segment}
    (h : ReadsFrom keywords tail before list tokens) : tokens ≠ [] := by
  cases h <;> exact List.cons_ne_nil _ _

/-- What is read after one text is read after a longer one, at other places. -/
theorem ReadsFrom.relocate {tail : List Char} {list : List Segment}
    (h : ReadsFrom keywords tail before list tokens) (origin : List Char) :
    ReadsFrom keywords tail (origin ++ before) list
      (tokens.map (Token.relocate (Position.ofText origin).within)) := by
  induction h with
  | @done before he =>
    have hd : ReadsFrom keywords tail (origin ++ before) []
        [.endOfInput (.ofText (origin ++ before ++ tail))] := .done he
    rw [List.append_assoc, Position.ofText_append] at hd
    exact hd
  | @step kind word before tokens segment rest hg hf _ ih =>
    have hs : ReadsFrom keywords tail (origin ++ before) (segment :: rest)
        (⟨kind, word, .ofText (origin ++ before ++ segment.gap)⟩ :: _) :=
      .step segment rest hg hf (by simpa using ih)
    rw [List.append_assoc, Position.ofText_append] at hs
    exact hs

theorem ReadsFrom.append {tail tail' : List Char} {list list' : List Segment}
    (h : ReadsFrom keywords tail before list tokens) (he : Even ((textFrom tail list).count '"'))
    (ha : Apart (textFrom tail list) (textFrom tail' list'))
    (h' : ReadsFrom keywords tail' (before ++ textFrom tail list) list' tokens') :
    ∃ d : Segmentation, d.text = textFrom tail list ++ textFrom tail' list' ∧
      ReadsFrom keywords d.ending before d.segments (tokens.dropLast ++ tokens') := by
  induction h with
  | done hblank => exact h'.blanks hblank
  | @step kind word before tokens segment rest hg hf hr ih =>
    -- The lexeme is closed, since an open string would have the only odd quote of the text.
    have hcount : (textFrom tail (segment :: rest)).count '"' =
        segment.lexeme.count '"' + (textFrom tail rest).count '"' := by
      simp [textFrom, count_quotes_gap hg]
    rw [hcount] at he
    have hclosed : Even (segment.lexeme.count '"') := by
      rcases hf.count_quotes with heven | ⟨hodd, hnil⟩
      · exact heven
      · rw [hodd, hnil] at he
        exact absurd he (by decide)
    have hrest : Even ((textFrom tail rest).count '"') := (Nat.even_add.1 he).1 hclosed
    have hapart : Apart (segment.lexeme ++ textFrom tail rest) (textFrom tail' list') :=
      ha.of_append
    obtain ⟨d, hd, hreads⟩ := ih hrest hapart.of_append (by simpa [textFrom] using h')
    have hforms := hf.append hclosed hapart
    rw [← hd] at hforms
    refine ⟨⟨segment :: d.segments, d.ending⟩, ?_, ?_⟩
    · simp only [text, textFrom, List.append_assoc] at hd ⊢
      rw [hd]
    · rw [List.dropLast_cons_of_ne_nil hr.ne_nil]
      exact .step segment d.segments hg hforms hreads

end Segmentation

theorem scanTokens_append {source more : String} (h : scanTokens keywords source = .ok tokens)
    (he : Even (source.toList.count '"')) (ha : Apart source.toList more.toList)
    (h' : scanTokens keywords more = .ok tokens') :
    scanTokens keywords (source ++ more) = .ok (tokens.dropLast ++
      tokens'.map (Token.relocate (Position.ofText source.toList).within)) := by
  obtain ⟨d, hd, hreads⟩ := Segmentation.exists_of_scanTokens h
  obtain ⟨d', hd', hreads'⟩ := Segmentation.exists_of_scanTokens h'
  have hmoved := Segmentation.ReadsFrom.relocate hreads' source.toList
  rw [List.append_nil, ← List.nil_append source.toList, ← hd] at hmoved
  rw [← hd] at he ha
  rw [← hd'] at ha
  obtain ⟨e, hjoined, hreads⟩ := Segmentation.ReadsFrom.append hreads he ha hmoved
  rw [List.nil_append, hd] at hreads
  refine Segmentation.Reads.scanTokens hreads (hjoined.trans ?_)
  rw [String.toList_append, ← hd, ← hd']
  rfl

theorem scanTokens_newline {first second : String} (h : scanTokens keywords first = .ok tokens)
    (he : Even (first.toList.count '"')) (h' : scanTokens keywords second = .ok tokens') :
    scanTokens keywords (first ++ "\n" ++ second) = .ok (tokens.dropLast ++
      tokens'.map (Token.relocate (Position.ofText (first ++ "\n").toList).within)) := by
  have hbreak : scanTokens keywords "\n" = .ok [.endOfInput ⟨2, 1⟩] := rfl
  have hline := scanTokens_append h he (.of_head _ (by simp)) hbreak
  rw [List.map_singleton] at hline
  rw [scanTokens_append hline _ _ h', List.dropLast_concat]
  · rw [String.toList_append, List.count_append]
    exact he
  · rw [String.toList_append]
    exact .of_last _ (by simp)

end Ember
