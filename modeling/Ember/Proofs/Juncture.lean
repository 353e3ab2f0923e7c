import Ember.Proofs.Stray

/-!
Texts that follow each other, where the first one can be scanned and leaves no string open. The
second text is scanned as it is on its own, and its tokens or its error are the same but for their
places: lines are counted on from the first text, and columns from its last line.
-/

namespace Ember

set_option autoImplicit true

/-- The place in a whole text of what stands at `p` in the part of it that follows `text`. -/
def Position.beyond (text : List Char) (p : Position) : Position where
  line := p.line + text.count '\n'
  column :=
    if p.line = 1 then p.column + (text.reverse.takeWhile (· != '\n')).length else p.column

theorem Position.within_ofText (text : List Char) : (ofText text).within = beyond text := by
  funext p
  simp only [within, beyond, ofText, mk.injEq]
  constructor
  · omega
  · split <;> omega

theorem Segmentation.ReadsFrom.concat {tail : List Char} {list : List Segment}
    (h : ReadsFrom keywords tail before list tokens) :
    tokens = tokens.dropLast ++ [.endOfInput (.ofText (before ++ textFrom tail list))] := by
  induction h with
  | done => rfl
  | step segment rest _ _ hr ih =>
    rw [List.dropLast_cons_of_ne_nil hr.ne_nil, List.cons_append]
    congr 1
    simpa [textFrom] using ih

theorem scanTokens_concat (h : scanTokens keywords source = .ok tokens) :
    tokens = tokens.dropLast ++ [.endOfInput (.ofText source.toList)] := by
  obtain ⟨d, hd, hreads⟩ := Segmentation.exists_of_scanTokens h
  have hconcat := Segmentation.ReadsFrom.concat hreads
  rwa [List.nil_append, ← Segmentation.text, hd] at hconcat

theorem FirstStray.append (h : FirstStray rest i c) (he : Even (front.count '"'))
    (hn : ∀ j d, ¬Stray front j d) : FirstStray (front ++ rest) (front.length + i) c := by
  refine ⟨(stray_append he).2 h.1, fun j hj d hd => ?_⟩
  rcases Nat.lt_or_ge j front.length with hlt | hge
  · rw [← front.take_length, stray_take_append hlt (Nat.le_refl _)] at hd
    exact hn j d hd
  · obtain ⟨k, rfl⟩ := Nat.exists_eq_add_of_le hge
    exact h.2 k (by omega) d ((stray_append he).1 hd)

theorem not_stray_of_scanTokens (h : scanTokens keywords source = .ok tokens) :
    ∀ i c, ¬Stray source.toList i c := by
  intro i c hs
  obtain ⟨j, d, hfirst⟩ := hs.exists_first
  have herror : scanTokens keywords source = _ := scanTokens_eq_error_iff.2 ⟨j, d, hfirst, rfl⟩
  rw [h] at herror
  cases herror

/-- What stops the scanner in a text stops it there after a text that can be scanned. -/
theorem scanTokens_append_eq_error {source more : String}
    (h : scanTokens keywords source = .ok tokens) (he : Even (source.toList.count '"'))
    (h' : scanTokens keywords more = .error e) :
    ∃ c p, e = .unrecognized c p ∧
      scanTokens keywords (source ++ more) = .error (.unrecognized c (p.beyond source.toList)) := by
  obtain ⟨i, c, hfirst, rfl⟩ := scanTokens_eq_error_iff.1 h'
  refine ⟨c, _, rfl, scanTokens_eq_error_iff.2 ⟨source.toList.length + i, c, ?_, ?_⟩⟩
  · rw [String.toList_append]
    exact hfirst.append he (not_stray_of_scanTokens h)
  · rw [String.toList_append, List.take_length_add_append, Position.ofText_append,
      Position.within_ofText]

/-- Scanning goes on from one text to the next. The tokens of the first text, but for its end of
input, are those before the second text, unless a run of letters or digits goes on from one to the
other; the tokens and the error of the second text are moved to their places in the whole. -/
theorem scanTokens_juncture (keywords : Keywords) (source more : String) (tokens : List Token)
    (h : scanTokens keywords source = .ok tokens) (he : Even (source.toList.count '"')) :
    ∃ front, tokens = front ++ [.endOfInput (.ofText source.toList)] ∧
      (Apart source.toList more.toList → ∀ tokens', scanTokens keywords more = .ok tokens' →
        scanTokens keywords (source ++ more) =
          .ok (front ++ tokens'.map (Token.relocate (Position.beyond source.toList)))) ∧
      ∀ e, scanTokens keywords more = .error e → ∃ c p, e = .unrecognized c p ∧
        scanTokens keywords (source ++ more) =
          .error (.unrecognized c (p.beyond source.toList)) := by
  refine ⟨tokens.dropLast, scanTokens_concat h, fun ha tokens' h' => ?_, fun e h' => ?_⟩
  · rw [← Position.within_ofText]
    exact scanTokens_append h he ha h'
  · exact scanTokens_append_eq_error h he h'

/-- A word before a string with a line break, and a stray character on the line after it. -/
theorem scanTokens_juncture_broken :
    Even ("\"q\"\n a".toList.count '"') ∧ Apart "\"q\"\n a".toList "1\"\n\"b".toList ∧
      scanTokens [] ("\"q\"\n a" ++ "1\"\n\"b") =
        .ok [⟨.string, "q", ⟨1, 1⟩⟩, ⟨.identifier, "a", ⟨2, 2⟩⟩, ⟨.number, "1", ⟨2, 3⟩⟩,
          ⟨.string, "\n", ⟨2, 4⟩⟩, ⟨.identifier, "b", ⟨3, 2⟩⟩, .endOfInput ⟨3, 3⟩] ∧
      scanTokens [] ("\"q\"\n a" ++ "b\n#") = .error (.unrecognized '#' ⟨3, 1⟩) := by
  have hsource : scanTokens [] "\"q\"\n a" = .ok [⟨.string, "q", ⟨1, 1⟩⟩,
    ⟨.identifier, "a", ⟨2, 2⟩⟩, .endOfInput ⟨2, 3⟩] := by decide +kernel
  have hmore : scanTokens [] "1\"\n\"b" = .ok [⟨.number, "1", ⟨1, 1⟩⟩, ⟨.string, "\n", ⟨1, 2⟩⟩,
    ⟨.identifier, "b", ⟨2, 2⟩⟩, .endOfInput ⟨2, 3⟩] := by decide +kernel
  have hstray : scanTokens [] "b\n#" = .error (.unrecognized '#' ⟨2, 1⟩) := by decide +kernel
  have he : Even ("\"q\"\n a".toList.count '"') := by decide
  have ha : Apart "\"q\"\n a".toList "1\"\n\"b".toList := by
    intro p hp c hc d hd
    cases hc
    cases hd
    revert p
    decide
  obtain ⟨front, hfront, htokens, -⟩ := scanTokens_juncture [] _ _ _ hsource he
  obtain ⟨-, -, -, herror⟩ := scanTokens_juncture [] _ _ _ hsource he
  obtain rfl : front = [⟨.string, "q", ⟨1, 1⟩⟩, ⟨.identifier, "a", ⟨2, 2⟩⟩] :=
    (List.append_inj' hfront rfl).1.symm
  obtain ⟨c, p, heq, happend⟩ := herror _ hstray
  cases heq
  exact ⟨he, ha, htokens ha _ hmore, happend⟩

end Ember
