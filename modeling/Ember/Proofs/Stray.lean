import Ember.Proofs.Concatenation

/-!
Where scanning fails: at the first character that starts no lexeme and stands in no string. Whether
a character stands in a string can be told from the number of quotes before it.
-/

namespace Ember

set_option autoImplicit true

def Lexeme.Foreign (c : Char) : Prop :=
  isSpace c = false ∧ mark? c = none ∧ c ≠ '"' ∧ c.isDigit = false ∧ c.isAlpha = false

/-- At a place of a text stands a character that starts no lexeme, after an even number of quotes. -/
def Stray (text : List Char) (i : Nat) (c : Char) : Prop :=
  text[i]? = some c ∧ Lexeme.Foreign c ∧ Even ((text.take i).count '"')

/-- The first of the stray characters. -/
def FirstStray (text : List Char) (i : Nat) (c : Char) : Prop :=
  Stray text i c ∧ ∀ j < i, ∀ d, ¬Stray text j d

theorem Lexeme.first?_eq_none_iff : first? keywords c text = none ↔ Foreign c := by
  unfold first? Foreign
  cases hs : isSpace c with
  | true => simp
  | false =>
    cases hm : mark? c with
    | some kind => simp
    | none =>
      by_cases hq : c = '"'
      · simp [hq]
      · cases hd : c.isDigit <;> cases ha : c.isAlpha <;> simp [hq]

/-- A lexeme holds no stray character: what is foreign stands in a string, after its quote. -/
theorem Forms.not_stray (h : Forms keywords lexeme rest kind text) (hi : i < lexeme.length)
    (c : Char) : ¬Stray (lexeme ++ rest) i c := by
  rintro ⟨hc, ⟨-, hmark, hquote, hdigit, halpha⟩, heven⟩
  rw [List.getElem?_append_left hi] at hc
  rw [List.take_append_of_le_length hi.le] at heven
  have hmem := List.mem_of_getElem? hc
  -- In a string, the only quote before the character is the opening one.
  have hopen : ∀ {body tail : List Char} {j : Nat}, '"' ∉ body → j ≤ body.length →
      ('"' :: (body ++ tail).take j).count '"' = 1 := by
    intro body tail j hb hj
    rw [List.count_cons_self, List.take_append_of_le_length hj,
      List.count_eq_zero_of_not_mem fun hq => hb (List.mem_of_mem_take hq)]
  cases h with
  | mark h =>
    rw [List.mem_singleton.1 hmem, h] at hmark
    cases hmark
  | number _ hd _ => simp [hd c hmem] at hdigit
  | word _ ha _ => simp [ha c hmem] at halpha
  | @closed body _ hb =>
    cases i with
    | zero => exact hquote (Option.some.inj hc).symm
    | succ i =>
      simp only [List.length_cons, List.length_append, List.length_nil] at hi
      rw [List.take_succ_cons, hopen hb (by omega)] at heven
      exact absurd heven (by decide)
  | @unclosed body hb =>
    cases i with
    | zero => exact hquote (Option.some.inj hc).symm
    | succ i =>
      simp only [List.length_cons] at hi
      rw [List.take_succ_cons, ← List.append_nil body, hopen hb (by omega)] at heven
      exact absurd heven (by decide)

theorem stray_append (he : Even (front.count '"')) :
    Stray (front ++ rest) (front.length + i) c ↔ Stray rest i c := by
  rw [Stray, Stray, List.getElem?_append_right (Nat.le_add_right _ _), Nat.add_sub_cancel_left,
    List.take_length_add_append, List.count_append, Nat.even_add, iff_true_left he]

theorem not_stray_nil : ¬Stray [] i c := by
  rintro ⟨h, -⟩
  cases h

/-- The lexeme that the scanner finds: it holds no stray character, and leaves no string open unless
it goes on to the end of the text. -/
theorem Lexeme.exists_rest (h : first? keywords c text = some found) :
    ∃ rest, c :: text = found.source ++ rest ∧ found.source ≠ [] ∧
      (∀ i < found.source.length, ∀ d, ¬Stray (c :: text) i d) ∧
      (Even (found.source.count '"') ∨ rest = []) := by
  cases hs : isSpace c with
  | true =>
    obtain rfl : found = ⟨[c], none⟩ := by simpa [first?, hs] using h.symm
    refine ⟨text, rfl, List.cons_ne_nil _ _, ?_, .inl ?_⟩
    · rintro i hi d ⟨hd, hforeign, -⟩
      obtain rfl : i = 0 := by simpa using hi
      obtain rfl : c = d := Option.some.inj hd
      rw [hforeign.1] at hs
      cases hs
    · rw [Segmentation.count_quotes_gap (by simpa using hs)]
      exact Even.zero
  | false =>
    obtain ⟨rest, kind, word, -, he, hf⟩ := Forms.of_first? hs h
    refine ⟨rest, he, ?_, fun i hi d => he ▸ hf.not_stray hi d, ?_⟩
    · obtain ⟨d, ds, hd, -⟩ := hf.first?
      exact hd ▸ List.cons_ne_nil _ _
    · exact hf.count_quotes.imp_right (·.2)

/-- Scanning fails at the first stray character of what is left, and only there. -/
theorem Scan.lexemes_stray (hp : s.Placed) (hn : s.rest.length ≤ count) :
    match lexemes count s with
    | .ok _ _ => ∀ i c, ¬Stray s.rest i c
    | .error e _ => ∃ i c, FirstStray s.rest i c ∧
        e = .unrecognized c (.ofText (s.passed.reverse ++ s.rest.take i)) := by
  induction count generalizing s with
  | zero =>
    rw [List.eq_nil_of_length_eq_zero (Nat.le_zero.1 hn)]
    exact fun _ _ => not_stray_nil
  | succ count ih =>
    cases hr : s.rest with
    | nil =>
      rw [lexemes_nil hr]
      exact fun _ _ => not_stray_nil
    | cons c text =>
      rw [lexemes_cons hr]
      cases hf : Lexeme.first? s.keywords c text with
      | none =>
        refine ⟨0, c, ⟨⟨rfl, Lexeme.first?_eq_none_iff.1 hf, Even.zero⟩, nofun⟩, ?_⟩
        rw [List.take_zero, List.append_nil, ← hp]
      | some found =>
        obtain ⟨rest, he, hne, hclear, hquotes⟩ := Lexeme.exists_rest hf
        have hrest : (s.pass found).rest = rest := by simp [hr, he]
        have hpos := List.length_pos_iff.2 hne
        have hlength : (s.pass found).rest.length ≤ count := by
          have hl := congrArg List.length he
          rw [hr] at hn
          rw [hrest]
          simp only [List.length_cons, List.length_append] at hn hl
          omega
        -- The stray characters of the text are those of what the lexeme leaves.
        have hstray : ∀ i d, Stray (c :: text) i d ↔
            ∃ j, i = found.source.length + j ∧ Stray rest j d := by
          intro i d
          constructor
          · intro h
            obtain ⟨j, rfl⟩ := Nat.exists_eq_add_of_le
              (Nat.le_of_not_lt fun hi => hclear i hi d h)
            refine ⟨j, rfl, ?_⟩
            rw [he] at h
            rcases hquotes with heven | rfl
            · exact (stray_append heven).1 h
            · have hc := h.1
              simp at hc
          · rintro ⟨j, rfl, h⟩
            rcases hquotes with heven | rfl
            · exact he ▸ (stray_append heven).2 h
            · exact absurd h not_stray_nil
        have hs := ih (hp.pass found) hlength
        rw [hrest] at hs
        dsimp only
        split
        · next hrun =>
          rw [hrun] at hs
          intro i d h
          obtain ⟨j, -, h⟩ := (hstray i d).1 h
          exact hs j d h
        · next hrun =>
          rw [hrun] at hs
          obtain ⟨i, d, ⟨h, hfirst⟩, rfl⟩ := hs
          refine ⟨found.source.length + i, d, ⟨(hstray _ d).2 ⟨i, rfl, h⟩, ?_⟩, ?_⟩
          · intro k hk b hb
            obtain ⟨j, rfl, hj⟩ := (hstray k b).1 hb
            exact hfirst j (by omega) b hj
          · rw [Scanner.pass_passed, he, List.take_length_add_append, List.append_assoc]

theorem FirstStray.unique (h : FirstStray text i c) (h' : FirstStray text j d) :
    i = j ∧ c = d := by
  obtain rfl : i = j := by
    rcases Nat.lt_trichotomy i j with hlt | rfl | hlt
    · exact absurd h.1 (h'.2 i hlt c)
    · rfl
    · exact absurd h'.1 (h.2 j hlt d)
  exact ⟨rfl, Option.some.inj (h.1.1.symm.trans h'.1.1)⟩

theorem Stray.exists_first (h : Stray text i c) : ∃ j d, FirstStray text j d := by
  classical
  have hex : ∃ j, ∃ d, Stray text j d := ⟨i, c, h⟩
  obtain ⟨d, hd⟩ := Nat.find_spec hex
  exact ⟨Nat.find hex, d, hd, fun j hj b hb => Nat.find_min hex hj ⟨b, hb⟩⟩

theorem stray_take_append (hi : i < n) (hn : n ≤ text.length) :
    Stray (text.take n ++ more) i c ↔ Stray text i c := by
  have hlength : (text.take n).length = n := List.length_take_of_le hn
  rw [Stray, Stray, List.getElem?_append_left (by omega), List.getElem?_take_of_lt hi,
    List.take_append_of_le_length (by omega), List.take_take, Nat.min_eq_left hi.le]

theorem FirstStray.lt_length (h : FirstStray text i c) : i < text.length :=
  (List.getElem?_eq_some_iff.1 h.1.1).1

theorem FirstStray.take_append (h : FirstStray text i c) (more : List Char) :
    FirstStray (text.take (i + 1) ++ more) i c := by
  refine ⟨(stray_take_append (Nat.lt_succ_self i) h.lt_length).2 h.1, fun j hj d hd => ?_⟩
  exact h.2 j hj d ((stray_take_append (hj.trans (Nat.lt_succ_self i)) h.lt_length).1 hd)

/-- Scanning fails with the error that tells of the first stray character, and with no other. -/
theorem scanTokens_eq_error_iff {keywords : Keywords} {source : String} :
    scanTokens keywords source = .error e ↔ ∃ i c, FirstStray source.toList i c ∧
      e = .unrecognized c (.ofText (source.toList.take i)) := by
  have hs := Scan.lexemes_stray (Scanner.placed_ofSource keywords source)
    (Nat.le_refl source.toList.length)
  rw [scanTokens_eq]
  split
  · next hrun =>
    rw [hrun] at hs
    constructor
    · intro h
      cases h
    · rintro ⟨i, c, h, -⟩
      exact absurd h.1 (hs i c)
  · next hrun =>
    rw [hrun] at hs
    obtain ⟨i, c, h, rfl⟩ := hs
    constructor
    · intro h
      cases h
      exact ⟨i, c, h, rfl⟩
    · rintro ⟨j, d, h', rfl⟩
      obtain ⟨rfl, rfl⟩ := h.unique h'
      rfl

theorem FirstStray.scanTokens_take (h : FirstStray text i c) :
    ∃ tokens, scanTokens keywords (String.ofList (text.take i)) = .ok tokens := by
  cases hscan : scanTokens keywords (String.ofList (text.take i)) with
  | ok tokens => exact ⟨tokens, rfl⟩
  | error e =>
    obtain ⟨j, d, hfirst, -⟩ := scanTokens_eq_error_iff.1 hscan
    rw [String.toList_ofList, ← List.append_nil (text.take i)] at hfirst
    have hj : j < i := by
      have hlt := hfirst.lt_length
      rw [List.append_nil, List.length_take] at hlt
      omega
    exact absurd ((stray_take_append hj h.lt_length.le).1 hfirst.1) (h.2 j hj d)

/-- Scanning fails if and only if there is a stray character. The error tells of the first one, with
its code and its place, and is the same for all tables of keywords and whatever follows the
character. -/
theorem scanTokens_firstStray (keywords : Keywords) (source : String) :
    ((∃ e, scanTokens keywords source = .error e) ↔ ∃ i c, Stray source.toList i c) ∧
    (∀ e, scanTokens keywords source = .error e ↔ ∃ i c, FirstStray source.toList i c ∧
      e = .unrecognized c (.ofText (source.toList.take i))) ∧
    ∀ i c, FirstStray source.toList i c →
      let p := Position.ofText (source.toList.take i)
      (ScanError.unrecognized c p).message =
        "Unrecognized character " ++ Text.quoted (String.ofList [c]) ++ " (code " ++
          toString c.toNat ++ ") at line " ++ toString p.line ++ ", col " ++ toString p.column ∧
      ∀ (keywords' : Keywords) (more : List Char),
        scanTokens keywords' (String.ofList (source.toList.take (i + 1) ++ more)) =
          .error (.unrecognized c p) := by
  refine ⟨⟨?_, ?_⟩, fun e => scanTokens_eq_error_iff, fun i c h => ⟨rfl, fun keywords' more => ?_⟩⟩
  · rintro ⟨e, h⟩
    obtain ⟨i, c, h, -⟩ := scanTokens_eq_error_iff.1 h
    exact ⟨i, c, h.1⟩
  · rintro ⟨i, c, h⟩
    obtain ⟨j, d, h⟩ := h.exists_first
    exact ⟨_, scanTokens_eq_error_iff.2 ⟨j, d, h, rfl⟩⟩
  · have hlength : (source.toList.take (i + 1)).length = i + 1 :=
      List.length_take_of_le h.lt_length
    refine scanTokens_eq_error_iff.2 ⟨i, c, ?_, ?_⟩
    · rw [String.toList_ofList]
      exact h.take_append more
    · rw [String.toList_ofList, List.take_append_of_le_length (by omega), List.take_take,
        Nat.min_eq_left (Nat.le_succ i)]

/-- A string with a line break hides foreign characters, and a null character after it is stray. -/
theorem scanTokens_firstStray_null :
    FirstStray "\"#\n\" \x00#".toList 5 '\x00' ∧
      scanTokens [] "\"#\n\" \x00\"" = .error (.unrecognized '\x00' ⟨2, 3⟩) := by
  have h : FirstStray "\"#\n\" \x00#".toList 5 '\x00' := by
    refine ⟨⟨rfl, by unfold Lexeme.Foreign; decide, by decide⟩, fun j hj d hd => ?_⟩
    obtain ⟨hc, hforeign, heven⟩ := hd
    unfold Lexeme.Foreign at hforeign
    interval_cases j <;> cases hc <;> revert hforeign heven <;> decide
  exact ⟨h, ((scanTokens_firstStray .standard "\"#\n\" \x00#").2.2 5 '\x00' h).2 [] ['"']⟩

end Ember
