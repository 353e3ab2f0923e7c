import Ember.Proofs.Segmentation

/-!
The operations of a scanner, called in any order. Whatever fails on the way, the scanner stays
within its text, at the place that its position tells, and keeps all tokens that it has found.
-/

namespace Ember

set_option autoImplicit true

/-- How the state of a scanner may develop. -/
structure Scanner.Onward (s s' : Scanner) : Prop where
  keywords : s'.keywords = s.keywords
  source : s'.source = s.source
  offset : s.offset ≤ s'.offset
  tokens : s.tokens.toList <+: s'.tokens.toList
  placed : s.Placed → s'.Placed

namespace Lexeme

theorem number_prefix (text : List Char) : (number text).source <+: text :=
  List.takeWhile_prefix _

theorem word_prefix (keywords : Keywords) (text : List Char) :
    (word keywords text).source <+: text :=
  List.takeWhile_prefix _

theorem string_prefix (quote : Char) (text : List Char) :
    (string quote text).source <+: quote :: text := by
  have hbody : text.take (text.takeWhile (· != '"')).length = text.takeWhile (· != '"') :=
    (List.prefix_iff_eq_take.1 (List.takeWhile_prefix _)).symm
  rw [string, List.cons_prefix_cons]
  refine ⟨rfl, ?_⟩
  nth_rewrite 1 [← hbody]
  rw [← List.take_add]
  exact List.take_prefix _ _

theorem first?_prefix (h : first? keywords c text = some found) : found.source <+: c :: text := by
  cases hs : isSpace c with
  | true =>
    obtain rfl : found = ⟨[c], none⟩ := by simpa [first?, hs] using h.symm
    exact ⟨text, rfl⟩
  | false =>
    obtain ⟨rest, -, -, -, he, -⟩ := Forms.of_first? hs h
    exact ⟨rest, he.symm⟩

end Lexeme

namespace Scanner

variable {s s' : Scanner}

theorem Onward.refl (s : Scanner) : s.Onward s :=
  ⟨rfl, rfl, Nat.le_refl _, List.prefix_rfl, id⟩

theorem Onward.trans (h : s.Onward s₁) (h' : s₁.Onward s') : s.Onward s' where
  keywords := h'.keywords.trans h.keywords
  source := h'.source.trans h.source
  offset := h.offset.trans h'.offset
  tokens := h.tokens.trans h'.tokens
  placed := h'.placed ∘ h.placed

theorem onward_pass (h : l.source <+: s.rest) : s.Onward (s.pass l) where
  keywords := rfl
  source := by
    obtain ⟨rest, hr⟩ := h
    simp [source, ← hr]
  offset := by simp [offset, pass]
  tokens := by
    unfold pass
    dsimp only
    split
    · simp
    · exact List.prefix_rfl
  placed hp := hp.pass l

theorem onward_push (s : Scanner) (t : Token) :
    s.Onward { s with tokens := s.tokens.push t } where
  keywords := rfl
  source := rfl
  offset := Nat.le_refl _
  tokens := by simp
  placed := id

end Scanner

namespace Scan

def leave (p : Scan α) (s : Scanner) : Scanner :=
  match p s with
  | .ok _ s' => s'
  | .error _ s' => s'

def GoesOn (p : Scan α) : Prop := ∀ s : Scanner, s.Onward (leave p s)

/-- The operation passes over one lexeme, or else it fails and leaves the scanner as it is. It fails
at what is no lexeme, or at the end of the text. -/
def PassesOne (p : Scan α) : Prop :=
  ∀ s : Scanner, (∃ a l, p s = .ok a (s.pass l) ∧ l.source <+: s.rest) ∨
    ∃ e, p s = .error e s ∧
      ((∃ c, e = .unrecognized c s.position) ∨ e = .pastEnd ∧ s.rest = [])

theorem leave_discard (p : Scan α) (s : Scanner) : leave (do let _ ← p) s = leave p s := by
  simp only [leave, Bind.bind, EStateM.bind]
  cases p s <;> rfl

theorem GoesOn.bind {p : Scan α} {f : α → Scan β} (hp : GoesOn p) (hf : ∀ a, GoesOn (f a)) :
    GoesOn (p >>= f) := by
  intro s
  have hs := hp s
  simp only [leave, Bind.bind, EStateM.bind] at *
  cases hr : p s with
  | ok a s₁ =>
    rw [hr] at hs
    exact hs.trans (hf a s₁)
  | error e s₁ =>
    rw [hr] at hs
    exact hs

theorem goesOn_pure (a : α) : GoesOn (pure a) := .refl

theorem goesOn_get : GoesOn (get : Scan Scanner) := .refl

theorem leave_peek (distance : Int) (s : Scanner) : leave (peek distance) s = s := by
  unfold leave peek
  extract_lets text index place
  by_cases hlow : index < lowestIndex
  · rw [if_pos hlow]
  · rw [if_neg hlow]
    by_cases hstart : place < 0
    · rw [if_pos hstart]
    · rw [if_neg hstart]

theorem PassesOne.goesOn {p : Scan α} (h : PassesOne p) : GoesOn p := by
  intro s
  unfold leave
  rcases h s with ⟨a, l, hp, hl⟩ | ⟨e, hp, -⟩
  · rw [hp]
    exact Scanner.onward_pass hl
  · rw [hp]
    exact .refl s

theorem PassesOne.discard {p : Scan α} (h : PassesOne p) : PassesOne (do let _ ← p) := by
  intro s
  simp only [Bind.bind, EStateM.bind]
  rcases h s with ⟨a, l, hp, hl⟩ | ⟨e, hp, he⟩
  · exact .inl ⟨(), l, by rw [hp]; rfl, hl⟩
  · exact .inr ⟨e, by rw [hp], he⟩

theorem passesOne_advance : PassesOne advance := by
  intro s
  unfold advance
  cases hr : s.rest with
  | nil => exact .inr ⟨_, rfl, .inr ⟨rfl, rfl⟩⟩
  | cons c text => exact .inl ⟨_, _, rfl, text, rfl⟩

theorem passesOne_string : PassesOne string := by
  intro s
  unfold string
  cases hr : s.rest with
  | nil => exact .inr ⟨_, rfl, .inr ⟨rfl, rfl⟩⟩
  | cons c text => exact .inl ⟨_, _, rfl, Lexeme.string_prefix c text⟩

theorem passesOne_number : PassesOne number :=
  fun s => .inl ⟨_, _, rfl, Lexeme.number_prefix s.rest⟩

theorem passesOne_word : PassesOne word :=
  fun s => .inl ⟨_, _, rfl, Lexeme.word_prefix s.keywords s.rest⟩

theorem passesOne_lexeme : PassesOne lexeme := by
  intro s
  unfold lexeme
  cases hr : s.rest with
  | nil => exact .inr ⟨_, rfl, .inl ⟨_, rfl⟩⟩
  | cons c text =>
    dsimp only
    cases hf : Lexeme.first? s.keywords c text with
    | none => exact .inr ⟨_, rfl, .inl ⟨_, rfl⟩⟩
    | some found => exact .inl ⟨_, _, rfl, Lexeme.first?_prefix hf⟩

theorem goesOn_lexemes (count : Nat) : GoesOn (lexemes count) := by
  induction count with
  | zero => exact goesOn_pure ()
  | succ count ih =>
    refine goesOn_get.bind fun s => ?_
    split
    · exact goesOn_pure ()
    · exact passesOne_lexeme.goesOn.bind fun _ => ih

theorem goesOn_all : GoesOn all := by
  refine goesOn_get.bind fun s => (goesOn_lexemes _).bind fun _ => ?_
  refine GoesOn.bind ?_ fun _ => goesOn_get.bind fun _ => goesOn_pure _
  exact fun s => Scanner.onward_push s _

inductive Call where
  | lexeme
  | advance
  | peek (distance : Int)
  | string
  | number
  | word
  | all
deriving DecidableEq

namespace Call

/-- The operation behind a call, without its result. -/
def run : Call → Scan Unit
  | .lexeme => Scan.lexeme
  | .advance => do let _ ← Scan.advance
  | .peek distance => do let _ ← Scan.peek distance
  | .string => Scan.string
  | .number => Scan.number
  | .word => Scan.word
  | .all => do let _ ← Scan.all

def isSingle : Call → Bool
  | .peek _ | .all => false
  | .lexeme | .advance | .string | .number | .word => true

theorem passesOne_run {call : Call} (h : call.isSingle) : PassesOne call.run := by
  cases call with
  | lexeme => exact passesOne_lexeme
  | advance => exact passesOne_advance.discard
  | string => exact passesOne_string
  | number => exact passesOne_number
  | word => exact passesOne_word
  | peek | all => cases h

theorem leave_run_peek (distance : Int) (s : Scanner) : leave (run (.peek distance)) s = s :=
  (leave_discard _ s).trans (leave_peek distance s)

theorem goesOn_run (call : Call) : GoesOn call.run := by
  cases call with
  | peek distance =>
    intro s
    rw [leave_run_peek]
    exact .refl s
  | all => exact goesOn_all.bind fun _ => goesOn_pure ()
  | lexeme | advance | string | number | word => exact (passesOne_run rfl).goesOn

end Call

end Scan

namespace Scanner

/-- The scanner after calls one after the other, also after those that fail. -/
def after (s : Scanner) (calls : List Scan.Call) : Scanner :=
  calls.foldl (fun s call => Scan.leave call.run s) s

theorem onward_after (s : Scanner) (calls : List Scan.Call) : s.Onward (s.after calls) := by
  induction calls generalizing s with
  | nil => exact .refl s
  | cons call calls ih => exact (call.goesOn_run s).trans (ih _)

theorem Placed.position_eq {s : Scanner} (h : s.Placed) :
    s.position = .ofText (s.source.take s.offset) := by
  rw [h, source, offset, ← List.length_reverse, List.take_left]

theorem offset_le_length (s : Scanner) : s.offset ≤ s.source.length := by
  simp [offset, source]

/-- A scanner under any calls. It stays within its text, at the place that its position tells, never
goes back and never takes a token away. Looking ahead changes nothing, and neither does a call for a
single lexeme or character that fails, which it does at what is no lexeme or at the end. -/
theorem after_calls (keywords : Keywords) (source : String) (calls : List Scan.Call) :
    let s := (ofSource keywords source).after calls
    s.source = source.toList ∧ s.offset ≤ source.toList.length ∧
    s.position = .ofText (source.toList.take s.offset) ∧
    (∀ more, s.offset ≤ (s.after more).offset ∧
      s.tokens.toList <+: (s.after more).tokens.toList) ∧
    (∀ distance, Scan.leave (Scan.Call.peek distance).run s = s) ∧
    (∀ call : Scan.Call, call.isSingle → ∀ e s', call.run s = .error e s' → s' = s ∧
      ((∃ c, e = .unrecognized c s.position) ∨
        e = .pastEnd ∧ s.offset = source.toList.length)) := by
  intro s
  have hs := onward_after (ofSource keywords source) calls
  have hsource : s.source = source.toList := hs.source
  have hlength := s.offset_le_length
  have hposition := (hs.placed (placed_ofSource keywords source)).position_eq
  rw [hsource] at hlength hposition
  refine ⟨hsource, hlength, hposition, fun more => ?_, fun d => Scan.Call.leave_run_peek d s,
    fun call hc e s' he => ?_⟩
  · have hm := s.onward_after more
    exact ⟨hm.offset, hm.tokens⟩
  · rcases Scan.Call.passesOne_run hc s with ⟨a, l, hp, -⟩ | ⟨e', hp, hwhy⟩
    · rw [hp] at he
      cases he
    · rw [hp] at he
      cases he
      refine ⟨rfl, hwhy.imp_right fun ⟨hend, hr⟩ => ⟨hend, ?_⟩⟩
      rw [← hsource, Scanner.source, hr, List.append_nil, List.length_reverse, offset]

/-- A string is scanned away from its quote, and what follows it is no lexeme, twice. -/
theorem after_calls_away :
    let s := (ofSource .standard "a\n\"#").after [.string, .peek (-1), .lexeme]
    s.position = ⟨2, 2⟩ ∧ s.tokens.toList = [⟨.string, "\n", ⟨1, 1⟩⟩] ∧
      ∃ s', Scan.Call.lexeme.run s = .error (.unrecognized '#' ⟨2, 2⟩) s' ∧ s' = s := by
  have h := after_calls .standard "a\n\"#" [.string, .peek (-1), .lexeme]
  obtain ⟨s', he⟩ : ∃ s', Scan.Call.lexeme.run ((ofSource .standard "a\n\"#").after
      [.string, .peek (-1), .lexeme]) = .error (.unrecognized '#' ⟨2, 2⟩) s' := ⟨_, rfl⟩
  exact ⟨rfl, rfl, s', he, (h.2.2.2.2.2 .lexeme rfl _ s' he).1⟩

end Scanner

end Ember
