import Ember.Proofs.Progress

/-!
Parsers side by side. A parser looks at tokens one at a time, and at nothing of them but the kind and
the text: from cursors that stay alike as tokens are taken, two stacks of rules do the same as long as
the first one does not run out of depth.
-/

namespace Ember

set_option autoImplicit true

open Ember.Parser

/-- Two cursors that go along with each other, up to cursors that lie beyond what is compared. -/
structure Lockstep where
  tokens : Token → Token → Prop
  cursors : Cursor → Cursor → Prop
  beyond : Cursor → Prop
  total : ∀ t, ∃ t', tokens t t'
  kind : ∀ {t t'}, tokens t t' → t.kind = t'.kind
  text : ∀ {t t'}, tokens t t' → t.text = t'.text
  current : ∀ {c c'}, cursors c c' → tokens c.current c'.current
  advance : ∀ {c c'}, cursors c c' → c.current.kind ≠ .endOfInput →
    beyond c.advance ∨ cursors c.advance c'.advance
  past : ∀ {c c'}, c.Past 0 c' → beyond c → beyond c'

namespace Lockstep

/-- Errors that differ in their tokens at most, and in these no more than the cursors do. -/
inductive Errors (L : Lockstep) : ParseError → ParseError → Prop where
  | unexpected : L.tokens t t' → L.Errors (.unexpected e t) (.unexpected e t')
  | malformedNumber : L.Errors (.malformedNumber s) (.malformedNumber s)

/-- The second run ends as the first one does, unless the first one runs out of depth or ends beyond
what is compared. -/
def Meets (L : Lockstep) (results : α → α → Prop) :
    EStateM.Result ParseError Cursor α → EStateM.Result ParseError Cursor α → Prop
  | .ok a c, r => L.beyond c ∨ ∃ a' c', r = .ok a' c' ∧ results a a' ∧ L.cursors c c'
  | .error e c, r => e = .tooDeep ∨ L.beyond c ∨
      ∃ e' c', r = .error e' c' ∧ L.Errors e e' ∧ L.cursors c c'

/-- From cursors that go along with each other the second parser does what the first one does, where
the first cursor stands at a start. -/
structure FollowsFrom (L : Lockstep) (start : Cursor → Prop) (results : α → α → Prop)
    (p p' : Parser α) : Prop where
  moves : p.Moves 0
  meets : ∀ {c c'}, L.cursors c c' → start c → L.Meets results (p c) (p' c')

abbrev Follows (L : Lockstep) (results : α → α → Prop) (p p' : Parser α) : Prop :=
  L.FollowsFrom (fun _ => True) results p p'

abbrev FollowsInside (L : Lockstep) (results : α → α → Prop) (p p' : Parser α) : Prop :=
  L.FollowsFrom (fun c => c.current.kind ≠ .endOfInput) results p p'

section

variable {L : Lockstep} {start : Cursor → Prop} {c c' : Cursor}

theorem Meets.bind {p p' : Parser α} {f f' : α → Parser β} {results' : β → β → Prop}
    (h : L.Meets results (p c) (p' c')) (hm : ∀ a, (f a).Moves 0)
    (hf : ∀ a a' c₁ c₁', p c = .ok a c₁ → p' c' = .ok a' c₁' → results a a' → L.cursors c₁ c₁' →
      L.Meets results' (f a c₁) (f' a' c₁')) :
    L.Meets results' ((p >>= f) c) ((p' >>= f') c') := by
  simp only [Bind.bind, EStateM.bind]
  cases hp : p c with
  | error e c₁ =>
    rw [hp] at h
    rcases h with h | h | ⟨e', c₁', hp', he, hc⟩
    · exact .inl h
    · exact .inr (.inl h)
    · rw [hp']
      exact .inr (.inr ⟨e', c₁', rfl, he, hc⟩)
  | ok a c₁ =>
    rw [hp] at h
    rcases h with h | ⟨a', c₁', hp', ha, hc⟩
    · -- From beyond what is compared, the rest of the first run goes further beyond.
      dsimp only
      cases hq : f a c₁ with
      | ok b c₂ => exact .inl (L.past ((hm a c₁).of_eq_ok hq) h)
      | error e c₂ => exact .inr (.inl (L.past ((hm a c₁).of_eq_error hq) h))
    · rw [hp']
      exact hf a a' c₁ c₁' hp hp' ha hc

theorem FollowsFrom.bind {p p' : Parser α} {f f' : α → Parser β} {results' : β → β → Prop}
    (hp : L.FollowsFrom start Eq p p') (hf : ∀ a, L.Follows results' (f a) (f' a)) :
    L.FollowsFrom start results' (p >>= f) (p' >>= f') where
  moves := hp.moves.bind_left fun a => (hf a).moves
  meets hc hs := by
    apply (hp.meets hc hs).bind fun a => (hf a).moves
    rintro a _ c₁ c₁' - - rfl hc₁
    exact (hf a).meets hc₁ trivial

theorem FollowsFrom.bind_token {p p' : Parser Token} {f f' : Token → Parser β}
    {results' : β → β → Prop} (hp : L.FollowsFrom start L.tokens p p')
    (hf : ∀ t t', L.tokens t t' → L.Follows results' (f t) (f' t')) :
    L.FollowsFrom start results' (p >>= f) (p' >>= f') where
  moves := hp.moves.bind_left fun t => (L.total t).elim fun t' ht => (hf t t' ht).moves
  meets hc hs := by
    apply (hp.meets hc hs).bind fun t => (L.total t).elim fun t' ht => (hf t t' ht).moves
    rintro t t' c₁ c₁' - - ht hc₁
    exact (hf t t' ht).meets hc₁ trivial

theorem Follows.inside {p p' : Parser α} (h : L.Follows results p p') :
    L.FollowsInside results p p' where
  moves := h.moves
  meets hc _ := h.meets hc trivial

theorem follows_pure (a : α) : L.Follows Eq (pure a) (pure a) where
  moves := moves_pure a
  meets hc _ := .inr ⟨a, _, rfl, rfl, hc⟩

theorem follows_throw {results : α → α → Prop} (he : L.Errors e e') :
    L.Follows results (throw e) (throw e') where
  moves := moves_throw e
  meets hc _ := .inr (.inr ⟨e', _, rfl, he, hc⟩)

theorem follows_exhausted {results : α → α → Prop} (p : Parser α) :
    L.FollowsFrom start results (throw .tooDeep) p where
  moves := moves_throw _
  meets _ _ := .inl rfl

theorem follows_current : L.Follows L.tokens Parser.current Parser.current where
  moves := moves_current
  meets hc _ := .inr ⟨_, _, rfl, L.current hc, hc⟩

theorem follows_advance : L.FollowsInside L.tokens Parser.advance Parser.advance where
  moves := moves_advance
  meets hc hs := (L.advance hc hs).imp id fun h => ⟨_, _, rfl, L.current hc, h⟩

theorem follows_reject {results : α → α → Prop} (e : Expectation) :
    L.Follows results (reject e) (reject e) where
  moves := moves_reject e
  meets hc _ := .inr (.inr ⟨_, _, rfl, .unexpected (L.current hc), hc⟩)

theorem follows_expect (he : e.kind? ≠ some .endOfInput) :
    L.Follows L.tokens (expect e) (expect e) where
  moves := (moves_expect he).weaken
  meets := by
    intro c c' hc _
    have hk := L.kind (L.current hc)
    show L.Meets _ ((if e.kind? = some c.current.kind then Parser.advance else reject e) c)
      ((if e.kind? = some c'.current.kind then Parser.advance else reject e) c')
    rw [← hk]
    split
    · next h => exact follows_advance.meets hc fun hend => he (h.trans (congrArg some hend))
    · exact (follows_reject e).meets hc trivial

end

end Lockstep

namespace Parser

def peek (test : TokenKind → String → Bool) : Parser Bool :=
  return test (← current).kind (← current).text

/-- A test of the current token that fails at the end of input. -/
def Peeks (p : Parser Bool) : Prop :=
  ∃ test, p = peek test ∧ ∀ text, test .endOfInput text = false

theorem peeks_sees {kinds : List TokenKind} (h : kinds.contains .endOfInput = false) :
    Peeks (sees kinds) := ⟨fun kind _ => kinds.contains kind, rfl, fun _ => h⟩

theorem peeks_seesOperator (operators : List String) : Peeks (seesOperator operators) :=
  ⟨fun kind text => kind == .operator && operators.contains text, rfl, fun _ => rfl⟩

theorem peeks_not_sees (kinds : List TokenKind) :
    Peeks (return !(← sees (.endOfInput :: kinds))) :=
  ⟨fun kind _ => !(TokenKind.endOfInput :: kinds).contains kind, rfl, fun _ => rfl⟩

theorem moves_peek (test : TokenKind → String → Bool) : Moves 0 (peek test) := fun c => .refl c

variable {test : TokenKind → String → Bool} {c : Cursor}

theorem iterate_of_not {step : α → Parser α} (h : test c.current.kind c.current.text = false)
    (fuel : List Token) (a : α) : iterate (peek test) step fuel a c = .ok a c := by
  cases fuel with
  | nil => rfl
  | cons t fuel =>
    show (if test c.current.kind c.current.text then step a >>= iterate (peek test) step fuel
      else pure a) c = _
    rw [h]
    rfl

theorem iterate_cons {step : α → Parser α} (h : test c.current.kind c.current.text = true)
    (t : Token) (fuel : List Token) (a : α) :
    iterate (peek test) step (t :: fuel) a c = (step a >>= iterate (peek test) step fuel) c := by
  show (if test c.current.kind c.current.text then step a >>= iterate (peek test) step fuel
    else pure a) c = _
  rw [h]
  rfl

theorem collect_of_not {item : Parser α} (h : test c.current.kind c.current.text = false)
    (fuel : List Token) : collect (peek test) item fuel c = .ok [] c := by
  cases fuel with
  | nil => rfl
  | cons t fuel =>
    show (if test c.current.kind c.current.text then
      item >>= fun first => collect (peek test) item fuel >>= fun rest => pure (first :: rest)
      else pure []) c = _
    rw [h]
    rfl

theorem collect_cons {item : Parser α} (h : test c.current.kind c.current.text = true)
    (t : Token) (fuel : List Token) :
    collect (peek test) item (t :: fuel) c =
      (item >>= fun first => collect (peek test) item fuel >>= fun rest =>
        pure (first :: rest)) c := by
  show (if test c.current.kind c.current.text then
    item >>= fun first => collect (peek test) item fuel >>= fun rest => pure (first :: rest)
    else pure []) c = _
  rw [h]
  rfl

theorem exists_fuel {fuel : List Token} (hk : c.current.kind ≠ .endOfInput)
    (hl : c.pending.length ≤ fuel.length) : ∃ t rest, fuel = t :: rest := by
  rw [c.pending_eq_cons hk, List.length_cons] at hl
  exact List.exists_cons_of_length_pos (by omega)

end Parser

namespace Lockstep

section

variable {L : Lockstep} {start : Cursor → Prop} {c c' : Cursor}
  {test : TokenKind → String → Bool} (ht : ∀ text, test .endOfInput text = false)

include ht

theorem inside_of_test (h : test c.current.kind c.current.text = true) :
    c.current.kind ≠ .endOfInput := by
  intro hk
  rw [hk, ht] at h
  cases h

/-- Loops whose rounds go along with each other, as long as rounds take tokens and there is a round
for each token that is pending. -/
theorem meets_iterate {step step' : α → Parser α} (hs : ∀ a, L.FollowsInside Eq (step a) (step' a))
    (hm : ∀ a, (step a).Moves 1) (hm' : ∀ a, (step' a).Moves 1) (hc : L.cursors c c')
    {fuel fuel' : List Token} (hl : c.pending.length ≤ fuel.length)
    (hl' : c'.pending.length ≤ fuel'.length) (a : α) :
    L.Meets Eq (iterate (peek test) step fuel a c) (iterate (peek test) step' fuel' a c') := by
  induction hn : c.pending.length using Nat.strongRecOn generalizing c c' fuel fuel' a with
  | ind n ih =>
    have hk := L.current hc
    cases htest : test c.current.kind c.current.text with
    | false =>
      rw [iterate_of_not htest, iterate_of_not (by rwa [← L.kind hk, ← L.text hk])]
      exact .inr ⟨a, c', rfl, rfl, hc⟩
    | true =>
      have hinside := inside_of_test ht htest
      obtain ⟨t, fuel, rfl⟩ := exists_fuel hinside hl
      obtain ⟨t', fuel', rfl⟩ := exists_fuel (L.kind hk ▸ hinside) hl'
      rw [iterate_cons htest, iterate_cons (by rwa [← L.kind hk, ← L.text hk])]
      apply ((hs a).meets hc hinside).bind
      · exact moves_iterate (moves_peek test) (fun b => (hm b).weaken) fuel
      · rintro b _ c₁ c₁' hb hb' rfl hc₁
        have h₁ := ((hm a c).of_eq_ok hb).length_add_le
        have h₁' := ((hm' a c').of_eq_ok hb').length_add_le
        simp only [List.length_cons] at hl hl'
        exact ih _ (by omega) hc₁ (by omega) (by omega) b rfl

theorem meets_collect {item item' : Parser α} (hi : L.FollowsInside Eq item item')
    (hm : item.Moves 1) (hm' : item'.Moves 1) (hc : L.cursors c c')
    {fuel fuel' : List Token} (hl : c.pending.length ≤ fuel.length)
    (hl' : c'.pending.length ≤ fuel'.length) :
    L.Meets Eq (collect (peek test) item fuel c) (collect (peek test) item' fuel' c') := by
  induction hn : c.pending.length using Nat.strongRecOn generalizing c c' fuel fuel' with
  | ind n ih =>
    have hk := L.current hc
    cases htest : test c.current.kind c.current.text with
    | false =>
      rw [collect_of_not htest, collect_of_not (by rwa [← L.kind hk, ← L.text hk])]
      exact .inr ⟨[], c', rfl, rfl, hc⟩
    | true =>
      have hinside := inside_of_test ht htest
      obtain ⟨t, fuel, rfl⟩ := exists_fuel hinside hl
      obtain ⟨t', fuel', rfl⟩ := exists_fuel (L.kind hk ▸ hinside) hl'
      rw [collect_cons htest, collect_cons (by rwa [← L.kind hk, ← L.text hk])]
      have hmoves := moves_collect (moves_peek test) hm.weaken fuel
      apply (hi.meets hc hinside).bind
      · exact fun _ => hmoves.bind_left fun _ => moves_pure _
      · rintro first _ c₁ c₁' hb hb' rfl hc₁
        have h₁ := ((hm c).of_eq_ok hb).length_add_le
        have h₁' := ((hm' c').of_eq_ok hb').length_add_le
        simp only [List.length_cons] at hl hl'
        apply (ih _ (by omega) hc₁ (by omega) (by omega) rfl).bind
        · exact fun _ => moves_pure _
        · rintro others _ c₂ c₂' - - rfl hc₂
          exact (follows_pure _).meets hc₂ trivial

end

section

variable {L : Lockstep} {test : Parser Bool}

theorem FollowsFrom.branch {p p' q q' : Parser α} {results : α → α → Prop} (ht : Peeks test)
    (hp : L.FollowsInside results p p') (hq : L.Follows results q q') :
    L.Follows results (test >>= fun b => if b then p else q)
      (test >>= fun b => if b then p' else q') := by
  obtain ⟨test, rfl, ht⟩ := ht
  refine ⟨(moves_peek test).bind_left fun _ => .ite hp.moves hq.moves, ?_⟩
  intro c c' hc _
  have ht' := L.current hc
  show L.Meets _ ((if test c.current.kind c.current.text then p else q) c)
    ((if test c'.current.kind c'.current.text then p' else q') c')
  rw [← L.kind ht', ← L.text ht']
  split
  · next h => exact hp.meets hc (inside_of_test ht h)
  · exact hq.meets hc trivial

theorem follows_loop {step step' : α → Parser α} (ht : Peeks test)
    (hs : ∀ a, L.FollowsInside Eq (step a) (step' a)) (hm : ∀ a, (step a).Moves 1)
    (hm' : ∀ a, (step' a).Moves 1) (a : α) :
    L.Follows Eq (loop test step a) (loop test step' a) := by
  obtain ⟨test, rfl, ht⟩ := ht
  refine ⟨moves_loop (moves_peek test) (fun b => (hm b).weaken) a, fun hc _ => ?_⟩
  exact meets_iterate ht hs hm hm' hc (Nat.le_refl _) (Nat.le_refl _) a

theorem follows_many {item item' : Parser α} (ht : Peeks test)
    (hi : L.FollowsInside Eq item item') (hm : item.Moves 1) (hm' : item'.Moves 1) :
    L.Follows Eq (many test item) (many test item') := by
  obtain ⟨test, rfl, ht⟩ := ht
  refine ⟨moves_many (moves_peek test) hm.weaken, fun hc _ => ?_⟩
  exact meets_collect ht hi hm hm' hc (Nat.le_refl _) (Nat.le_refl _)

end

/-- A grammar whose rules do what the rules of another one do. A declaration and a function are asked
for where their first word stands. -/
structure Grammars (L : Lockstep) (g g' : Grammar) : Prop where
  moves : g.Moves
  moves' : g'.Moves
  program : L.Follows Eq g.program g'.program
  statement : L.Follows Eq g.statement g'.statement
  declaration : L.FollowsInside Eq g.declaration g'.declaration
  function : L.FollowsInside Eq g.function g'.function
  params : L.Follows Eq g.params g'.params
  param : L.Follows Eq g.param g'.param
  expression : L.Follows Eq g.expression g'.expression
  assignment : L.Follows Eq g.assignment g'.assignment
  object : L.Follows Eq g.object g'.object
  sum : L.Follows Eq g.sum g'.sum
  product : L.Follows Eq g.product g'.product
  callOrMember : L.Follows Eq g.callOrMember g'.callOrMember
  call : ∀ callee, L.Follows Eq (g.call callee) (g'.call callee)
  arguments : L.Follows Eq g.arguments g'.arguments
  member : L.Follows Eq g.member g'.member
  primary : L.Follows Eq g.primary g'.primary

section

variable {L : Lockstep}

theorem follows_expect_last (he : e.kind? ≠ some .endOfInput) (a : α) :
    L.Follows Eq (expect e >>= fun _ => pure a) (expect e >>= fun _ => pure a) :=
  (follows_expect he).bind_token fun _ _ _ => follows_pure a

theorem follows_advance_last (a : α) :
    L.FollowsInside Eq (Parser.advance >>= fun _ => pure a) (Parser.advance >>= fun _ => pure a) :=
  follows_advance.bind_token fun _ _ _ => follows_pure a

theorem follows_manyUntil (kinds : List TokenKind) {item item' : Parser α}
    (hi : L.Follows Eq item item') (hm : item.Moves 1) (hm' : item'.Moves 1) :
    L.Follows Eq (manyUntil kinds item) (manyUntil kinds item') :=
  follows_many (peeks_not_sees kinds) hi.inside hm hm'

theorem follows_parenthesized {opening closing : Expectation} {item item' : Parser α}
    (ho : opening.kind? ≠ some .endOfInput) (hc : closing.kind? ≠ some .endOfInput)
    (hi : L.Follows Eq item item') (hm : item.Moves 1) (hm' : item'.Moves 1) :
    L.Follows Eq (parenthesized opening closing item) (parenthesized opening closing item') := by
  refine (follows_expect ho).bind_token fun _ _ _ => .branch (peeks_sees rfl) ?_ ?_
  · exact (follows_expect_last hc _).inside
  · refine hi.bind fun first => .bind ?_ fun rest => follows_expect_last hc _
    refine follows_many (peeks_sees rfl) ?_ ?_ ?_
    · exact follows_advance.bind_token fun _ _ _ => hi
    · exact moves_advance.bind_right fun _ => hm
    · exact moves_advance.bind_right fun _ => hm'

variable {g g' : Grammar}

theorem follows_statement (h : L.Grammars g g') :
    L.Follows Eq (Rules.statement g) (Rules.statement g') :=
  .branch (peeks_sees rfl) h.declaration (.branch (peeks_sees rfl) h.function h.expression)

theorem follows_declaration (h : L.Grammars g g') :
    L.FollowsInside Eq (Rules.declaration g) (Rules.declaration g') := by
  refine follows_advance.bind_token fun word word' hw => ?_
  refine (follows_expect (by decide)).bind_token fun name name' hn => ?_
  rw [L.kind hw, L.text hn]
  refine .branch (peeks_sees rfl) ?_ ?_
  · split
    · exact (follows_reject _).inside
    · exact follows_advance_last _
  · refine (follows_expect (by decide)).bind_token fun _ _ _ => ?_
    exact h.expression.bind fun value => follows_expect_last (by decide) _

theorem follows_function (h : L.Grammars g g') :
    L.FollowsInside Eq (Rules.function g) (Rules.function g') := by
  refine follows_advance.bind_token fun _ _ _ => ?_
  refine (follows_expect (by decide)).bind_token fun name name' hn => ?_
  rw [L.text hn]
  refine .branch (peeks_sees rfl) ?_ (follows_reject _)
  refine Follows.inside (h.params.bind fun params => ?_)
  refine (follows_expect (by decide)).bind_token fun _ _ _ => ?_
  refine .bind ?_ fun body => follows_expect_last (by decide) _
  exact follows_manyUntil _ h.statement h.moves.statement h.moves'.statement

theorem follows_param (h : L.Grammars g g') :
    L.Follows Eq (Rules.param g) (Rules.param g') := by
  refine follows_current.bind_token fun start start' hs => h.assignment.bind fun n => ?_
  cases n with
  | identifier name => exact follows_pure name
  | _ => exact follows_throw (.unexpected hs)

theorem follows_assignment (h : L.Grammars g g') :
    L.Follows Eq (Rules.assignment g) (Rules.assignment g') := by
  refine h.object.bind fun left => .branch (peeks_sees rfl) ?_ (follows_pure left)
  refine follows_advance.bind_token fun _ _ _ => h.assignment.bind fun value => ?_
  exact follows_expect_last (by decide) _

theorem follows_property (h : L.Grammars g g') :
    L.Follows Eq (Rules.property g) (Rules.property g') := by
  refine (follows_expect (by decide)).bind_token fun key key' hk => ?_
  rw [L.text hk]
  refine .branch (peeks_sees rfl) (follows_advance_last _) ?_
  refine .branch (peeks_sees rfl) (follows_pure _).inside ?_
  refine (follows_expect (by decide)).bind_token fun _ _ _ => h.expression.bind fun value => ?_
  exact .branch (peeks_sees rfl) (follows_pure _).inside (follows_expect_last (by decide) _)

theorem follows_object (h : L.Grammars g g') :
    L.Follows Eq (Rules.object g) (Rules.object g') := by
  refine .branch (peeks_sees rfl) ?_ h.sum
  refine follows_advance.bind_token fun _ _ _ => .bind ?_ fun _ => follows_expect_last (by decide) _
  exact follows_manyUntil _ (follows_property h) (Rules.moves_property h.moves)
    (Rules.moves_property h.moves')

theorem follows_chain (operators : List String) {operand operand' : Parser Node}
    (ho : L.Follows Eq operand operand') (hm : operand.Moves 1) (hm' : operand'.Moves 1) :
    L.Follows Eq (Rules.chain operators operand) (Rules.chain operators operand') := by
  refine ho.bind fun first => follows_loop (peeks_seesOperator _) (fun left => ?_) ?_ ?_ first
  · refine follows_advance.bind_token fun operator operator' hop => ?_
    rw [L.text hop]
    exact ho.bind fun right => follows_pure _
  · exact fun _ => moves_advance.bind_right fun _ => hm.bind_left fun _ => moves_pure _
  · exact fun _ => moves_advance.bind_right fun _ => hm'.bind_left fun _ => moves_pure _

theorem follows_callOrMember (h : L.Grammars g g') :
    L.Follows Eq (Rules.callOrMember g) (Rules.callOrMember g') :=
  h.member.bind fun callee => .branch (peeks_sees rfl) (h.call callee).inside (follows_pure callee)

theorem follows_call (h : L.Grammars g g') (callee : Node) :
    L.Follows Eq (Rules.call g callee) (Rules.call g' callee) :=
  h.arguments.bind fun _ => .branch (peeks_sees rfl) (h.call _).inside (follows_pure _)

theorem follows_access (h : L.Grammars g g') (owner : Node) :
    L.FollowsInside Eq (Rules.access g owner) (Rules.access g' owner) := by
  refine follows_advance.bind_token fun t t' ht => ?_
  rw [L.kind ht]
  split
  · exact h.expression.bind fun key => follows_expect_last (by decide) _
  · refine (follows_expect (by decide)).bind_token fun name name' hn => ?_
    rw [L.text hn]
    exact follows_pure _

theorem follows_member (h : L.Grammars g g') :
    L.Follows Eq (Rules.member g) (Rules.member g') :=
  h.primary.bind fun owner => follows_loop (peeks_sees rfl) (follows_access h)
    (Rules.moves_access h.moves) (Rules.moves_access h.moves') owner

end

end Lockstep

namespace Rules

def operand (g : Grammar) (kind : TokenKind) (text : String) : Parser Node :=
  match kind with
  | .identifier => advance >>= fun _ => pure (.identifier text)
  | .number => advance >>= fun _ =>
    match Numeral.read? text with
    | some value => pure (.number value)
    | none => throw (.malformedNumber text)
  | .string => advance >>= fun _ => pure (.string text)
  | .leftParen => advance >>= fun _ => g.expression >>= fun value =>
    expect .parenClose >>= fun _ => pure value
  | _ => reject .operand

theorem primary_eq (g : Grammar) :
    primary g = current >>= fun t => operand g t.kind t.text := by
  unfold primary
  refine bind_congr fun t => ?_
  cases h : t.kind <;> rfl

end Rules

namespace Lockstep

variable {L : Lockstep} {g g' : Grammar}

/-- What an operand is depends on its first token, which does not end the input. -/
theorem meets_operand {kind : TokenKind} (h : L.Grammars g g') (hc : L.cursors c c')
    (hk : c.current.kind = kind) (text : String) :
    L.Meets Eq (Rules.operand g kind text c) (Rules.operand g' kind text c') := by
  cases kind with
  | identifier | string => exact (follows_advance_last _).meets hc (hk ▸ nofun)
  | number =>
    refine (follows_advance.bind_token fun _ _ _ => ?_).meets hc (hk ▸ nofun)
    split
    · exact follows_pure _
    · exact follows_throw .malformedNumber
  | leftParen =>
    refine (follows_advance.bind_token fun _ _ _ => ?_).meets hc (hk ▸ nofun)
    exact h.expression.bind fun value => follows_expect_last (by decide) value
  | _ => exact (follows_reject _).meets hc trivial

theorem follows_primary (h : L.Grammars g g') :
    L.Follows Eq (Rules.primary g) (Rules.primary g') := by
  refine ⟨(Rules.moves_primary h.moves).weaken, fun {c c'} hc _ => ?_⟩
  have ht := L.current hc
  rw [Rules.primary_eq, Rules.primary_eq]
  show L.Meets Eq (Rules.operand g c.current.kind c.current.text c)
    (Rules.operand g' c'.current.kind c'.current.text c')
  rw [← L.kind ht, ← L.text ht]
  exact meets_operand h hc rfl _

theorem Grammars.next (h : L.Grammars g g') : L.Grammars g.next g'.next where
  moves := h.moves.next
  moves' := h.moves'.next
  program := (follows_manyUntil [] h.statement h.moves.statement h.moves'.statement).bind
    fun _ => follows_pure _
  statement := follows_statement h
  declaration := follows_declaration h
  function := follows_function h
  params := follows_parenthesized (by decide) (by decide) h.param h.moves.param h.moves'.param
  param := follows_param h
  expression := h.assignment
  assignment := follows_assignment h
  object := follows_object h
  sum := follows_chain _ h.product h.moves.product h.moves'.product
  product := follows_chain _ h.callOrMember h.moves.callOrMember h.moves'.callOrMember
  callOrMember := follows_callOrMember h
  call := follows_call h
  arguments := follows_parenthesized (by decide) (by decide) h.assignment h.moves.assignment
    h.moves'.assignment
  member := follows_member h
  primary := follows_primary h

theorem grammars_exhausted (h : g.Moves) : L.Grammars .exhausted g where
  moves := Grammar.moves_exhausted
  moves' := h
  program := follows_exhausted _
  statement := follows_exhausted _
  declaration := follows_exhausted _
  function := follows_exhausted _
  params := follows_exhausted _
  param := follows_exhausted _
  expression := follows_exhausted _
  assignment := follows_exhausted _
  object := follows_exhausted _
  sum := follows_exhausted _
  product := follows_exhausted _
  callOrMember := follows_exhausted _
  call _ := follows_exhausted _
  arguments := follows_exhausted _
  member := follows_exhausted _
  primary := follows_exhausted _

/-- A deeper stack of rules does the same from a cursor that goes along. -/
theorem grammars_ofDepth (L : Lockstep) (h : depth ≤ depth') :
    L.Grammars (.ofDepth depth) (.ofDepth depth') := by
  induction depth generalizing depth' with
  | zero => exact grammars_exhausted (Grammar.moves_ofDepth depth')
  | succ depth ih =>
    obtain ⟨depth', rfl⟩ := Nat.exists_eq_add_of_lt (Nat.lt_of_succ_le h)
    exact (ih (by omega)).next

def same : Lockstep where
  tokens := Eq
  cursors := Eq
  beyond _ := False
  total t := ⟨t, rfl⟩
  kind h := h ▸ rfl
  text h := h ▸ rfl
  current h := h ▸ rfl
  advance h _ := .inr (h ▸ rfl)
  past _ h := h

/-- Cursors that have some tokens in common, one at least, before they go on in different ways. -/
def sharing (rest rest' : List Token) : Lockstep where
  tokens := Eq
  cursors c c' := ∃ t front, c.pending = t :: (front ++ rest) ∧ c'.pending = t :: (front ++ rest') ∧
    c'.taken = c.taken ∧ c'.last = c.last
  beyond c := c.pending.length ≤ rest.length
  total t := ⟨t, rfl⟩
  kind h := h ▸ rfl
  text h := h ▸ rfl
  current := by
    rintro c c' ⟨t, front, hp, hp', -⟩
    rw [c.current_of_pending hp, c'.current_of_pending hp']
  advance := by
    rintro ⟨_, taken, last⟩ ⟨_, _, _⟩ ⟨t, front, rfl, rfl, rfl, rfl⟩ -
    cases front with
    | nil => exact .inl (Nat.le_refl _)
    | cons u front => exact .inr ⟨u, front, rfl, rfl, rfl, rfl⟩
  past h hb := Nat.le_trans h.length_add_le hb

theorem Errors.eq_of_tokens (ht : L.tokens = Eq) (h : L.Errors e e') : e = e' := by
  cases h with
  | unexpected h =>
    rw [ht] at h
    rw [h]
  | malformedNumber => rfl

theorem eq_of_meets_same {r r' : EStateM.Result ParseError Cursor α}
    (h : same.Meets Eq r r') (hr : ∀ c, r ≠ .error .tooDeep c) : r' = r := by
  cases r with
  | ok a c =>
    rcases h with h | ⟨_, _, hr', rfl, rfl⟩
    · exact h.elim
    · exact hr'
  | error e c =>
    rcases h with rfl | h | ⟨e', _, hr', he, rfl⟩
    · exact absurd rfl (hr c)
    · exact h.elim
    · exact he.eq_of_tokens rfl ▸ hr'

theorem parse_cases {tokens tokens' : List Token} (hb : ∀ c, ¬L.beyond c)
    (hc : L.cursors (.ofTokens tokens) (.ofTokens tokens')) (depth : Nat) :
    (Grammar.ofDepth depth).parse tokens = .error .tooDeep ∨
      (∃ node, (Grammar.ofDepth depth).parse tokens = .ok node ∧
        (Grammar.ofDepth depth).parse tokens' = .ok node) ∨
      ∃ e e', (Grammar.ofDepth depth).parse tokens = .error e ∧
        (Grammar.ofDepth depth).parse tokens' = .error e' ∧ L.Errors e e' := by
  have hm := (L.grammars_ofDepth (Nat.le_refl depth)).program.meets hc trivial
  unfold Grammar.parse
  cases hp : (Grammar.ofDepth depth).program (.ofTokens tokens) with
  | ok node c =>
    rw [hp] at hm
    rcases hm with hm | ⟨_, _, hp', rfl, -⟩
    · exact absurd hm (hb c)
    · rw [hp']
      exact .inr (.inl ⟨node, rfl, rfl⟩)
  | error e c =>
    rw [hp] at hm
    rcases hm with rfl | hm | ⟨e', _, hp', he, -⟩
    · exact .inl rfl
    · exact absurd hm (hb c)
    · rw [hp']
      exact .inr (.inr ⟨e, e', rfl, rfl, he⟩)

end Lockstep

namespace Grammar

/-- More depth changes nothing but an end for want of depth. -/
theorem program_ofDepth_le (h : depth ≤ depth') (c : Cursor) :
    (∃ c', (ofDepth depth).program c = .error .tooDeep c') ∨
      (ofDepth depth').program c = (ofDepth depth).program c := by
  have hm := (Lockstep.same.grammars_ofDepth h).program.meets (rfl : c = c) trivial
  by_cases hd : ∃ c', (ofDepth depth).program c = .error .tooDeep c'
  · exact .inl hd
  · exact .inr (Lockstep.eq_of_meets_same hm fun c' hc => hd ⟨c', hc⟩)

/-- What parsing fails with at a token does not depend on the tokens that come after. -/
theorem program_eq_error_of_sharing (h : depth ≤ depth') (he : e ≠ .tooDeep)
    (hp : (ofDepth depth).program (.ofTokens (front ++ t :: rest)) = .error e c)
    (hc : c.pending = t :: rest) (rest' : List Token) :
    ∃ c', (ofDepth depth').program (.ofTokens (front ++ t :: rest')) = .error e c' := by
  have hstart : (Lockstep.sharing rest rest').cursors (.ofTokens (front ++ t :: rest))
      (.ofTokens (front ++ t :: rest')) := by
    cases front with
    | nil => exact ⟨t, [], rfl, rfl, rfl, rfl⟩
    | cons u front =>
      refine ⟨u, front ++ [t], ?_, ?_, rfl, rfl⟩ <;> simp [Cursor.ofTokens]
  have hm := ((Lockstep.sharing rest rest').grammars_ofDepth h).program.meets hstart trivial
  rw [hp] at hm
  rcases hm with hm | hm | ⟨e', c', hp', hee, -⟩
  · exact absurd hm he
  · have hlength : c.pending.length ≤ rest.length := hm
    rw [hc, List.length_cons] at hlength
    omega
  · exact ⟨c', hee.eq_of_tokens rfl ▸ hp'⟩

end Grammar

end Ember
