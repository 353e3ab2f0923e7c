import Ember.Grammar.Rules

/-!
Outcomes of parsers, as weakest preconditions: `p.Ensures c post fails` says what holds after `p`
has run from the cursor `c`, whether it returns or fails. Each operation of parsers has one lemma here,
and the rules of the grammar are taken apart with these only.
-/

namespace Ember

set_option autoImplicit true

namespace Parser

variable {c : Cursor} {fails : ParseError → Prop}

/-- If the parser returns, then `post` holds of its result and of the cursor after it; if it fails,
then `fails` holds of the error. -/
def Ensures (p : Parser α) (c : Cursor) (post : α → Cursor → Prop) (fails : ParseError → Prop) :
    Prop :=
  match p c with
  | .ok a c' => post a c'
  | .error e _ => fails e

theorem Ensures.mono (h : Ensures p c post fails) (hpost : ∀ a c', post a c' → post' a c')
    (hfails : ∀ e, fails e → fails' e) : Ensures p c post' fails' := by
  unfold Ensures at *
  split
  · next hp =>
    rw [hp] at h
    exact hpost _ _ h
  · next hp =>
    rw [hp] at h
    exact hfails _ h

theorem ensures_pure {post : α → Cursor → Prop} :
    Ensures (pure a) c post fails ↔ post a c := .rfl

theorem ensures_bind {p : Parser α} {f : α → Parser β} {post : β → Cursor → Prop} :
    Ensures (p >>= f) c post fails ↔
      Ensures p c (fun a c' => Ensures (f a) c' post fails) fails := by
  unfold Ensures
  simp only [bind, EStateM.bind]
  cases p c <;> rfl

theorem ensures_throw {post : α → Cursor → Prop} :
    Ensures (throw e) c post fails ↔ fails e := .rfl

theorem ensures_current {post : Token → Cursor → Prop} :
    Ensures current c post fails ↔ post c.current c := .rfl

theorem ensures_advance {post : Token → Cursor → Prop} :
    Ensures advance c post fails ↔ post c.current c.advance := .rfl

theorem ensures_get {post : Cursor → Cursor → Prop} :
    Ensures get c post fails ↔ post c c := .rfl

theorem ensures_sees {post : Bool → Cursor → Prop} :
    Ensures (sees kinds) c post fails ↔ post (kinds.contains c.current.kind) c := .rfl

theorem ensures_seesOperator {post : Bool → Cursor → Prop} :
    Ensures (seesOperator operators) c post fails ↔
      post (c.current.kind == .operator && operators.contains c.current.text) c := .rfl

theorem ensures_reject {post : α → Cursor → Prop} :
    Ensures (reject e) c post fails ↔ fails (.unexpected e c.current) := .rfl

theorem ensures_expect {post : Token → Cursor → Prop} :
    Ensures (expect e) c post fails ↔
      if e.kind? = some c.current.kind then post c.current c.advance
      else fails (.unexpected e c.current) := by
  unfold expect
  rw [ensures_bind, ensures_current]
  split <;> rfl

theorem ensures_expect_of_kind {post : Token → Cursor → Prop} (he : e.kind? = some k)
    (hpost : c.current.kind = k → post c.current c.advance)
    (hfails : fails (.unexpected e c.current)) : Ensures (expect e) c post fails := by
  rw [ensures_expect, he]
  split
  · next h => exact hpost (Option.some.inj h).symm
  · exact hfails

theorem ensures_ite {p q : Parser α} {post : α → Cursor → Prop} [Decidable b] :
    Ensures (if b then p else q) c post fails ↔
      if b then Ensures p c post fails else Ensures q c post fails := by
  split <;> rfl

end Parser

namespace Cursor

variable {c : Cursor}

@[simp] theorem current_of_pending (h : c.pending = t :: rest) : c.current = t := by
  simp [current, h]

@[simp] theorem pending_advance (c : Cursor) : c.advance.pending = c.pending.tail := by
  unfold advance
  split <;> simp_all

theorem pending_eq_cons (h : c.current.kind ≠ .endOfInput) :
    c.pending = c.current :: c.advance.pending := by
  rw [pending_advance]
  cases hp : c.pending with
  | nil => simp [current, hp, Token.endOfInput] at h
  | cons t rest => rw [current_of_pending hp, List.tail_cons]

end Cursor

theorem Grammar.parse_cases {g : Grammar}
    (h : g.program.Ensures (.ofTokens tokens) post fails) :
    (∃ m c, g.parse tokens = .ok m ∧ post m c) ∨ ∃ e, g.parse tokens = .error e ∧ fails e := by
  unfold Parser.Ensures at h
  unfold parse
  split at h
  · next hp => exact .inl ⟨_, _, by rw [hp], h⟩
  · next hp => exact .inr ⟨_, by rw [hp], h⟩

end Ember
