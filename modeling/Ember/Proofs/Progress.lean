import Ember.Proofs.Outcome

/-!
Movement of the cursor. Parsers never step back, whether they return or fail, and every rule but the
outermost one takes a token at least if it returns.
-/

namespace Ember

set_option autoImplicit true

/-- Where the last of some tokens stands; the place itself if there are none. -/
def Position.past (p : Position) (tokens : List Token) : Position :=
  (tokens.getLast?.map (·.position)).getD p

theorem Position.past_append (p : Position) (front rest : List Token) :
    p.past (front ++ rest) = (p.past front).past rest := by
  rw [past, past, past, List.getLast?_append]
  cases rest.getLast? <;> rfl

/-- One cursor stands behind another one, by `n` tokens at least. -/
def Cursor.Past (n : Nat) (c c' : Cursor) : Prop :=
  ∃ front, n ≤ front.length ∧ c.pending = front ++ c'.pending ∧
    c'.taken = c.taken + front.length ∧ c'.last = c.last.past front

namespace Cursor

theorem Past.refl (c : Cursor) : c.Past 0 c := ⟨[], Nat.le_refl 0, rfl, rfl, rfl⟩

theorem Past.trans {c c₁ c₂ : Cursor} (h : c.Past m c₁) (h' : c₁.Past n c₂) :
    c.Past (m + n) c₂ := by
  obtain ⟨front, hl, hp, ht, hlast⟩ := h
  obtain ⟨front', hl', hp', ht', hlast'⟩ := h'
  refine ⟨front ++ front', ?_, ?_, ?_, ?_⟩
  · rw [List.length_append]
    omega
  · rw [hp, hp', List.append_assoc]
  · rw [ht', ht, List.length_append]
    omega
  · rw [hlast', hlast, Position.past_append]

theorem Past.mono {c c' : Cursor} (h : c.Past n c') (hm : m ≤ n) : c.Past m c' :=
  h.imp fun _ h => ⟨Nat.le_trans hm h.1, h.2⟩

theorem Past.length_add_le {c c' : Cursor} (h : c.Past n c') :
    c'.pending.length + n ≤ c.pending.length := by
  obtain ⟨front, hl, hp, -⟩ := h
  rw [hp, List.length_append]
  omega

theorem past_advance (c : Cursor) : c.Past 0 c.advance := by
  unfold advance
  split
  · exact .refl c
  · next t rest hp => exact ⟨[t], Nat.zero_le _, hp, rfl, rfl⟩

theorem past_advance_of_kind {c : Cursor} (h : c.current.kind ≠ .endOfInput) :
    c.Past 1 c.advance := by
  have hp := c.pending_eq_cons h
  refine ⟨[c.current], Nat.le_refl 1, hp, ?_, ?_⟩
  · rw [advance, hp]
    rfl
  · rw [advance, hp]
    rfl

end Cursor

namespace Parser

/-- From this cursor, the parser takes `n` tokens at least if it returns. If it fails, it has not
stepped back. -/
def MovesFrom (n : Nat) (c : Cursor) (p : Parser α) : Prop :=
  match p c with
  | .ok _ c' => c.Past n c'
  | .error _ c' => c.Past 0 c'

def Moves (n : Nat) (p : Parser α) : Prop := ∀ c, MovesFrom n c p

theorem MovesFrom.of_eq_ok {p : Parser α} (h : MovesFrom n c p) (hp : p c = .ok a c') :
    c.Past n c' := by
  rwa [MovesFrom, hp] at h

theorem MovesFrom.of_eq_error {p : Parser α} (h : MovesFrom n c p) (hp : p c = .error e c') :
    c.Past 0 c' := by
  rwa [MovesFrom, hp] at h

theorem MovesFrom.mono {p : Parser α} (h : MovesFrom n c p) (hm : m ≤ n) : MovesFrom m c p := by
  unfold MovesFrom at *
  split
  · next hp =>
    rw [hp] at h
    exact h.mono hm
  · next hp =>
    rw [hp] at h
    exact h

theorem Moves.mono {p : Parser α} (h : Moves n p) (hm : m ≤ n) : Moves m p :=
  fun c => (h c).mono hm

theorem Moves.weaken {p : Parser α} (h : Moves n p) : Moves 0 p := h.mono (Nat.zero_le n)

theorem MovesFrom.bind {p : Parser α} {f : α → Parser β} (hp : MovesFrom m c p)
    (hf : ∀ a, Moves n (f a)) : MovesFrom (m + n) c (p >>= f) := by
  unfold MovesFrom at *
  simp only [Bind.bind, EStateM.bind]
  cases hr : p c with
  | error e c₁ =>
    rw [hr] at hp
    exact hp
  | ok a c₁ =>
    rw [hr] at hp
    have hc := hf a c₁
    unfold MovesFrom at hc
    dsimp only
    split
    · next hq =>
      rw [hq] at hc
      exact hp.trans hc
    · next hq =>
      rw [hq] at hc
      exact (hp.trans hc).mono (Nat.zero_le _)

theorem MovesFrom.bind_left {p : Parser α} {f : α → Parser β} (hp : MovesFrom n c p)
    (hf : ∀ a, Moves 0 (f a)) : MovesFrom n c (p >>= f) := hp.bind hf

theorem Moves.bind_left {p : Parser α} {f : α → Parser β} (hp : Moves n p)
    (hf : ∀ a, Moves 0 (f a)) : Moves n (p >>= f) := fun c => (hp c).bind hf

theorem Moves.bind_right {p : Parser α} {f : α → Parser β} (hp : Moves 0 p)
    (hf : ∀ a, Moves n (f a)) : Moves n (p >>= f) := fun c => by
  have h := (hp c).bind hf
  rwa [Nat.zero_add] at h

theorem moves_pure (a : α) : Moves 0 (pure a) := fun c => .refl c

theorem moves_throw (e : ParseError) : Moves n (throw e : Parser α) := fun c => .refl c

theorem moves_current : Moves 0 current := fun c => .refl c

theorem movesFrom_current_bind {f : Token → Parser α} (h : MovesFrom n c (f c.current)) :
    MovesFrom n c (current >>= f) := h

theorem moves_get : Moves 0 (get : Parser Cursor) := fun c => .refl c

theorem moves_advance : Moves 0 advance := Cursor.past_advance

theorem movesFrom_advance (h : c.current.kind ≠ .endOfInput) : MovesFrom 1 c advance :=
  Cursor.past_advance_of_kind h

theorem moves_sees (kinds : List TokenKind) : Moves 0 (sees kinds) := fun c => .refl c

theorem moves_seesOperator (operators : List String) : Moves 0 (seesOperator operators) :=
  fun c => .refl c

theorem moves_reject (e : Expectation) : Moves n (reject e : Parser α) := fun c => .refl c

theorem moves_expect (he : e.kind? ≠ some .endOfInput) : Moves 1 (expect e) := by
  intro c
  by_cases hk : e.kind? = some c.current.kind
  · have h : expect e c = advance c := by
      show (if e.kind? = some c.current.kind then advance else reject e) c = _
      rw [if_pos hk]
    rw [MovesFrom, h]
    exact movesFrom_advance fun hend => he (hk.trans (congrArg some hend))
  · have h : expect e c = reject e c := by
      show (if e.kind? = some c.current.kind then advance else reject e) c = _
      rw [if_neg hk]
    rw [MovesFrom, h]
    exact .refl c

theorem Moves.ite [Decidable b] {p q : Parser α} (hp : Moves n p) (hq : Moves n q) :
    Moves n (if b then p else q) := by
  split
  · exact hp
  · exact hq

theorem moves_iterate {test : Parser Bool} {step : α → Parser α} (ht : Moves 0 test)
    (hs : ∀ a, Moves 0 (step a)) (fuel : List Token) (a : α) :
    Moves 0 (iterate test step fuel a) := by
  induction fuel generalizing a with
  | nil => exact moves_pure a
  | cons _ fuel ih => exact ht.bind_left fun _ => .ite ((hs a).bind_left ih) (moves_pure a)

theorem moves_loop {test : Parser Bool} {step : α → Parser α} (ht : Moves 0 test)
    (hs : ∀ a, Moves 0 (step a)) (a : α) : Moves 0 (loop test step a) :=
  moves_get.bind_left fun _ => moves_iterate ht hs _ a

theorem moves_collect {test : Parser Bool} {item : Parser α} (ht : Moves 0 test)
    (hi : Moves 0 item) (fuel : List Token) : Moves 0 (collect test item fuel) := by
  induction fuel with
  | nil => exact moves_pure []
  | cons _ fuel ih =>
    refine ht.bind_left fun _ => .ite ?_ (moves_pure [])
    exact hi.bind_left fun _ => ih.bind_left fun _ => moves_pure _

theorem moves_many {test : Parser Bool} {item : Parser α} (ht : Moves 0 test)
    (hi : Moves 0 item) : Moves 0 (many test item) :=
  moves_get.bind_left fun _ => moves_collect ht hi _

theorem moves_manyUntil (kinds : List TokenKind) {item : Parser α} (hi : Moves 0 item) :
    Moves 0 (manyUntil kinds item) :=
  moves_many ((moves_sees _).bind_left fun _ => moves_pure _) hi

theorem moves_parenthesized {opening closing : Expectation} {item : Parser α}
    (ho : opening.kind? ≠ some .endOfInput) (hc : closing.kind? ≠ some .endOfInput)
    (hi : Moves 0 item) : Moves 1 (parenthesized opening closing item) := by
  have hclosing : Moves 0 (expect closing) := (moves_expect hc).weaken
  refine (moves_expect ho).bind_left fun _ => (moves_sees _).bind_left fun _ => .ite ?_ ?_
  · exact hclosing.bind_left fun _ => moves_pure _
  · refine hi.bind_left fun _ => .bind_left ?_ fun _ => hclosing.bind_left fun _ => moves_pure _
    exact moves_many (moves_sees _) (moves_advance.bind_left fun _ => hi)

end Parser

open Ember.Parser

structure Grammar.Moves (g : Grammar) : Prop where
  program : g.program.Moves 0
  statement : g.statement.Moves 1
  declaration : g.declaration.Moves 1
  function : g.function.Moves 1
  params : g.params.Moves 1
  param : g.param.Moves 1
  expression : g.expression.Moves 1
  assignment : g.assignment.Moves 1
  object : g.object.Moves 1
  sum : g.sum.Moves 1
  product : g.product.Moves 1
  callOrMember : g.callOrMember.Moves 1
  call : ∀ callee, (g.call callee).Moves 1
  arguments : g.arguments.Moves 1
  member : g.member.Moves 1
  primary : g.primary.Moves 1

namespace Rules

variable {g : Grammar}

theorem moves_statement (h : g.Moves) : (statement g).Moves 1 :=
  (moves_sees _).bind_right fun _ => .ite h.declaration <|
    (moves_sees _).bind_right fun _ => .ite h.function h.expression

theorem moves_declaration (h : g.Moves) : (declaration g).Moves 1 := by
  refine moves_advance.bind_right fun _ => (moves_expect (by decide)).bind_left fun _ => ?_
  refine (moves_sees _).bind_left fun _ => .ite (.ite (moves_reject _) ?_) ?_
  · exact moves_advance.bind_left fun _ => moves_pure _
  · refine (moves_expect (by decide)).weaken.bind_left fun _ => ?_
    refine h.expression.weaken.bind_left fun _ => ?_
    exact (moves_expect (by decide)).weaken.bind_left fun _ => moves_pure _

theorem moves_function (h : g.Moves) : (function g).Moves 1 := by
  refine moves_advance.bind_right fun _ => (moves_expect (by decide)).bind_left fun _ => ?_
  refine (moves_sees _).bind_left fun _ => .ite ?_ (moves_reject _)
  refine h.params.weaken.bind_left fun _ => ?_
  refine (moves_expect (by decide)).weaken.bind_left fun _ => ?_
  refine (moves_manyUntil _ h.statement.weaken).bind_left fun _ => ?_
  exact (moves_expect (by decide)).weaken.bind_left fun _ => moves_pure _

theorem moves_param (h : g.Moves) : (param g).Moves 1 := by
  refine moves_current.bind_right fun _ => h.assignment.bind_left fun n => ?_
  cases n with
  | identifier name => exact moves_pure name
  | _ => exact moves_throw _

theorem moves_assignment (h : g.Moves) : (assignment g).Moves 1 := by
  refine h.object.bind_left fun _ => (moves_sees _).bind_left fun _ => .ite ?_ (moves_pure _)
  refine moves_advance.bind_left fun _ => h.assignment.weaken.bind_left fun _ => ?_
  exact (moves_expect (by decide)).weaken.bind_left fun _ => moves_pure _

theorem moves_property (h : g.Moves) : (property g).Moves 1 := by
  refine (moves_expect (by decide)).bind_left fun _ => (moves_sees _).bind_left fun _ => .ite ?_ ?_
  · exact moves_advance.bind_left fun _ => moves_pure _
  · refine (moves_sees _).bind_left fun _ => .ite (moves_pure _) ?_
    refine (moves_expect (by decide)).weaken.bind_left fun _ => ?_
    refine h.expression.weaken.bind_left fun _ => ?_
    refine (moves_sees _).bind_left fun _ => .ite (moves_pure _) ?_
    exact (moves_expect (by decide)).weaken.bind_left fun _ => moves_pure _

theorem moves_object (h : g.Moves) : (object g).Moves 1 := by
  refine (moves_sees _).bind_right fun _ => .ite ?_ h.sum
  -- The brace that closes the object is enough.
  refine moves_advance.bind_right fun _ => ?_
  refine (moves_manyUntil _ (moves_property h).weaken).bind_right fun _ => ?_
  exact (moves_expect (by decide)).bind_left fun _ => moves_pure _

theorem moves_chain {operand : Parser Node} (ho : operand.Moves 1) (operators : List String) :
    (chain operators operand).Moves 1 := by
  refine ho.bind_left fun _ => moves_loop (moves_seesOperator _) (fun _ => ?_) _
  exact moves_advance.bind_left fun _ => ho.weaken.bind_left fun _ => moves_pure _

theorem moves_callOrMember (h : g.Moves) : (callOrMember g).Moves 1 :=
  h.member.bind_left fun _ => (moves_sees _).bind_left fun _ =>
    .ite (h.call _).weaken (moves_pure _)

theorem moves_call (h : g.Moves) (callee : Node) : (call g callee).Moves 1 :=
  h.arguments.bind_left fun _ => (moves_sees _).bind_left fun _ =>
    .ite (h.call _).weaken (moves_pure _)

theorem moves_access (h : g.Moves) (owner : Node) : (access g owner).Moves 1 := by
  refine moves_advance.bind_right fun _ => .ite ?_ ?_
  · refine h.expression.bind_left fun _ => ?_
    exact (moves_expect (by decide)).weaken.bind_left fun _ => moves_pure _
  · exact (moves_expect (by decide)).bind_left fun _ => moves_pure _

theorem moves_member (h : g.Moves) : (member g).Moves 1 :=
  h.primary.bind_left fun owner =>
    moves_loop (moves_sees _) (fun _ => (moves_access h _).weaken) owner

theorem moves_primary (h : g.Moves) : (primary g).Moves 1 := by
  intro c
  have hadvance {kind : TokenKind} (hk : c.current.kind = kind) (hne : kind ≠ .endOfInput)
      {next : Token → Parser Node} (hn : ∀ t, (next t).Moves 0) :
      MovesFrom 1 c (advance >>= next) :=
    (movesFrom_advance (hk ▸ hne)).bind_left hn
  refine movesFrom_current_bind ?_
  split
  · next hk => exact hadvance hk nofun fun _ => moves_pure _
  · next hk =>
    refine hadvance hk nofun fun _ => ?_
    split
    · exact moves_pure _
    · exact moves_throw _
  · next hk => exact hadvance hk nofun fun _ => moves_pure _
  · next hk =>
    refine hadvance hk nofun fun _ => h.expression.weaken.bind_left fun _ => ?_
    exact (moves_expect (by decide)).weaken.bind_left fun _ => moves_pure _
  · exact moves_reject _ c

end Rules

namespace Grammar

theorem Moves.next {g : Grammar} (h : g.Moves) : g.next.Moves where
  program := (moves_manyUntil _ h.statement.weaken).bind_left fun _ => moves_pure _
  statement := Rules.moves_statement h
  declaration := Rules.moves_declaration h
  function := Rules.moves_function h
  params := moves_parenthesized (by decide) (by decide) h.param.weaken
  param := Rules.moves_param h
  expression := h.assignment
  assignment := Rules.moves_assignment h
  object := Rules.moves_object h
  sum := Rules.moves_chain h.product _
  product := Rules.moves_chain h.callOrMember _
  callOrMember := Rules.moves_callOrMember h
  call := Rules.moves_call h
  arguments := moves_parenthesized (by decide) (by decide) h.assignment.weaken
  member := Rules.moves_member h
  primary := Rules.moves_primary h

theorem moves_exhausted : exhausted.Moves where
  program := moves_throw _
  statement := moves_throw _
  declaration := moves_throw _
  function := moves_throw _
  params := moves_throw _
  param := moves_throw _
  expression := moves_throw _
  assignment := moves_throw _
  object := moves_throw _
  sum := moves_throw _
  product := moves_throw _
  callOrMember := moves_throw _
  call _ := moves_throw _
  arguments := moves_throw _
  member := moves_throw _
  primary := moves_throw _

theorem moves_ofDepth (depth : Nat) : (ofDepth depth).Moves := by
  induction depth with
  | zero => exact moves_exhausted
  | succ depth ih => exact ih.next

end Grammar

end Ember
