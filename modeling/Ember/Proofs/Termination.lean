import Ember.Proofs.Lockstep

/-!
Parsing comes to an end. Rules that call each other before they take a token stand in a fixed order,
so ten levels for each pending token, and some more for the rule itself, are deep enough for any
input; and a loop is over where its test fails, not where its rounds are used up.
-/

namespace Ember

set_option autoImplicit true

namespace Parser

/-- From a start with at most `n` tokens pending, the parser does not run out of depth. -/
def LastsFrom (start : Cursor → Prop) (n : Nat) (p : Parser α) : Prop :=
  ∀ c, start c → c.pending.length ≤ n → ∀ c', p c ≠ .error .tooDeep c'

abbrev Lasts (n : Nat) (p : Parser α) : Prop := LastsFrom (fun _ => True) n p

abbrev LastsInside (n : Nat) (p : Parser α) : Prop :=
  LastsFrom (fun c => c.current.kind ≠ .endOfInput) n p

section

variable {start : Cursor → Prop} {n k : Nat}

theorem LastsFrom.mono {p : Parser α} (h : LastsFrom start n p) (hk : k ≤ n) :
    LastsFrom start k p :=
  fun c hs hl => h c hs (Nat.le_trans hl hk)

theorem Lasts.inside {p : Parser α} (h : Lasts n p) : LastsInside n p := fun c _ => h c trivial

/-- What follows a step has as many tokens fewer as the step takes at least. -/
theorem LastsFrom.bind_moves {p : Parser α} {f : α → Parser β} (hp : LastsFrom start n p)
    (hm : ∀ c, start c → p.MovesFrom m c) (hf : ∀ a k, k + m ≤ n → Lasts k (f a)) :
    LastsFrom start n (p >>= f) := by
  intro c hs hl c' h
  simp only [Bind.bind, EStateM.bind] at h
  cases hr : p c with
  | error e c₁ =>
    rw [hr] at h
    cases h
    exact hp c hs hl c' hr
  | ok a c₁ =>
    rw [hr] at h
    have hlength := ((hm c hs).of_eq_ok hr).length_add_le
    exact hf a c₁.pending.length (by omega) c₁ trivial (Nat.le_refl _) c' h

theorem LastsFrom.bind {p : Parser α} {f : α → Parser β} (hp : LastsFrom start n p)
    (hm : p.Moves 0) (hf : ∀ a, Lasts n (f a)) : LastsFrom start n (p >>= f) :=
  hp.bind_moves (fun c _ => hm c) fun a _ hk => (hf a).mono hk

theorem LastsFrom.bind_taken {p : Parser α} {f : α → Parser β} (hp : LastsFrom start n p)
    (hm : p.Moves 1) (hf : ∀ a, ∀ k < n, Lasts k (f a)) : LastsFrom start n (p >>= f) :=
  hp.bind_moves (fun c _ => hm c) fun a k hk => hf a k hk

theorem lasts_pure (a : α) : Lasts n (pure a) := fun _ _ _ _ h => nomatch h

theorem lasts_throw (he : e ≠ .tooDeep) : Lasts n (throw e : Parser α) := by
  intro c _ _ c' h
  cases h
  exact he rfl

theorem lasts_current : Lasts n current := fun _ _ _ _ h => nomatch h

theorem lasts_advance : Lasts n advance := fun _ _ _ _ h => nomatch h

theorem lasts_reject (e : Expectation) : Lasts n (reject e : Parser α) := fun _ _ _ _ h => nomatch h

theorem lasts_expect (e : Expectation) : Lasts n (expect e) := by
  intro c _ hl c' h
  replace h : (if e.kind? = some c.current.kind then advance else reject e) c =
      .error .tooDeep c' := h
  split at h
  · exact lasts_advance c trivial hl c' h
  · exact lasts_reject e c trivial hl c' h

theorem lasts_advance_bind {f : Token → Parser β} (hf : ∀ t, ∀ k < n, Lasts k (f t)) :
    LastsInside n (advance >>= f) :=
  lasts_advance.inside.bind_moves (fun _ hs => movesFrom_advance hs) fun t k hk => hf t k hk

theorem lasts_expect_bind {f : Token → Parser β} (he : e.kind? ≠ some .endOfInput)
    (hf : ∀ t, ∀ k < n, Lasts k (f t)) : Lasts n (expect e >>= f) :=
  (lasts_expect e).bind_taken (moves_expect he) hf

theorem lasts_expect_last (he : e.kind? ≠ some .endOfInput) (a : α) :
    Lasts n (expect e >>= fun _ => pure a) :=
  lasts_expect_bind he fun _ _ _ => lasts_pure a

theorem lasts_advance_last (a : α) : LastsInside n (advance >>= fun _ => pure a) :=
  lasts_advance_bind fun _ _ _ => lasts_pure a

end

section

variable {test : Parser Bool} {n : Nat}

theorem Lasts.branch {p q : Parser α} (ht : Peeks test) (hp : LastsInside n p) (hq : Lasts n q) :
    Lasts n (test >>= fun b => if b then p else q) := by
  obtain ⟨test, rfl, ht⟩ := ht
  intro c _ hl c' h
  replace h : (if test c.current.kind c.current.text then p else q) c = .error .tooDeep c' := h
  split at h
  · next htest => exact hp c (Lockstep.inside_of_test ht htest) hl c' h
  · exact hq c trivial hl c' h

theorem lasts_iterate {step : α → Parser α} (ht : Peeks test) (hs : ∀ a, LastsInside n (step a))
    (hm : ∀ a, (step a).Moves 1) (fuel : List Token) (a : α) :
    Lasts n (iterate test step fuel a) := by
  induction fuel generalizing n a with
  | nil => exact lasts_pure a
  | cons _ fuel ih =>
    refine .branch ht ((hs a).bind_taken (hm a) fun b k hk => ?_) (lasts_pure a)
    exact ih (fun b => (hs b).mono (Nat.le_of_lt hk)) b

theorem lasts_loop {step : α → Parser α} (ht : Peeks test) (hs : ∀ a, LastsInside n (step a))
    (hm : ∀ a, (step a).Moves 1) (a : α) : Lasts n (loop test step a) :=
  fun c => lasts_iterate ht hs hm c.pending a c

theorem lasts_collect {item : Parser α} (ht : Peeks test) (hi : LastsInside n item)
    (hm : item.Moves 1) (fuel : List Token) : Lasts n (collect test item fuel) := by
  induction fuel generalizing n with
  | nil => exact lasts_pure []
  | cons _ fuel ih =>
    refine .branch ht (hi.bind_taken hm fun first k hk => ?_) (lasts_pure [])
    refine (ih (hi.mono (Nat.le_of_lt hk))).bind ?_ fun rest => lasts_pure _
    obtain ⟨test, rfl, -⟩ := ht
    exact moves_collect (moves_peek test) hm.weaken fuel

theorem lasts_many {item : Parser α} (ht : Peeks test) (hi : LastsInside n item)
    (hm : item.Moves 1) : Lasts n (many test item) :=
  fun c => lasts_collect ht hi hm c.pending c

end

section

variable {n : Nat}

theorem lasts_manyUntil (kinds : List TokenKind) {item : Parser α} (hi : Lasts n item)
    (hm : item.Moves 1) : Lasts n (manyUntil kinds item) :=
  lasts_many (peeks_not_sees kinds) hi.inside hm

theorem lasts_parenthesized {opening closing : Expectation} {item : Parser α}
    (ho : opening.kind? ≠ some .endOfInput) (hc : closing.kind? ≠ some .endOfInput)
    (hi : ∀ k < n, Lasts k item) (hm : item.Moves 1) :
    Lasts n (parenthesized opening closing item) := by
  refine lasts_expect_bind ho fun _ k hk => .branch (peeks_sees rfl) ?_ ?_
  · exact (lasts_expect_last hc _).inside
  · refine (hi k hk).bind hm.weaken fun first => .bind ?_ ?_ fun _ => lasts_expect_last hc _
    · refine lasts_many (peeks_sees rfl) ?_ (moves_advance.bind_right fun _ => hm)
      exact lasts_advance_bind fun _ j hj => hi j (Nat.lt_trans hj hk)
    · exact moves_many (moves_sees _) (moves_advance.bind_right fun _ => hm.weaken)

end

section

variable {test : TokenKind → String → Bool} {c c' : Cursor}
  (ht : ∀ text, test .endOfInput text = false)

include ht

theorem collect_stops {item : Parser α} (hm : item.Moves 1) {fuel : List Token}
    (hl : c.pending.length ≤ fuel.length) (h : collect (peek test) item fuel c = .ok items c') :
    test c'.current.kind c'.current.text = false := by
  induction fuel generalizing items c with
  | nil =>
    cases h
    have hp : c'.pending = [] := List.eq_nil_of_length_eq_zero (Nat.le_zero.1 hl)
    simpa [Cursor.current, hp, Token.endOfInput] using ht _
  | cons t fuel ih =>
    cases htest : test c.current.kind c.current.text with
    | false =>
      rw [collect_of_not htest] at h
      cases h
      exact htest
    | true =>
      rw [collect_cons htest] at h
      simp only [Bind.bind, EStateM.bind] at h
      cases hr : item c with
      | error e c₁ =>
        rw [hr] at h
        cases h
      | ok first c₁ =>
        rw [hr] at h
        have hlength := ((hm c).of_eq_ok hr).length_add_le
        rw [List.length_cons] at hl
        dsimp only at h
        cases hrest : collect (peek test) item fuel c₁ with
        | error e c₂ =>
          rw [hrest] at h
          cases h
        | ok rest c₂ =>
          rw [hrest] at h
          cases h
          exact ih (by omega) hrest

end

theorem many_stops {test : Parser Bool} {item : Parser α} (ht : Peeks test) (hm : item.Moves 1)
    (h : many test item c = .ok items c') : test c' = .ok false c' := by
  obtain ⟨test, rfl, ht⟩ := ht
  have hstop := collect_stops ht hm (Nat.le_refl _) h
  show EStateM.Result.ok (test c'.current.kind c'.current.text) c' = _
  rw [hstop]

end Parser

open Ember.Parser

/-- A grammar whose rules do not run out of depth: each needs ten levels for each pending token, and
its own place in the order in which rules call each other. -/
structure Grammar.Lasting (g : Grammar) (depth : Nat) : Prop where
  program : 10 * n + 10 ≤ depth → g.program.Lasts n
  statement : 10 * n + 9 ≤ depth → g.statement.Lasts n
  declaration : 10 * n + 1 ≤ depth → g.declaration.LastsInside n
  function : 10 * n + 1 ≤ depth → g.function.LastsInside n
  params : 10 * n + 1 ≤ depth → g.params.Lasts n
  param : 10 * n + 8 ≤ depth → g.param.Lasts n
  expression : 10 * n + 8 ≤ depth → g.expression.Lasts n
  assignment : 10 * n + 7 ≤ depth → g.assignment.Lasts n
  object : 10 * n + 6 ≤ depth → g.object.Lasts n
  sum : 10 * n + 5 ≤ depth → g.sum.Lasts n
  product : 10 * n + 4 ≤ depth → g.product.Lasts n
  callOrMember : 10 * n + 3 ≤ depth → g.callOrMember.Lasts n
  call : 10 * n + 2 ≤ depth → ∀ callee, (g.call callee).Lasts n
  arguments : 10 * n + 1 ≤ depth → g.arguments.Lasts n
  member : 10 * n + 2 ≤ depth → g.member.Lasts n
  primary : 10 * n + 1 ≤ depth → g.primary.Lasts n

namespace Rules

variable {g : Grammar} {depth n : Nat}

theorem lasts_statement (h : g.Lasting depth) (hd : 10 * n + 9 ≤ depth + 1) :
    (statement g).Lasts n :=
  .branch (peeks_sees rfl) (h.declaration (by omega)) <|
    .branch (peeks_sees rfl) (h.function (by omega)) (h.expression (by omega))

theorem lasts_declaration (h : g.Lasting depth) (hm : g.Moves) (hd : 10 * n + 1 ≤ depth + 1) :
    (declaration g).LastsInside n := by
  refine lasts_advance_bind fun _ k hk => lasts_expect_bind (by decide) fun _ j hj => ?_
  refine .branch (peeks_sees rfl) ?_ (lasts_expect_bind (by decide) fun _ i hi => ?_)
  · split
    · exact (lasts_reject _).inside
    · exact lasts_advance_last _
  · refine (h.expression (by omega)).bind hm.expression.weaken fun _ => ?_
    exact lasts_expect_last (by decide) _

theorem lasts_function (h : g.Lasting depth) (hm : g.Moves) (hd : 10 * n + 1 ≤ depth + 1) :
    (function g).LastsInside n := by
  refine lasts_advance_bind fun _ k hk => lasts_expect_bind (by decide) fun _ j hj => ?_
  refine .branch (peeks_sees rfl) ?_ (lasts_reject _)
  refine Lasts.inside ((h.params (by omega)).bind hm.params.weaken fun _ => ?_)
  refine lasts_expect_bind (by decide) fun _ i hi => .bind ?_ ?_ fun _ => ?_
  · exact lasts_manyUntil _ (h.statement (by omega)) hm.statement
  · exact moves_manyUntil _ hm.statement.weaken
  · exact lasts_expect_last (by decide) _

theorem lasts_param (h : g.Lasting depth) (hm : g.Moves) (hd : 10 * n + 8 ≤ depth + 1) :
    (param g).Lasts n := by
  refine lasts_current.bind moves_current fun _ => ?_
  refine (h.assignment (by omega)).bind hm.assignment.weaken fun found => ?_
  cases found with
  | identifier name => exact lasts_pure name
  | _ => exact lasts_throw nofun

theorem lasts_assignment (h : g.Lasting depth) (hm : g.Moves) (hd : 10 * n + 7 ≤ depth + 1) :
    (assignment g).Lasts n := by
  refine (h.object (by omega)).bind hm.object.weaken fun left => ?_
  refine .branch (peeks_sees rfl) (lasts_advance_bind fun _ k hk => ?_) (lasts_pure left)
  refine (h.assignment (by omega)).bind hm.assignment.weaken fun value => ?_
  exact lasts_expect_last (by decide) _

theorem lasts_property (h : g.Lasting depth) (hm : g.Moves) (hd : 10 * n + 8 ≤ depth) :
    (property g).Lasts n := by
  refine lasts_expect_bind (by decide) fun _ k hk => ?_
  refine .branch (peeks_sees rfl) (lasts_advance_last _) ?_
  refine .branch (peeks_sees rfl) (lasts_pure _).inside ?_
  refine lasts_expect_bind (by decide) fun _ j hj => ?_
  refine (h.expression (by omega)).bind hm.expression.weaken fun value => ?_
  exact .branch (peeks_sees rfl) (lasts_pure _).inside (lasts_expect_last (by decide) _)

theorem lasts_object (h : g.Lasting depth) (hm : g.Moves) (hd : 10 * n + 6 ≤ depth + 1) :
    (object g).Lasts n := by
  refine .branch (peeks_sees rfl) (lasts_advance_bind fun _ k hk => ?_) (h.sum (by omega))
  refine .bind ?_ ?_ fun _ => lasts_expect_last (by decide) _
  · exact lasts_manyUntil _ (lasts_property h hm (by omega)) (moves_property hm)
  · exact moves_manyUntil _ (moves_property hm).weaken

theorem lasts_chain (operators : List String) {operand : Parser Node} (ho : operand.Lasts n)
    (hm : operand.Moves 1) : (chain operators operand).Lasts n := by
  refine ho.bind hm.weaken fun first => lasts_loop (peeks_seesOperator _) (fun left => ?_) ?_ first
  · refine lasts_advance_bind fun _ k hk => ?_
    exact (ho.mono (Nat.le_of_lt hk)).bind hm.weaken fun right => lasts_pure _
  · exact fun _ => moves_advance.bind_right fun _ => hm.bind_left fun _ => moves_pure _

theorem lasts_callOrMember (h : g.Lasting depth) (hm : g.Moves) (hd : 10 * n + 3 ≤ depth + 1) :
    (callOrMember g).Lasts n :=
  (h.member (by omega)).bind hm.member.weaken fun callee =>
    .branch (peeks_sees rfl) (h.call (by omega) callee).inside (lasts_pure callee)

theorem lasts_call (h : g.Lasting depth) (hm : g.Moves) (hd : 10 * n + 2 ≤ depth + 1)
    (callee : Node) : (call g callee).Lasts n :=
  (h.arguments (by omega)).bind_taken hm.arguments fun _ k hk =>
    .branch (peeks_sees rfl) (h.call (by omega) _).inside (lasts_pure _)

theorem lasts_access (h : g.Lasting depth) (hm : g.Moves) (hd : 10 * n ≤ depth + 2)
    (owner : Node) : (access g owner).LastsInside n := by
  refine lasts_advance_bind fun t k hk => ?_
  split
  · refine (h.expression (by omega)).bind hm.expression.weaken fun key => ?_
    exact lasts_expect_last (by decide) _
  · exact lasts_expect_bind (by decide) fun name _ _ => lasts_pure _

theorem lasts_member (h : g.Lasting depth) (hm : g.Moves) (hd : 10 * n + 2 ≤ depth + 1) :
    (member g).Lasts n :=
  (h.primary (by omega)).bind hm.primary.weaken fun owner =>
    lasts_loop (peeks_sees rfl) (lasts_access h hm (by omega)) (moves_access hm) owner

theorem lasts_operand (h : g.Lasting depth) (hm : g.Moves) (hd : 10 * n + 1 ≤ depth + 1)
    (hk : c.current.kind = kind) (hl : c.pending.length ≤ n) (text : String) :
    ∀ c', operand g kind text c ≠ .error .tooDeep c' := by
  have hinside (hne : kind ≠ .endOfInput) : c.current.kind ≠ .endOfInput := hk ▸ hne
  cases kind with
  | identifier | string => exact lasts_advance_last _ c (hinside nofun) hl
  | number =>
    refine lasts_advance_bind (fun _ _ _ => ?_) c (hinside nofun) hl
    split
    · exact lasts_pure _
    · exact lasts_throw nofun
  | leftParen =>
    refine lasts_advance_bind (fun _ k hk => ?_) c (hinside nofun) hl
    refine (h.expression (by omega)).bind hm.expression.weaken fun value => ?_
    exact lasts_expect_last (by decide) value
  | _ => exact lasts_reject _ c trivial hl

theorem lasts_primary (h : g.Lasting depth) (hm : g.Moves) (hd : 10 * n + 1 ≤ depth + 1) :
    (primary g).Lasts n := by
  rw [primary_eq]
  exact fun c _ hl => lasts_operand h hm hd rfl hl c.current.text

end Rules

namespace Grammar

theorem Lasting.next {g : Grammar} (h : g.Lasting depth) (hm : g.Moves) :
    g.next.Lasting (depth + 1) where
  program hd := (lasts_manyUntil [] (h.statement (by omega)) hm.statement).bind
    (moves_manyUntil [] hm.statement.weaken) fun _ => lasts_pure _
  statement := Rules.lasts_statement h
  declaration := Rules.lasts_declaration h hm
  function := Rules.lasts_function h hm
  params hd := lasts_parenthesized (by decide) (by decide) (fun k hk => h.param (by omega)) hm.param
  param := Rules.lasts_param h hm
  expression hd := h.assignment (by omega)
  assignment := Rules.lasts_assignment h hm
  object := Rules.lasts_object h hm
  sum hd := Rules.lasts_chain _ (h.product (by omega)) hm.product
  product hd := Rules.lasts_chain _ (h.callOrMember (by omega)) hm.callOrMember
  callOrMember := Rules.lasts_callOrMember h hm
  call := Rules.lasts_call h hm
  arguments hd := lasts_parenthesized (by decide) (by decide)
    (fun k hk => h.assignment (by omega)) hm.assignment
  member := Rules.lasts_member h hm
  primary := Rules.lasts_primary h hm

theorem lasting_exhausted : exhausted.Lasting 0 := by
  constructor <;> intros <;> omega

theorem lasting_ofDepth (depth : Nat) : (ofDepth depth).Lasting depth := by
  induction depth with
  | zero => exact lasting_exhausted
  | succ depth ih => exact ih.next (moves_ofDepth depth)

/-- Ten levels for each token, and ten more, are deep enough. -/
theorem program_ne_tooDeep (c : Cursor) (hd : 10 * c.pending.length + 10 ≤ depth) (c' : Cursor) :
    (ofDepth depth).program c ≠ .error .tooDeep c' :=
  (lasting_ofDepth depth).program hd c trivial (Nat.le_refl _) c'

theorem kind_of_program_eq_ok (h : (ofDepth depth).program c = .ok node c') :
    c'.current.kind = .endOfInput := by
  cases depth with
  | zero => cases h
  | succ depth =>
    replace h : (manyUntil [] (ofDepth depth).statement >>= fun body => pure (.program body)) c =
      .ok node c' := h
    simp only [Bind.bind, EStateM.bind] at h
    cases hbody : manyUntil [] (ofDepth depth).statement c with
    | error e c₁ =>
      rw [hbody] at h
      cases h
    | ok body c₁ =>
      rw [hbody] at h
      cases h
      have hstop := many_stops (peeks_not_sees []) (moves_ofDepth depth).statement hbody
      have htest : (!List.contains [.endOfInput] c'.current.kind) = false :=
        (EStateM.Result.ok.inj hstop).1
      simpa using htest

end Grammar

end Ember
