import Ember.Proofs.Ending

/-!
The operations of a parser, called in any order. Whatever fails on the way, the cursor stays within
its list or past its last token, and never goes back. Each rule takes a token if it returns, so that
no loop and no recursion goes on forever.
-/

namespace Ember

set_option autoImplicit true

open Ember.Parser

/-- The rules for statements, for expressions and for their parts. -/
inductive Rule where
  | statement
  | declaration
  | function
  | params
  | param
  | expression
  | assignment
  | object
  | sum
  | product
  | callOrMember
  | call (callee : Node)
  | arguments
  | member
  | primary

namespace Rule

def Result : Rule → Type
  | .params => List String
  | .param => String
  | .arguments => List Node
  | _ => Node

def run (g : Grammar) : (r : Rule) → Parser r.Result
  | .statement => g.statement
  | .declaration => g.declaration
  | .function => g.function
  | .params => g.params
  | .param => g.param
  | .expression => g.expression
  | .assignment => g.assignment
  | .object => g.object
  | .sum => g.sum
  | .product => g.product
  | .callOrMember => g.callOrMember
  | .call callee => g.call callee
  | .arguments => g.arguments
  | .member => g.member
  | .primary => g.primary

theorem moves_run {g : Grammar} (h : g.Moves) (r : Rule) : (r.run g).Moves 1 := by
  cases r with
  | statement => exact h.statement
  | declaration => exact h.declaration
  | function => exact h.function
  | params => exact h.params
  | param => exact h.param
  | expression => exact h.expression
  | assignment => exact h.assignment
  | object => exact h.object
  | sum => exact h.sum
  | product => exact h.product
  | callOrMember => exact h.callOrMember
  | call callee => exact h.call callee
  | arguments => exact h.arguments
  | member => exact h.member
  | primary => exact h.primary

end Rule

/-- The calls that a parser offers. -/
inductive Parser.Call where
  | advance
  | sees (kinds : List TokenKind)
  | seesOperator (operators : List String)
  | expect (kind : TokenKind) (summary : String)
  | program
  | rule (r : Rule)

namespace Parser.Call

def Result : Call → Type
  | .advance | .expect .. => Token
  | .sees _ | .seesOperator _ => Bool
  | .program => Node
  | .rule r => r.Result

def run (g : Grammar) : (call : Call) → Parser call.Result
  | .advance => Parser.advance
  | .sees kinds => Parser.sees kinds
  | .seesOperator operators => Parser.seesOperator operators
  | .expect kind summary => Parser.expect (.token kind summary)
  | .program => g.program
  | .rule r => r.run g

theorem moves_run {g : Grammar} (h : g.Moves) (call : Call) : (call.run g).Moves 0 := by
  cases call with
  | advance => exact moves_advance
  | sees kinds => exact moves_sees kinds
  | seesOperator operators => exact moves_seesOperator operators
  | expect kind summary =>
    exact moves_current.bind_left fun _ => .ite moves_advance (moves_reject _)
  | program => exact h.program
  | rule r => exact (r.moves_run h).weaken

end Parser.Call

def Parser.leave (p : Parser α) (c : Cursor) : Cursor :=
  match p c with
  | .ok _ c' => c'
  | .error _ c' => c'

theorem Parser.Moves.past_leave {p : Parser α} (h : p.Moves 0) (c : Cursor) :
    c.Past 0 (leave p c) := by
  have hc := h c
  unfold MovesFrom at hc
  unfold leave
  split
  · next hp =>
    rw [hp] at hc
    exact hc
  · next hp =>
    rw [hp] at hc
    exact hc

namespace Cursor

/-- The cursor after calls one after the other, also after those that fail. Each call comes with the
depth to which rules nest in it. -/
def after (c : Cursor) (calls : List (Nat × Call)) : Cursor :=
  calls.foldl (fun c (depth, call) => leave (call.run (.ofDepth depth)) c) c

theorem past_after (c : Cursor) (calls : List (Nat × Call)) : c.Past 0 (c.after calls) := by
  induction calls generalizing c with
  | nil => exact .refl c
  | cons call calls ih =>
    obtain ⟨depth, call⟩ := call
    exact ((call.moves_run (Grammar.moves_ofDepth depth)).past_leave c).trans (ih _)

variable {c c' : Cursor}

theorem Past.place (h : (ofTokens tokens).Past 0 c) :
    (tokens[c.index]? = some c.current ∧ c.remaining = tokens.length - c.index) ∨
      (c.current = closing tokens ∧ c.index = tokens.length - 1 ∧ c.remaining = 0) := by
  obtain ⟨front, -, hp, ht, hl⟩ := h
  replace hp : tokens = front ++ c.pending := hp
  replace ht : c.taken = front.length := by simpa [ofTokens] using ht
  cases hc : c.pending with
  | nil =>
    rw [hc, List.append_nil] at hp
    refine .inr ⟨?_, ?_, ?_⟩
    · rw [current, hc, hl, hp]
      rfl
    · rw [index, hc, ht, hp]
      rfl
    · rw [remaining, hc, List.length_nil]
  | cons t rest =>
    have hi : c.index = front.length := by
      rw [index, hc, ht]
      rfl
    rw [hc] at hp
    refine .inl ⟨?_, ?_⟩
    · rw [hi, current_of_pending hc, hp]
      simp
    · rw [hi, remaining, hc, hp, List.length_append]
      omega

theorem Past.index_le (h : c.Past 0 c') : c.index ≤ c'.index := by
  obtain ⟨front, -, hp, ht, -⟩ := h
  replace hp := congrArg List.length hp
  rw [List.length_append] at hp
  simp only [index, List.isEmpty_iff_length_eq_zero]
  split <;> split <;> omega

theorem Past.eq_of_remaining (h : c.Past 0 c') (hr : c.remaining = 0) : c' = c := by
  obtain ⟨front, -, hp, ht, hl⟩ := h
  have hc : c.pending = [] := List.eq_nil_of_length_eq_zero hr
  rw [hc] at hp
  obtain ⟨rfl, hp'⟩ := List.append_eq_nil_iff.1 hp.symm
  obtain ⟨pending, taken, last⟩ := c
  obtain ⟨pending', taken', last'⟩ := c'
  cases hc
  cases hp'
  cases ht
  cases hl
  rfl

end Cursor

namespace Parser

section

variable {test : TokenKind → String → Bool} {c : Cursor} {fuel fuel' : List Token}
  (ht : ∀ text, test .endOfInput text = false)

include ht

/-- Rounds beyond the pending tokens make no difference. -/
theorem iterate_fuel {step : α → Parser α} (hm : ∀ a, (step a).Moves 1)
    (hl : c.pending.length ≤ fuel.length) (hl' : c.pending.length ≤ fuel'.length) (a : α) :
    iterate (peek test) step fuel a c = iterate (peek test) step fuel' a c := by
  induction hn : c.pending.length using Nat.strongRecOn generalizing c fuel fuel' a with
  | ind n ih =>
    cases htest : test c.current.kind c.current.text with
    | false => rw [iterate_of_not htest, iterate_of_not htest]
    | true =>
      have hinside := Lockstep.inside_of_test ht htest
      obtain ⟨t, fuel, rfl⟩ := exists_fuel hinside hl
      obtain ⟨t', fuel', rfl⟩ := exists_fuel hinside hl'
      rw [iterate_cons htest, iterate_cons htest]
      simp only [Bind.bind, EStateM.bind]
      cases hs : step a c with
      | error e c₁ => rfl
      | ok b c₁ =>
        have h₁ := ((hm a c).of_eq_ok hs).length_add_le
        simp only [List.length_cons] at hl hl'
        exact ih _ (by omega) (by omega) (by omega) b rfl

theorem collect_fuel {item : Parser α} (hm : item.Moves 1)
    (hl : c.pending.length ≤ fuel.length) (hl' : c.pending.length ≤ fuel'.length) :
    collect (peek test) item fuel c = collect (peek test) item fuel' c := by
  induction hn : c.pending.length using Nat.strongRecOn generalizing c fuel fuel' with
  | ind n ih =>
    cases htest : test c.current.kind c.current.text with
    | false => rw [collect_of_not htest, collect_of_not htest]
    | true =>
      have hinside := Lockstep.inside_of_test ht htest
      obtain ⟨t, fuel, rfl⟩ := exists_fuel hinside hl
      obtain ⟨t', fuel', rfl⟩ := exists_fuel hinside hl'
      rw [collect_cons htest, collect_cons htest]
      simp only [Bind.bind, EStateM.bind]
      cases hi : item c with
      | error e c₁ => rfl
      | ok first c₁ =>
        have h₁ := ((hm c).of_eq_ok hi).length_add_le
        simp only [List.length_cons] at hl hl'
        have hrest : collect (peek test) item fuel c₁ = collect (peek test) item fuel' c₁ :=
          ih _ (by omega) (by omega) (by omega) rfl
        dsimp only
        rw [hrest]

end

/-- The loop is a step and then the loop again, as long as its test holds. -/
def Unwinds (test : Parser Bool) (step : α → Parser α) : Prop :=
  ∀ a, loop test step a = do
    if ← test then
      loop test step (← step a)
    else
      pure a

def Unrolls (test : Parser Bool) (item : Parser α) : Prop :=
  many test item = do
    if ← test then
      let first ← item
      let rest ← many test item
      pure (first :: rest)
    else
      pure []

theorem unwinds_of_peeks {test : Parser Bool} {step : α → Parser α} (ht : Peeks test)
    (hm : ∀ a, (step a).Moves 1) : Unwinds test step := by
  obtain ⟨test, rfl, ht⟩ := ht
  intro a
  funext c
  change iterate (peek test) step c.pending a c = (if test c.current.kind c.current.text then
    step a >>= loop (peek test) step else pure a) c
  cases htest : test c.current.kind c.current.text with
  | false =>
    rw [iterate_of_not htest]
    rfl
  | true =>
    have hp := c.pending_eq_cons (Lockstep.inside_of_test ht htest)
    rw [hp, iterate_cons htest, if_pos rfl]
    simp only [Bind.bind, EStateM.bind]
    cases hs : step a c with
    | error e c₁ => rfl
    | ok b c₁ =>
      have h₁ := ((hm a c).of_eq_ok hs).length_add_le
      rw [hp, List.length_cons] at h₁
      exact iterate_fuel ht hm (by omega) (Nat.le_refl _) b

theorem unrolls_of_peeks {test : Parser Bool} {item : Parser α} (ht : Peeks test)
    (hm : item.Moves 1) : Unrolls test item := by
  obtain ⟨test, rfl, ht⟩ := ht
  funext c
  change collect (peek test) item c.pending c = (if test c.current.kind c.current.text then
    item >>= fun first => many (peek test) item >>= fun rest => pure (first :: rest)
    else pure []) c
  cases htest : test c.current.kind c.current.text with
  | false =>
    rw [collect_of_not htest]
    rfl
  | true =>
    have hp := c.pending_eq_cons (Lockstep.inside_of_test ht htest)
    rw [hp, collect_cons htest, if_pos rfl]
    simp only [Bind.bind, EStateM.bind]
    cases hi : item c with
    | error e c₁ => rfl
    | ok first c₁ =>
      have h₁ := ((hm c).of_eq_ok hi).length_add_le
      rw [hp, List.length_cons] at h₁
      dsimp only
      rw [collect_fuel ht hm (by omega) (Nat.le_refl _)]
      rfl

end Parser

/-- The loops of the rules, with what each of them repeats. -/
structure Grammar.Loops (g : Grammar) : Prop where
  statements : ∀ kinds, Unrolls (return !(← sees (.endOfInput :: kinds))) g.statement
  params : Unrolls (sees [.comma]) (do let _ ← advance; g.param)
  properties : Unrolls (return !(← sees [.endOfInput, .rightBrace])) (Rules.property g)
  sums : Unwinds (seesOperator ["+", "-"]) fun left => do
    let operator := (← advance).text
    let right ← g.product
    pure (Node.binary left right operator)
  products : Unwinds (seesOperator ["*", "/", "%"]) fun left => do
    let operator := (← advance).text
    let right ← g.callOrMember
    pure (Node.binary left right operator)
  arguments : Unrolls (sees [.comma]) (do let _ ← advance; g.assignment)
  accesses : Unwinds (sees [.dot, .leftBracket]) (Rules.access g)

theorem Grammar.Moves.loops {g : Grammar} (h : g.Moves) : g.Loops where
  statements kinds := unrolls_of_peeks (peeks_not_sees kinds) h.statement
  params := unrolls_of_peeks (peeks_sees rfl) (moves_advance.bind_right fun _ => h.param)
  properties := unrolls_of_peeks (peeks_not_sees _) (Rules.moves_property h)
  sums := unwinds_of_peeks (peeks_seesOperator _) fun _ =>
    moves_advance.bind_right fun _ => h.product.bind_left fun _ => moves_pure _
  products := unwinds_of_peeks (peeks_seesOperator _) fun _ =>
    moves_advance.bind_right fun _ => h.callOrMember.bind_left fun _ => moves_pure _
  arguments := unrolls_of_peeks (peeks_sees rfl) (moves_advance.bind_right fun _ => h.assignment)
  accesses := unwinds_of_peeks (peeks_sees rfl) (Rules.moves_access h)

/-- From this cursor the parser comes to an end that does not depend on the depth, once rules may
nest deep enough for what is pending. -/
def Grammar.Settles (c : Cursor) (p : Grammar → Parser α) : Prop :=
  ∃ outcome, (∀ c', outcome ≠ .error .tooDeep c') ∧
    ∀ depth, 10 * c.remaining + 10 ≤ depth → p (.ofDepth depth) c = outcome

namespace Grammar

/-- A part of the rules that does not run out of depth, and does the same at any greater one. -/
theorem settles_of_follows {p : Grammar → Parser α} {start : Cursor → Prop}
    (hl : ∀ {g : Grammar} {depth n : Nat}, g.Lasting depth → 10 * n + 10 ≤ depth →
      (p g).LastsFrom start n)
    (hf : ∀ {g g' : Grammar}, Lockstep.same.Grammars g g' →
      Lockstep.same.FollowsFrom start Eq (p g) (p g'))
    {c : Cursor} (hc : start c) : Settles c p := by
  have hne := hl (lasting_ofDepth (10 * c.remaining + 10)) (Nat.le_refl _) c hc (Nat.le_refl _)
  refine ⟨p (ofDepth (10 * c.remaining + 10)) c, hne, fun depth hd => ?_⟩
  have hm := (hf (Lockstep.same.grammars_ofDepth hd)).meets rfl hc
  exact Lockstep.eq_of_meets_same hm hne

/-- A rule that takes its first word whatever it is, and finds none at the end of input. -/
theorem settles_of_word {p : Grammar → Parser α} (word : TokenKind) (hw : word ≠ .endOfInput)
    (hin : ∀ c : Cursor, c.current.kind ≠ .endOfInput → Settles c p)
    (hend : ∀ g taken last, p (next g) ⟨[], taken, last⟩ =
      .error (.unexpected e (.endOfInput last)) ⟨[], taken, last⟩)
    (hword : ∀ g text position rest taken last,
      p (next g) ⟨⟨.endOfInput, text, position⟩ :: rest, taken, last⟩ =
        p (next g) ⟨⟨word, text, position⟩ :: rest, taken, last⟩)
    (c : Cursor) : Settles c p := by
  by_cases hk : c.current.kind = .endOfInput
  · obtain ⟨pending, taken, last⟩ := c
    cases pending with
    | nil =>
      refine ⟨.error (.unexpected e (.endOfInput last)) ⟨[], taken, last⟩,
        (fun _ h => nomatch h), fun depth hd => ?_⟩
      obtain ⟨depth, rfl⟩ : ∃ d, depth = d + 1 := ⟨depth - 1, by omega⟩
      exact hend (ofDepth depth) taken last
    | cons t rest =>
      obtain ⟨kind, text, position⟩ := t
      cases hk
      obtain ⟨outcome, hne, hsame⟩ := hin ⟨⟨word, text, position⟩ :: rest, taken, last⟩ hw
      refine ⟨outcome, hne, fun depth hd => ?_⟩
      rw [← hsame depth hd]
      obtain ⟨depth, rfl⟩ : ∃ d, depth = d + 1 := ⟨depth - 1, by omega⟩
      exact hword (ofDepth depth) text position rest taken last
  · exact hin c hk

theorem settles_declaration (c : Cursor) : Settles c (·.declaration) :=
  settles_of_word .letWord nofun
    (fun _ => settles_of_follows (fun h hd => h.declaration (by omega)) fun h => h.declaration)
    (fun _ _ _ => rfl) (fun _ _ _ _ _ _ => rfl) c

theorem settles_function (c : Cursor) : Settles c (·.function) :=
  settles_of_word .fnWord nofun
    (fun _ => settles_of_follows (fun h hd => h.function (by omega)) fun h => h.function)
    (fun _ _ _ => rfl) (fun _ _ _ _ _ _ => rfl) c

theorem settles_rule (c : Cursor) (r : Rule) : Settles c r.run := by
  cases r with
  | declaration => exact settles_declaration c
  | function => exact settles_function c
  | statement =>
    exact settles_of_follows (fun h hd => h.statement (by omega)) (fun h => h.statement) trivial
  | params =>
    exact settles_of_follows (fun h hd => h.params (by omega)) (fun h => h.params) trivial
  | param =>
    exact settles_of_follows (fun h hd => h.param (by omega)) (fun h => h.param) trivial
  | expression =>
    exact settles_of_follows (fun h hd => h.expression (by omega)) (fun h => h.expression) trivial
  | assignment =>
    exact settles_of_follows (fun h hd => h.assignment (by omega)) (fun h => h.assignment) trivial
  | object =>
    exact settles_of_follows (fun h hd => h.object (by omega)) (fun h => h.object) trivial
  | sum =>
    exact settles_of_follows (fun h hd => h.sum (by omega)) (fun h => h.sum) trivial
  | product =>
    exact settles_of_follows (fun h hd => h.product (by omega)) (fun h => h.product) trivial
  | callOrMember =>
    exact settles_of_follows (fun h hd => h.callOrMember (by omega)) (fun h => h.callOrMember)
      trivial
  | call callee =>
    exact settles_of_follows (fun h hd => h.call (by omega) callee) (fun h => h.call callee) trivial
  | arguments =>
    exact settles_of_follows (fun h hd => h.arguments (by omega)) (fun h => h.arguments) trivial
  | member =>
    exact settles_of_follows (fun h hd => h.member (by omega)) (fun h => h.member) trivial
  | primary =>
    exact settles_of_follows (fun h hd => h.primary (by omega)) (fun h => h.primary) trivial

theorem settles_call (c : Cursor) (call : Call) : Settles c call.run := by
  -- What calls no rule does not see the depth.
  have hsole {p : Parser call.Result} (hr : ∀ g, call.run g = p) (hl : ∀ n, p.Lasts n) :
      Settles c call.run :=
    ⟨p c, hl _ c trivial (Nat.le_refl _), fun _ _ => congrFun (hr _) c⟩
  cases call with
  | advance => exact hsole (fun _ => rfl) fun _ => lasts_advance
  | sees | seesOperator => exact hsole (fun _ => rfl) fun _ _ _ _ _ h => nomatch h
  | expect kind summary => exact hsole (fun _ => rfl) fun _ => lasts_expect _
  | program =>
    exact settles_of_follows (fun h hd => h.program hd) (fun h => h.program) trivial
  | rule r => exact settles_rule c r

end Grammar

/-- A parser under any calls. Its cursor stands at a token of the list or past the last one, where
it stays, and never goes back. A rule that returns leaves fewer tokens than there were. Every call
comes to an end, since the depth makes no difference once it is enough for what is left; and every
loop goes on as long as its test holds, however many rounds that takes. -/
theorem Cursor.calls_progress (tokens : List Token) (calls : List (Nat × Call)) :
    let c := (ofTokens tokens).after calls
    c.index ≤ tokens.length - 1 ∧
    (tokens[c.index]? = some c.current ∧ c.remaining = tokens.length - c.index ∨
      c.current = closing tokens ∧ c.index = tokens.length - 1 ∧ c.remaining = 0) ∧
    (∀ more, c.index ≤ (c.after more).index) ∧
    (c.remaining = 0 → ∀ more, c.after more = c) ∧
    (∀ depth (r : Rule) result c', r.run (.ofDepth depth) c = .ok result c' →
      c'.remaining < c.remaining) ∧
    (∀ call : Call, Grammar.Settles c call.run) ∧
    ∀ depth, (Grammar.ofDepth depth).Loops := by
  intro c
  have hc : (ofTokens tokens).Past 0 c := past_after _ calls
  refine ⟨?_, hc.place, fun more => (past_after c more).index_le,
    fun hr more => (past_after c more).eq_of_remaining hr, fun depth r result c' hr => ?_,
    Grammar.settles_call c, fun depth => (Grammar.moves_ofDepth depth).loops⟩
  · rcases hc.place with ⟨hi, -⟩ | ⟨-, hi, -⟩
    · have hlt := (List.getElem?_eq_some_iff.1 hi).1
      omega
    · exact hi.le
  · have hm := r.moves_run (Grammar.moves_ofDepth depth) c
    exact (hm.of_eq_ok hr).length_add_le

/-- The right operand of `x +` is missing, and so is the end of input. -/
theorem Cursor.calls_progress_unended :
    let tokens : List Token := [⟨.identifier, "x", ⟨1, 1⟩⟩, ⟨.operator, "+", ⟨1, 3⟩⟩]
    let c := (ofTokens tokens).after [(1, .rule .primary), (90, .advance), (90, .rule .sum)]
    c.remaining = 0 ∧ c.current = .endOfInput ⟨1, 3⟩ ∧ c.index = 1 ∧
      c.after [(90, .program), (0, .rule .statement), (90, .advance)] = c := by
  intro tokens c
  have hr : c.remaining = 0 := rfl
  have h := calls_progress tokens [(1, .rule .primary), (90, .advance), (90, .rule .sum)]
  exact ⟨hr, rfl, rfl, h.2.2.2.1 hr _⟩

end Ember
