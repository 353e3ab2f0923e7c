import Ember.Proofs.Derivation
import Ember.Proofs.Outcome

/-!
What the rules return is derived: a rule that returns has taken the tokens of a derivation of its
symbol, and a rule that fails either does not find what it expects or has too little depth left.
Depth runs out only if there is less of it than ten levels for each pending token and some more.
-/

namespace Ember

set_option autoImplicit true

/-- Number tokens hold digits. -/
def Readable (tokens : List Token) : Prop :=
  ∀ t ∈ tokens, t.kind = .number → Numeral.IsDigits t.text

theorem Readable.drop {tokens taken rest : List Token} (h : Readable tokens)
    (he : tokens = taken ++ rest) : Readable rest := by
  intro t ht
  exact h t (by simp [he, ht])

theorem Readable.tail {tokens rest : List Token} (h : Readable tokens) (he : tokens = t :: rest) :
    Readable rest := by
  intro u hu
  exact h u (by simp [he, hu])

/-- Between the two cursors stand the tokens of a derivation with this meaning; if it ends in a call
then no parenthesis follows. -/
def Yields (s : Symbol) (c : Cursor) (m : s.Meaning) (c' : Cursor) : Prop :=
  ∃ d : Derivation s, d.Legal ∧ d.tree = m ∧ c.pending = d.tokens ++ c'.pending ∧
    (d.EndsInCall → c'.current.kind ≠ .leftParen)

/-- Errors of a rule that needs `rank` levels beside those for the pending tokens. -/
def Fails (depth rank : Nat) (c : Cursor) (e : ParseError) : Prop :=
  (∃ x t, e = .unexpected x t) ∨ e = .tooDeep ∧ depth < 10 * c.pending.length + rank

theorem Fails.unexpected : Fails depth rank c (.unexpected x t) := .inl ⟨x, t, rfl⟩

theorem Fails.exhausted : Fails 0 (rank + 1) c .tooDeep := .inr ⟨rfl, by omega⟩

/-- Errors of a rule that was called before anything was taken. -/
theorem Fails.called (h : Fails depth rank c e) (hr : rank < rank') :
    Fails (depth + 1) rank' c e := by
  rcases h with h | ⟨h, hd⟩
  · exact .inl h
  · exact .inr ⟨h, by omega⟩

/-- Errors of a rule that was called after a token was taken. -/
theorem Fails.nested {c c' : Cursor} (h : Fails depth rank c' e)
    (hl : c'.pending.length < c.pending.length) (hr : rank < 10) (hr' : 0 < rank') :
    Fails (depth + 1) rank' c e := by
  rcases h with h | ⟨h, hd⟩
  · exact .inl h
  · exact .inr ⟨h, by omega⟩

/-- Errors of a round of a loop, seen from an earlier round. -/
theorem Fails.later {c c' : Cursor} (h : Fails depth rank c' e)
    (hl : c'.pending.length ≤ c.pending.length) : Fails depth rank c e := by
  rcases h with h | ⟨h, hd⟩
  · exact .inl h
  · exact .inr ⟨h, by omega⟩

def Sound (depth rank : Nat) (s : Symbol) (p : Parser s.Meaning) : Prop :=
  ∀ c, Readable c.pending → p.Ensures c (Yields s c) (Fails depth rank c)

theorem Sound.term {p : Parser Node} (h : Sound depth rank (.chain .product) p) :
    Sound depth rank (.operand .sum) p := by
  intro c hc
  apply (h c hc).mono
  · rintro m c' ⟨d, hd, hm, hp, hk⟩
    exact ⟨.term d, hd, hm, hp, fun _ => hk (by cases d; trivial)⟩
  · exact fun e he => he

theorem Sound.factor {p : Parser Node} (h : Sound depth rank .call p) :
    Sound depth rank (.operand .product) p := by
  intro c hc
  apply (h c hc).mono
  · rintro m c' ⟨d, hd, hm, hp, hk⟩
    exact ⟨.factor d, hd, hm, hp, fun _ => hk (by cases d; trivial)⟩
  · exact fun e he => he

theorem Sound.argument {p : Parser Node} (h : Sound depth rank .expression p) :
    Sound depth rank (.item .argument) p := by
  intro c hc
  apply (h c hc).mono
  · rintro m c' ⟨d, hd, hm, hp, -⟩
    exact ⟨.argument d, hd, hm, hp, fun h => h.elim⟩
  · exact fun e he => he

structure Grammar.Sound (g : Grammar) (depth : Nat) : Prop where
  statement : Ember.Sound depth 9 .statement g.statement
  declaration : ∀ c, Readable c.pending →
    c.current.kind = .letWord ∨ c.current.kind = .constWord →
    g.declaration.Ensures c (Yields .statement c) (Fails depth 1 c)
  function : ∀ c, Readable c.pending → c.current.kind = .fnWord →
    g.function.Ensures c (Yields .statement c) (Fails depth 1 c)
  params : Ember.Sound depth 1 (.tuple .parameter) g.params
  param : Ember.Sound depth 8 (.item .parameter) g.param
  expression : Ember.Sound depth 8 .expression g.expression
  assignment : Ember.Sound depth 7 .expression g.assignment
  object : Ember.Sound depth 6 .object g.object
  sum : Ember.Sound depth 5 (.chain .sum) g.sum
  product : Ember.Sound depth 4 (.chain .product) g.product
  callOrMember : Ember.Sound depth 3 .call g.callOrMember
  call : ∀ callee c, Readable c.pending →
    (g.call callee).Ensures c
      (fun m c' => ∃ (arguments : Derivation (.tuple .argument)) (more : Derivation .calls),
        arguments.Legal ∧ more.Legal ∧ more.tree (.call callee arguments.tree) = m ∧
        c.pending = arguments.tokens ++ (more.tokens ++ c'.pending) ∧
        c'.current.kind ≠ .leftParen)
      (Fails depth 2 c)
  arguments : Ember.Sound depth 1 (.tuple .argument) g.arguments
  member : Ember.Sound depth 2 .member g.member
  primary : Ember.Sound depth 1 .primary g.primary

namespace Parser

variable {c : Cursor} {fails : ParseError → Prop} {post : Token → Cursor → Prop}

theorem ensures_advance_terminal (hk : c.current.kind = k) (hne : k ≠ .endOfInput)
    (hpost : ∀ (t : Terminal k) c', c.pending = t.token :: c'.pending → post t.token c') :
    Ensures advance c post fails :=
  ensures_advance.2 (hpost ⟨_, hk⟩ _ (c.pending_eq_cons (hk ▸ hne)))

theorem ensures_expect_terminal (he : e.kind? = some k) (hne : k ≠ .endOfInput)
    (hpost : ∀ (t : Terminal k) c', c.pending = t.token :: c'.pending → post t.token c')
    (hfails : fails (.unexpected e c.current)) : Ensures (expect e) c post fails :=
  ensures_expect_of_kind he (fun hk => hpost ⟨_, hk⟩ _ (c.pending_eq_cons (hk ▸ hne))) hfails

end Parser

namespace Rules

open Ember.Parser

variable {g : Grammar} {depth : Nat}

theorem sound_expression (h : g.Sound depth) : Sound (depth + 1) 8 .expression (expression g) := by
  intro c hc
  apply (h.assignment c hc).mono
  · exact fun _ _ hy => hy
  · exact fun e he => he.called (by decide)

theorem sound_assignment (h : g.Sound depth) : Sound (depth + 1) 7 .expression (assignment g) := by
  intro c hc
  unfold assignment
  rw [ensures_bind]
  apply (h.object c hc).mono
  · rintro left c₁ ⟨o, ho, rfl, hp, hcall⟩
    rw [ensures_bind, ensures_sees, ensures_ite]
    split
    · next hk =>
      rw [ensures_bind]
      apply ensures_advance_terminal (by simpa using hk) (by decide)
      intro equals c₂ hp₁
      rw [ensures_bind]
      apply (h.assignment c₂ ((hc.drop hp).tail hp₁)).mono
      · rintro value c₃ ⟨v, hv, rfl, hp₂, -⟩
        rw [ensures_bind]
        apply ensures_expect_terminal rfl (by decide)
        · intro stop c₄ hp₃
          refine ⟨.assigned o equals v stop, ⟨ho, hv⟩, rfl, ?_, fun h => h.elim⟩
          simp [Derivation.tokens, hp, hp₁, hp₂, hp₃]
        · exact .unexpected
      · intro e he
        refine he.nested ?_ (by decide) (by decide)
        simp only [hp, hp₁, List.length_append, List.length_cons]
        omega
    · exact ⟨.plain o, ho, rfl, hp, hcall⟩
  · exact fun e he => he.called (by decide)

theorem sound_operations {operand : Parser Node} (ho : Sound depth rank (.operand level) operand)
    {c : Cursor} (hc : Readable c.pending) (hl : c.pending.length ≤ fuel.length)
    (hk : c.current.kind ≠ .leftParen) :
    (iterate (seesOperator level.operators) (fun left => do
      let operator := (← advance).text
      let right ← operand
      pure (.binary left right operator)) fuel left).Ensures c
      (fun m c' => ∃ more : Derivation (.operations level), more.Legal ∧ more.tree left = m ∧
        c.pending = more.tokens ++ c'.pending ∧ c'.current.kind ≠ .leftParen)
      (Fails depth rank c) := by
  induction fuel generalizing c left with
  | nil => exact ⟨.noOperations, trivial, rfl, rfl, hk⟩
  | cons _ fuel ih =>
    unfold iterate
    rw [ensures_bind, ensures_seesOperator, ensures_ite]
    split
    · next hop =>
      simp only [Bool.and_eq_true, beq_iff_eq, List.contains_iff_mem] at hop
      have hp := c.pending_eq_cons (by simp [hop.1])
      have hlength := congrArg List.length hp
      rw [ensures_bind, ensures_bind, ensures_advance, ensures_bind]
      apply (ho c.advance (hc.tail hp)).mono
      · rintro right c₁ ⟨d, hd, rfl, hp₁, hk₁⟩
        rw [ensures_pure]
        have hlength₁ := congrArg List.length hp₁
        simp only [List.length_cons, List.length_append] at hl hlength hlength₁
        apply (ih ((hc.tail hp).drop hp₁) (by omega) (hk₁ (by cases d <;> trivial))).mono
        · rintro m c₂ ⟨more, hm, rfl, hp₂, hk₂⟩
          refine ⟨.moreOperations ⟨_, hop.1, hop.2⟩ d more, ⟨hd, hm⟩, rfl, ?_, hk₂⟩
          rw [hp, hp₁, hp₂]
          simp [Derivation.tokens]
        · exact fun e he => he.later (by omega)
      · intro e he
        exact he.later (by rw [hlength]; exact Nat.le_succ _)
    · exact ⟨.noOperations, trivial, rfl, rfl, hk⟩

theorem sound_chain {operand : Parser Node} (ho : Sound depth rank (.operand level) operand)
    (hr : rank < rank') :
    Sound (depth + 1) rank' (.chain level) (chain level.operators operand) := by
  intro c hc
  unfold chain
  rw [ensures_bind]
  apply (ho c hc).mono
  · rintro first c₁ ⟨d, hd, rfl, hp, hk⟩
    unfold loop
    rw [ensures_bind, ensures_get]
    apply (sound_operations ho (hc.drop hp) (Nat.le_refl _) (hk (by cases d <;> trivial))).mono
    · rintro m c₂ ⟨more, hm, rfl, hp₁, hk₁⟩
      refine ⟨.chain d more, ⟨hd, hm⟩, rfl, ?_, fun _ => hk₁⟩
      simp [Derivation.tokens, hp, hp₁]
    · intro e he
      exact (he.later (by simp [hp])).called hr
  · exact fun e he => he.called hr

theorem sound_sum (h : g.Sound depth) : Sound (depth + 1) 5 (.chain .sum) (sum g) :=
  sound_chain h.product.term (by decide)

theorem sound_product (h : g.Sound depth) :
    Sound (depth + 1) 4 (.chain .product) (product g) :=
  sound_chain h.callOrMember.factor (by decide)

theorem sound_callOrMember (h : g.Sound depth) :
    Sound (depth + 1) 3 .call (callOrMember g) := by
  intro c hc
  unfold callOrMember
  rw [ensures_bind]
  apply (h.member c hc).mono
  · rintro callee c₁ ⟨d, hd, rfl, hp, -⟩
    rw [ensures_bind, ensures_sees, ensures_ite]
    split
    · apply (h.call _ c₁ (hc.drop hp)).mono
      · rintro m c₂ ⟨arguments, more, ha, hm, rfl, hp₁, hk⟩
        refine ⟨.call d (.moreCalls arguments more), ⟨hd, ha, hm⟩, rfl, ?_, fun _ => hk⟩
        simp [Derivation.tokens, hp, hp₁]
      · intro e he
        exact (he.later (by simp [hp])).called (by decide)
    · next hk =>
      refine ⟨.call d .noCalls, ⟨hd, trivial⟩, rfl, ?_, fun _ => by simpa using hk⟩
      simp [Derivation.tokens, hp]
  · exact fun e he => he.called (by decide)

theorem sound_call (h : g.Sound depth) (callee : Node) {c : Cursor} (hc : Readable c.pending) :
    (call g callee).Ensures c
      (fun m c' => ∃ (arguments : Derivation (.tuple .argument)) (more : Derivation .calls),
        arguments.Legal ∧ more.Legal ∧ more.tree (.call callee arguments.tree) = m ∧
        c.pending = arguments.tokens ++ (more.tokens ++ c'.pending) ∧
        c'.current.kind ≠ .leftParen)
      (Fails (depth + 1) 2 c) := by
  unfold call
  rw [ensures_bind]
  apply (h.arguments c hc).mono
  · rintro arguments c₁ ⟨d, hd, rfl, hp, -⟩
    rw [ensures_bind, ensures_sees, ensures_ite]
    split
    · apply (h.call _ c₁ (hc.drop hp)).mono
      · rintro m c₂ ⟨arguments, more, ha, hm, rfl, hp₁, hk⟩
        refine ⟨d, .moreCalls arguments more, hd, ⟨ha, hm⟩, rfl, ?_, hk⟩
        simp [Derivation.tokens, hp, hp₁]
      · intro e he
        obtain ⟨t, tail, ht, -⟩ := d.exists_first (by simp [Symbol.first])
        refine he.nested ?_ (by decide) (by decide)
        simp only [hp, ht, List.length_append, List.length_cons]
        omega
    · next hk => exact ⟨d, .noCalls, hd, trivial, rfl, hp, by simpa using hk⟩
  · exact fun e he => he.called (by decide)

theorem sound_items {item : Parser i.Meaning} (hi : Sound depth rank (.item i) item)
    {c : Cursor} (hc : Readable c.pending) (hl : c.pending.length ≤ fuel.length) :
    (collect (sees [.comma]) (do
      let _ ← advance
      item) fuel).Ensures c
      (fun m c' => ∃ more : Derivation (.items i), more.Legal ∧ more.tree = m ∧
        c.pending = more.tokens ++ c'.pending)
      (Fails depth rank c) := by
  induction fuel generalizing c with
  | nil => exact ⟨.noItems, trivial, rfl, rfl⟩
  | cons _ fuel ih =>
    unfold collect
    rw [ensures_bind, ensures_sees, ensures_ite]
    split
    · next hk =>
      rw [ensures_bind, ensures_bind]
      apply ensures_advance_terminal (by simpa using hk) (by decide)
      intro comma c₁ hp
      have hlength := congrArg List.length hp
      apply (hi c₁ (hc.tail hp)).mono
      · rintro first c₂ ⟨d, hd, rfl, hp₁, -⟩
        have hlength₁ := congrArg List.length hp₁
        simp only [List.length_cons, List.length_append] at hl hlength hlength₁
        rw [ensures_bind]
        apply (ih ((hc.tail hp).drop hp₁) (by omega)).mono
        · rintro rest c₃ ⟨more, hm, rfl, hp₂⟩
          refine ⟨.moreItems comma d more, ⟨hd, hm⟩, rfl, ?_⟩
          simp [Derivation.tokens, hp, hp₁, hp₂]
        · exact fun e he => he.later (by omega)
      · intro e he
        exact he.later (by simp [hp])
    · exact ⟨.noItems, trivial, rfl, rfl⟩

theorem sound_parenthesized {item : Parser i.Meaning} (hi : Sound depth rank (.item i) item)
    (hr : rank < 10) (ho : opening.kind? = some .leftParen)
    (hcl : closing.kind? = some .rightParen) :
    Sound (depth + 1) 1 (.tuple i) (parenthesized opening closing item) := by
  intro c hc
  unfold parenthesized
  rw [ensures_bind]
  apply ensures_expect_terminal ho (by decide)
  · intro left c₁ hp
    rw [ensures_bind, ensures_sees, ensures_ite]
    split
    · rw [ensures_bind]
      apply ensures_expect_terminal hcl (by decide)
      · intro right c₂ hp₁
        refine ⟨.emptyTuple left right, trivial, rfl, ?_, fun h => h.elim⟩
        simp [Derivation.tokens, hp, hp₁]
      · exact .unexpected
    · rw [ensures_bind]
      apply (hi c₁ (hc.tail hp)).mono
      · rintro first c₂ ⟨d, hd, rfl, hp₁, -⟩
        unfold many
        rw [ensures_bind, ensures_bind, ensures_get]
        apply (sound_items hi ((hc.tail hp).drop hp₁) (Nat.le_refl _)).mono
        · rintro rest c₃ ⟨more, hm, rfl, hp₂⟩
          rw [ensures_bind]
          apply ensures_expect_terminal hcl (by decide)
          · intro right c₄ hp₃
            refine ⟨.tuple left d more right, ⟨hd, hm⟩, rfl, ?_, fun h => h.elim⟩
            simp [Derivation.tokens, hp, hp₁, hp₂, hp₃]
          · exact .unexpected
        · intro e he
          refine he.nested ?_ hr (by decide)
          simp only [hp, hp₁, List.length_append, List.length_cons]
          omega
      · intro e he
        exact he.nested (by simp [hp]) hr (by decide)
  · exact .unexpected

theorem sound_params (h : g.Sound depth) :
    Sound (depth + 1) 1 (.tuple .parameter) (params g) :=
  sound_parenthesized h.param (by decide) rfl rfl

theorem sound_arguments (h : g.Sound depth) :
    Sound (depth + 1) 1 (.tuple .argument) (arguments g) :=
  sound_parenthesized h.assignment.argument (by decide) rfl rfl

theorem sound_param (h : g.Sound depth) :
    Sound (depth + 1) 8 (.item .parameter) (param g) := by
  intro c hc
  unfold param
  rw [ensures_bind, ensures_current, ensures_bind]
  apply (h.assignment c hc).mono
  · rintro m c₁ ⟨d, hd, hm, hp, -⟩
    split
    · next name => exact ⟨.parameter name d, ⟨hd, hm⟩, rfl, hp, fun h => h.elim⟩
    · exact ensures_throw.2 .unexpected
  · exact fun e he => he.called (by decide)

theorem sound_access (h : g.Sound depth) (owner : Node) {c : Cursor} (hc : Readable c.pending)
    (hk : c.current.kind = .dot ∨ c.current.kind = .leftBracket) :
    (access g owner).Ensures c
      (fun m c' => ∃ (taken : List Token) (grow : Derivation .accesses → Derivation .accesses),
        taken ≠ [] ∧ c.pending = taken ++ c'.pending ∧
        ∀ more, more.Legal → (grow more).Legal ∧ (grow more).tree owner = more.tree m ∧
          (grow more).tokens = taken ++ more.tokens)
      (Fails (depth + 1) 2 c) := by
  unfold access
  rw [ensures_bind, ensures_advance, ensures_ite]
  have hp := c.pending_eq_cons (by rcases hk with hk | hk <;> simp [hk])
  split
  · next hb =>
    have hb : c.current.kind = .leftBracket := by simpa using hb
    rw [ensures_bind]
    apply (h.expression c.advance (hc.tail hp)).mono
    · rintro key c₁ ⟨d, hd, rfl, hp₁, -⟩
      rw [ensures_bind]
      apply ensures_expect_terminal rfl (by decide)
      · intro closing c₂ hp₂
        refine ⟨c.current :: (d.tokens ++ [closing.token]), .computed ⟨_, hb⟩ d closing, by simp,
          ?_, fun more hm => ⟨⟨hd, hm⟩, rfl, ?_⟩⟩
        · rw [hp, hp₁, hp₂]
          simp
        · simp [Derivation.tokens]
      · exact .unexpected
    · intro e he
      exact he.nested (by rw [hp]; exact Nat.lt_succ_self _) (by decide) (by decide)
  · next hb =>
    have hb : c.current.kind ≠ .leftBracket := by simpa using hb
    have hd : c.current.kind = .dot := by simpa [hb] using hk
    rw [ensures_bind]
    apply ensures_expect_terminal rfl (by decide)
    · intro name c₁ hp₁
      refine ⟨[c.current, name.token], .named ⟨_, hd⟩ name, by simp, ?_,
        fun more hm => ⟨hm, rfl, rfl⟩⟩
      rw [hp, hp₁]
      rfl
    · exact .unexpected

theorem sound_accesses (h : g.Sound depth) {c : Cursor} (hc : Readable c.pending)
    (hl : c.pending.length ≤ fuel.length) :
    (iterate (sees [.dot, .leftBracket]) (access g) fuel owner).Ensures c
      (fun m c' => ∃ more : Derivation .accesses, more.Legal ∧ more.tree owner = m ∧
        c.pending = more.tokens ++ c'.pending)
      (Fails (depth + 1) 2 c) := by
  induction fuel generalizing c owner with
  | nil => exact ⟨.noAccesses, trivial, rfl, rfl⟩
  | cons _ fuel ih =>
    unfold iterate
    rw [ensures_bind, ensures_sees, ensures_ite]
    split
    · next hk =>
      rw [ensures_bind]
      apply (sound_access h owner hc (by simpa using hk)).mono
      · rintro m c₁ ⟨taken, grow, hn, hp, hg⟩
        have hlength := congrArg List.length hp
        have hpos := List.length_pos_iff.2 hn
        simp only [List.length_cons, List.length_append] at hl hlength
        apply (ih (hc.drop hp) (by omega)).mono
        · rintro m' c₂ ⟨more, hm, rfl, hp₁⟩
          obtain ⟨hlegal, htree, htokens⟩ := hg more hm
          exact ⟨grow more, hlegal, htree, by simp [htokens, hp, hp₁]⟩
        · exact fun e he => he.later (by omega)
      · exact fun e he => he
    · exact ⟨.noAccesses, trivial, rfl, rfl⟩

theorem sound_member (h : g.Sound depth) : Sound (depth + 1) 2 .member (member g) := by
  intro c hc
  unfold member
  rw [ensures_bind]
  apply (h.primary c hc).mono
  · rintro owner c₁ ⟨d, hd, rfl, hp, -⟩
    unfold loop
    rw [ensures_bind, ensures_get]
    apply (sound_accesses h (hc.drop hp) (Nat.le_refl _)).mono
    · rintro m c₂ ⟨more, hm, rfl, hp₁⟩
      exact ⟨.member d more, ⟨hd, hm⟩, rfl, by simp [Derivation.tokens, hp, hp₁], fun h => h.elim⟩
    · exact fun e he => he.later (by simp [hp])
  · exact fun e he => he.called (by decide)

theorem sound_primary (h : g.Sound depth) : Sound (depth + 1) 1 .primary (primary g) := by
  intro c hc
  unfold primary
  rw [ensures_bind, ensures_current]
  split
  · next hk =>
    rw [ensures_bind, ensures_advance]
    exact ⟨.identifier ⟨_, hk⟩, trivial, rfl, c.pending_eq_cons (by simp [hk]), fun h => h.elim⟩
  · next hk =>
    have hp := c.pending_eq_cons (by simp [hk])
    have hd := hc c.current (by rw [hp]; simp) hk
    rw [ensures_bind, ensures_advance, Numeral.read?_eq_value hd]
    exact ⟨.number ⟨_, hk⟩, trivial, rfl, hp, fun h => h.elim⟩
  · next hk =>
    rw [ensures_bind, ensures_advance]
    exact ⟨.string ⟨_, hk⟩, trivial, rfl, c.pending_eq_cons (by simp [hk]), fun h => h.elim⟩
  · next hk =>
    rw [ensures_bind]
    apply ensures_advance_terminal hk (by decide)
    intro opening c₁ hp
    rw [ensures_bind]
    apply (h.expression c₁ (hc.tail hp)).mono
    · rintro value c₂ ⟨d, hd, rfl, hp₁, -⟩
      rw [ensures_bind]
      apply ensures_expect_terminal rfl (by decide)
      · intro closing c₃ hp₂
        refine ⟨.parenthesized opening d closing, hd, rfl, ?_, fun h => h.elim⟩
        simp [Derivation.tokens, hp, hp₁, hp₂]
      · exact .unexpected
    · intro e he
      exact he.nested (by simp [hp]) (by decide) (by decide)
  · exact ensures_reject.2 .unexpected

/-- A property takes the comma after it; without one the closing brace follows. -/
theorem sound_property (h : g.Sound depth) {c : Cursor} (hc : Readable c.pending) :
    (property g).Ensures c
      (fun m c' => ∃ d : Derivation .property, d.Legal ∧ d.tree = m ∧
        ((∃ comma : Terminal .comma, c.pending = d.tokens ++ comma.token :: c'.pending) ∨
          c.pending = d.tokens ++ c'.pending ∧ c'.current.kind = .rightBrace))
      (Fails (depth + 1) 6 c) := by
  unfold property
  rw [ensures_bind]
  apply ensures_expect_terminal rfl (by decide)
  · intro key c₁ hp
    rw [ensures_bind, ensures_sees, ensures_ite]
    split
    · next hk =>
      rw [ensures_bind]
      apply ensures_advance_terminal (by simpa using hk) (by decide)
      intro comma c₂ hp₁
      exact ⟨.shorthand key, trivial, rfl, .inl ⟨comma, by simp [Derivation.tokens, hp, hp₁]⟩⟩
    · rw [ensures_bind, ensures_sees, ensures_ite]
      split
      · next hk => exact ⟨.shorthand key, trivial, rfl, .inr ⟨hp, by simpa using hk⟩⟩
      · rw [ensures_bind]
        apply ensures_expect_terminal rfl (by decide)
        · intro colon c₂ hp₁
          rw [ensures_bind]
          apply (h.expression c₂ ((hc.tail hp).tail hp₁)).mono
          · rintro value c₃ ⟨d, hd, rfl, hp₂, -⟩
            rw [ensures_bind, ensures_sees, ensures_ite]
            split
            · next hk =>
              refine ⟨.keyed key colon d, hd, rfl, .inr ⟨?_, by simpa using hk⟩⟩
              simp [Derivation.tokens, hp, hp₁, hp₂]
            · rw [ensures_bind]
              apply ensures_expect_terminal rfl (by decide)
              · intro comma c₄ hp₃
                refine ⟨.keyed key colon d, hd, rfl, .inl ⟨comma, ?_⟩⟩
                simp [Derivation.tokens, hp, hp₁, hp₂, hp₃]
              · exact .unexpected
          · intro e he
            refine he.nested ?_ (by decide) (by decide)
            simp only [hp, hp₁, List.length_cons]
            omega
        · exact .unexpected
  · exact .unexpected

theorem sound_properties (h : g.Sound depth) {c : Cursor} (hc : Readable c.pending)
    (hl : c.pending.length ≤ fuel.length) :
    (collect (return !(← sees [.endOfInput, .rightBrace])) (property g) fuel).Ensures c
      (fun m c' => ∃ d : Derivation .properties, d.Legal ∧ d.tree = m ∧
        c.pending = d.tokens ++ c'.pending)
      (Fails (depth + 1) 6 c) := by
  induction fuel generalizing c with
  | nil => exact ⟨.noProperties, trivial, rfl, rfl⟩
  | cons _ fuel ih =>
    unfold collect
    rw [ensures_bind, ensures_bind, ensures_sees, ensures_pure, ensures_ite]
    split
    · rw [ensures_bind]
      apply (sound_property h hc).mono
      · rintro first c₁ ⟨d, hd, rfl, hp⟩
        obtain ⟨t, tail, ht, -⟩ := d.exists_first (by simp [Symbol.first])
        have hc₁ : Readable c₁.pending := by
          rcases hp with ⟨comma, hp⟩ | ⟨hp, -⟩
          · exact (hc.drop hp).tail rfl
          · exact hc.drop hp
        have hlength : c₁.pending.length < c.pending.length := by
          rcases hp with ⟨comma, hp⟩ | ⟨hp, -⟩
          all_goals
            simp only [hp, ht, List.length_append, List.length_cons]
            omega
        simp only [List.length_cons] at hl
        rw [ensures_bind]
        apply (ih hc₁ (by omega)).mono
        · rintro rest c₂ ⟨more, hm, rfl, hp₁⟩
          rcases hp with ⟨comma, hp⟩ | ⟨hp, hk⟩
          · refine ⟨.moreProperties d comma more, ⟨hd, hm⟩, rfl, ?_⟩
            simp [Derivation.tokens, hp, hp₁]
          · -- The closing brace starts no property, so the loop has ended.
            cases more with
            | noProperties => exact ⟨.lastProperty d, hd, rfl, by simp [hp, hp₁, Derivation.tokens]⟩
            | lastProperty p | moreProperties p =>
              obtain ⟨u, utail, hu, huk⟩ := p.exists_first (by simp [Symbol.first])
              rw [Derivation.tokens, hu] at hp₁
              rw [c₁.current_of_pending hp₁] at hk
              rw [hk] at huk
              exact absurd huk (by decide)
        · exact fun e he => he.later (by omega)
      · exact fun e he => he
    · exact ⟨.noProperties, trivial, rfl, rfl⟩

theorem sound_object (h : g.Sound depth) : Sound (depth + 1) 6 .object (object g) := by
  intro c hc
  unfold object
  rw [ensures_bind, ensures_sees, ensures_ite]
  split
  · next hk =>
    rw [ensures_bind]
    apply ensures_advance_terminal (by simpa using hk) (by decide)
    intro opening c₁ hp
    unfold manyUntil many
    rw [ensures_bind, ensures_bind, ensures_get]
    apply (sound_properties h (hc.tail hp) (Nat.le_refl _)).mono
    · rintro properties c₂ ⟨d, hd, rfl, hp₁⟩
      rw [ensures_bind]
      apply ensures_expect_terminal rfl (by decide)
      · intro closing c₃ hp₂
        refine ⟨.braces opening d closing, hd, rfl, ?_, fun h => h.elim⟩
        simp [Derivation.tokens, hp, hp₁, hp₂]
      · exact .unexpected
    · exact fun e he => he.later (by simp [hp])
  · apply (h.sum c hc).mono
    · rintro m c₁ ⟨d, hd, hm, hp, hk⟩
      exact ⟨.sum d, hd, hm, hp, fun _ => hk (by cases d; trivial)⟩
    · exact fun e he => he.called (by decide)

theorem sound_statements (h : g.Sound depth) {c : Cursor} (hc : Readable c.pending)
    (hl : c.pending.length ≤ fuel.length) :
    (collect (return !(← sees (.endOfInput :: kinds))) g.statement fuel).Ensures c
      (fun m c' => ∃ d : Derivation .statements, d.Legal ∧ d.tree = m ∧
        c.pending = d.tokens ++ c'.pending ∧ c'.current.kind ∈ .endOfInput :: kinds)
      (Fails depth 9 c) := by
  induction fuel generalizing c with
  | nil =>
    have hp : c.pending = [] := List.eq_nil_of_length_eq_zero (Nat.le_zero.1 hl)
    exact ⟨.noStatements, trivial, rfl, rfl, by simp [Cursor.current, hp, Token.endOfInput]⟩
  | cons _ fuel ih =>
    unfold collect
    rw [ensures_bind, ensures_bind, ensures_sees, ensures_pure, ensures_ite]
    split
    · rw [ensures_bind]
      apply (h.statement c hc).mono
      · rintro first c₁ ⟨d, hd, rfl, hp, hk⟩
        obtain ⟨t, tail, ht, -⟩ := d.exists_first (by simp [Symbol.first])
        have hlength : c₁.pending.length < c.pending.length := by
          simp only [hp, ht, List.length_append, List.length_cons]
          omega
        simp only [List.length_cons] at hl
        rw [ensures_bind]
        apply (ih (hc.drop hp) (by omega)).mono
        · rintro rest c₂ ⟨more, hm, rfl, hp₁, hk₁⟩
          refine ⟨.moreStatements d more, ⟨hd, hm, ?_⟩, rfl, ?_, hk₁⟩
          · intro he u hu
            cases hmore : more.tokens with
            | nil => simp [hmore] at hu
            | cons v tail =>
              rw [hmore] at hp₁ hu
              have hv := c₁.current_of_pending hp₁
              cases hu
              exact hv ▸ hk he
          · simp [Derivation.tokens, hp, hp₁]
        · exact fun e he => he.later (by omega)
      · exact fun e he => he
    · next hk =>
      refine ⟨.noStatements, trivial, rfl, rfl, ?_⟩
      rw [Bool.not_eq_true', Bool.not_eq_false, List.contains_iff_mem] at hk
      exact hk

theorem sound_statement (h : g.Sound depth) : Sound (depth + 1) 9 .statement (statement g) := by
  intro c hc
  unfold statement
  rw [ensures_bind, ensures_sees, ensures_ite]
  split
  · next hk =>
    apply (h.declaration c hc (by simpa using hk)).mono
    · exact fun _ _ hy => hy
    · exact fun e he => he.called (by decide)
  · rw [ensures_bind, ensures_sees, ensures_ite]
    split
    · next hk =>
      apply (h.function c hc (by simpa using hk)).mono
      · exact fun _ _ hy => hy
      · exact fun e he => he.called (by decide)
    · apply (h.expression c hc).mono
      · rintro m c₁ ⟨d, hd, hm, hp, hk⟩
        exact ⟨.evaluated d, hd, hm, hp, hk⟩
      · exact fun e he => he.called (by decide)

theorem sound_declaration (h : g.Sound depth) {c : Cursor} (hc : Readable c.pending)
    (hk : c.current.kind = .letWord ∨ c.current.kind = .constWord) :
    (declaration g).Ensures c (Yields .statement c) (Fails (depth + 1) 1 c) := by
  have hp := c.pending_eq_cons (by rcases hk with hk | hk <;> simp [hk])
  unfold declaration
  rw [ensures_bind, ensures_advance, ensures_bind]
  apply ensures_expect_terminal rfl (by decide)
  · intro name c₁ hp₁
    rw [ensures_bind, ensures_sees, ensures_ite]
    split
    · next hs =>
      rw [ensures_ite]
      split
      · exact ensures_reject.2 .unexpected
      · next hw =>
        have hw : c.current.kind = .letWord := hk.resolve_right (by simpa using hw)
        rw [ensures_bind]
        apply ensures_advance_terminal (by simpa using hs) (by decide)
        intro stop c₂ hp₂
        refine ⟨.uninitialized ⟨_, hw⟩ name stop, trivial, rfl, ?_, fun h => h.elim⟩
        rw [hp, hp₁, hp₂]
        rfl
    · rw [ensures_bind]
      apply ensures_expect_terminal rfl (by decide)
      · intro equals c₂ hp₂
        rw [ensures_bind]
        apply (h.expression c₂ (((hc.tail hp).tail hp₁).tail hp₂)).mono
        · rintro value c₃ ⟨d, hd, rfl, hp₃, -⟩
          rw [ensures_bind]
          apply ensures_expect_terminal rfl (by decide)
          · intro stop c₄ hp₄
            refine ⟨.initialized ⟨_, hk⟩ name equals d stop, hd, rfl, ?_, fun h => h.elim⟩
            rw [hp, hp₁, hp₂, hp₃, hp₄]
            simp [Derivation.tokens]
          · exact .unexpected
        · intro e he
          refine he.nested ?_ (by decide) (by decide)
          rw [hp, hp₁, hp₂]
          simp only [List.length_cons]
          omega
      · exact .unexpected
  · exact .unexpected

theorem sound_function (h : g.Sound depth) {c : Cursor} (hc : Readable c.pending)
    (hk : c.current.kind = .fnWord) :
    (function g).Ensures c (Yields .statement c) (Fails (depth + 1) 1 c) := by
  unfold function
  rw [ensures_bind]
  apply ensures_advance_terminal hk (by decide)
  intro word c₁ hp
  rw [ensures_bind]
  apply ensures_expect_terminal rfl (by decide)
  · intro name c₂ hp₁
    rw [ensures_bind, ensures_sees, ensures_ite]
    split
    · rw [ensures_bind]
      apply (h.params c₂ ((hc.tail hp).tail hp₁)).mono
      · rintro params c₃ ⟨d, hd, rfl, hp₂, -⟩
        rw [ensures_bind]
        apply ensures_expect_terminal rfl (by decide)
        · intro opening c₄ hp₃
          have hc₄ := (((hc.tail hp).tail hp₁).drop hp₂).tail hp₃
          unfold manyUntil many
          rw [ensures_bind, ensures_bind, ensures_get]
          apply (sound_statements h hc₄ (Nat.le_refl _)).mono
          · rintro body c₅ ⟨ss, hss, rfl, hp₄, -⟩
            rw [ensures_bind]
            apply ensures_expect_terminal rfl (by decide)
            · intro closing c₆ hp₅
              refine ⟨.function word name d opening ss closing, ⟨hd, hss⟩, rfl, ?_,
                fun h => h.elim⟩
              simp [Derivation.tokens, hp, hp₁, hp₂, hp₃, hp₄, hp₅]
            · exact .unexpected
          · intro e he
            refine he.nested ?_ (by decide) (by decide)
            simp only [hp, hp₁, hp₂, hp₃, List.length_append, List.length_cons]
            omega
        · exact .unexpected
      · intro e he
        refine he.nested ?_ (by decide) (by decide)
        simp only [hp, hp₁, List.length_cons]
        omega
    · exact ensures_reject.2 .unexpected
  · exact .unexpected

end Rules

namespace Grammar

theorem Sound.next {g : Grammar} (h : g.Sound depth) : g.next.Sound (depth + 1) where
  statement := Rules.sound_statement h
  declaration _ hc hk := Rules.sound_declaration h hc hk
  function _ hc hk := Rules.sound_function h hc hk
  params := Rules.sound_params h
  param := Rules.sound_param h
  expression := Rules.sound_expression h
  assignment := Rules.sound_assignment h
  object := Rules.sound_object h
  sum := Rules.sound_sum h
  product := Rules.sound_product h
  callOrMember := Rules.sound_callOrMember h
  call callee _ hc := Rules.sound_call h callee hc
  arguments := Rules.sound_arguments h
  member := Rules.sound_member h
  primary := Rules.sound_primary h

theorem sound_exhausted : exhausted.Sound 0 where
  statement _ _ := .exhausted
  declaration _ _ _ := .exhausted
  function _ _ _ := .exhausted
  params _ _ := .exhausted
  param _ _ := .exhausted
  expression _ _ := .exhausted
  assignment _ _ := .exhausted
  object _ _ := .exhausted
  sum _ _ := .exhausted
  product _ _ := .exhausted
  callOrMember _ _ := .exhausted
  call _ _ _ := .exhausted
  arguments _ _ := .exhausted
  member _ _ := .exhausted
  primary _ _ := .exhausted

theorem sound_ofDepth (depth : Nat) : (ofDepth depth).Sound depth := by
  induction depth with
  | zero => exact sound_exhausted
  | succ depth ih => exact ih.next

theorem ensures_program (depth : Nat) {c : Cursor} (hc : Readable c.pending) :
    (ofDepth depth).program.Ensures c
      (fun m c' => ∃ d : Derivation .statements, d.Legal ∧ .program d.tree = m ∧
        c.pending = d.tokens ++ c'.pending ∧ c'.current.kind = .endOfInput)
      (Fails depth 10 c) := by
  cases depth with
  | zero => exact .exhausted
  | succ depth =>
    unfold ofDepth next Rules.program Parser.manyUntil Parser.many
    rw [Parser.ensures_bind, Parser.ensures_bind, Parser.ensures_get]
    apply (Rules.sound_statements (sound_ofDepth depth) hc (Nat.le_refl _)).mono
    · rintro m c' ⟨d, hd, rfl, hp, hk⟩
      exact ⟨d, hd, rfl, hp, by simpa using hk⟩
    · exact fun e he => he.called (by decide)

end Grammar

end Ember
