import Ember.Proofs.Soundness
import Ember.Proofs.Unambiguity

/-!
What is derived is returned: a rule that stands before the tokens of a derivation of its symbol,
with nothing after them that goes on with it, takes these tokens and returns the derivation's
meaning if the derivation nests no deeper than rules may, and is too deep otherwise.
-/

namespace Ember

set_option autoImplicit true

namespace Parser

/-- A parser returned `a` before `rest`, and the depth was enough. -/
structure Returned (needed depth : Nat) (a : α) (rest : List Token) (m : α) (c : Cursor) :
    Prop where
  fits : needed ≤ depth
  value : m = a
  pending : c.pending = rest

structure Exceeded (needed depth : Nat) (e : ParseError) : Prop where
  exceeds : depth < needed
  error : e = .tooDeep

variable {c : Cursor} {needed depth : Nat}

/-- What goes on after a rule that returned need only be shown where the depth was enough. -/
theorem Ensures.within {p : Parser α} {a : α} {post : α → Cursor → Prop}
    (h : p.Ensures c (Returned n d a rest) (Exceeded n d)) (hn : d < n → depth < needed)
    (hpost : ∀ c', c'.pending = rest → n ≤ d → post a c') :
    p.Ensures c post (Exceeded needed depth) := by
  apply h.mono
  · rintro _ c' ⟨hfits, rfl, hp⟩
    exact hpost c' hp hfits
  · rintro _ ⟨hexceeds, he⟩
    exact ⟨hn hexceeds, he⟩

/-- A rule that ends with another one needs the depth of that one. -/
theorem Ensures.resize {p : Parser α} {a : α}
    (h : p.Ensures c (Returned n d a rest) (Exceeded n d)) (hn : n ≤ d ↔ needed ≤ depth) :
    p.Ensures c (Returned needed depth a rest) (Exceeded needed depth) :=
  h.within (by omega) fun _ hp hfits => ⟨hn.1 hfits, rfl, hp⟩

end Parser

open Ember.Parser (Returned Exceeded)

/-- A rule that returns the derivations of a symbol that nest no deeper than `depth`. -/
def Accepts (s : Symbol) (depth : Nat) (p : Parser s.Meaning) : Prop :=
  ∀ (d : Derivation s) (c : Cursor) (rest : List Token), d.Legal → Readable c.pending →
    c.pending = d.tokens ++ rest → d.Stops rest →
    p.Ensures c (Returned d.nesting depth d.tree rest) (Exceeded d.nesting depth)

structure Grammar.Accepting (g : Grammar) (depth : Nat) : Prop where
  statement : Accepts .statement depth g.statement
  declaration : ∀ (d : Derivation .statement) (c : Cursor) (rest : List Token), d.Legal →
    Readable c.pending → c.pending = d.tokens ++ rest →
    c.current.kind = .letWord ∨ c.current.kind = .constWord →
    g.declaration.Ensures c (Returned d.nesting (depth + 1) d.tree rest)
      (Exceeded d.nesting (depth + 1))
  function : ∀ (d : Derivation .statement) (c : Cursor) (rest : List Token), d.Legal →
    Readable c.pending → c.pending = d.tokens ++ rest → c.current.kind = .fnWord →
    g.function.Ensures c (Returned d.nesting (depth + 1) d.tree rest)
      (Exceeded d.nesting (depth + 1))
  params : Accepts (.tuple .parameter) depth g.params
  param : Accepts (.item .parameter) depth g.param
  expression : ∀ (d : Derivation .expression) (c : Cursor) (rest : List Token), d.Legal →
    Readable c.pending → c.pending = d.tokens ++ rest → d.Stops rest →
    g.expression.Ensures c (Returned (d.nesting + 1) depth d.tree rest)
      (Exceeded (d.nesting + 1) depth)
  assignment : Accepts .expression depth g.assignment
  object : Accepts .object depth g.object
  sum : Accepts (.chain .sum) depth g.sum
  product : Accepts (.chain .product) depth g.product
  callOrMember : Accepts .call depth g.callOrMember
  call : ∀ (callee : Node) (arguments : Derivation (.tuple .argument)) (more : Derivation .calls)
    (c : Cursor) (rest : List Token), arguments.Legal → more.Legal → Readable c.pending →
    c.pending = arguments.tokens ++ (more.tokens ++ rest) → more.Stops rest →
    (g.call callee).Ensures c
      (Returned (max arguments.nesting more.nesting + 1) depth
        (more.tree (.call callee arguments.tree)) rest)
      (Exceeded (max arguments.nesting more.nesting + 1) depth)
  arguments : Accepts (.tuple .argument) depth g.arguments
  member : Accepts .member depth g.member
  primary : Accepts .primary depth g.primary

namespace Cursor

variable {c : Cursor}

theorem current_of_head {p : Token → Prop} (hp : c.pending = rest) (h : ∀ t ∈ rest.head?, p t)
    (hend : ∀ position, p (.endOfInput position)) : p c.current := by
  cases rest with
  | nil =>
    rw [current, hp]
    exact hend _
  | cons t rest =>
    rw [c.current_of_pending hp]
    exact h t rfl

end Cursor

namespace Parser

variable {c : Cursor} {fails : ParseError → Prop} {post : Token → Cursor → Prop}

theorem ensures_advance_pending (hp : c.pending = t :: rest)
    (hpost : ∀ c', c'.pending = rest → post t c') : Ensures advance c post fails := by
  rw [ensures_advance, c.current_of_pending hp]
  exact hpost _ (by simp [hp])

theorem ensures_expect_pending {t : Terminal k} (he : e.kind? = some k)
    (hp : c.pending = t.token :: rest) (hpost : ∀ c', c'.pending = rest → post t.token c') :
    Ensures (expect e) c post fails := by
  rw [ensures_expect, c.current_of_pending hp, if_pos (by rw [he, t.isKind])]
  exact hpost _ (by simp [hp])

theorem ensures_sees_pending {post : Bool → Cursor → Prop} (hp : c.pending = t :: rest)
    (hpost : post (kinds.contains t.kind) c) : Ensures (sees kinds) c post fails := by
  rw [ensures_sees, c.current_of_pending hp]
  exact hpost

end Parser

namespace Rules

open Ember.Parser Ember.Derivation

variable {g : Grammar}

theorem accepts_expression (h : g.Accepting depth) (d : Derivation .expression) {c : Cursor}
    (hd : d.Legal) (hc : Readable c.pending) (hp : c.pending = d.tokens ++ rest)
    (hs : d.Stops rest) :
    (expression g).Ensures c (Returned (d.nesting + 1) (depth + 1) d.tree rest)
      (Exceeded (d.nesting + 1) (depth + 1)) :=
  (h.assignment d c rest hd hc hp hs).resize (by omega)

theorem accepts_assignment (h : g.Accepting depth) :
    Accepts .expression (depth + 1) (assignment g) := by
  intro d c rest hd hc hp hs
  unfold assignment
  rw [ensures_bind]
  cases d with
  | plain o =>
    rw [nesting]
    apply (h.object o c rest hd hc hp (stops_plain hs)).within (by omega)
    intro c₁ hp₁ hn₁
    have hk : c₁.current.kind ≠ .equals := by
      apply Cursor.current_of_head (p := fun t => t.kind ≠ .equals) hp₁
      · exact fun t ht hk => hs t ht (.inl hk)
      · simp [Token.endOfInput]
    rw [ensures_bind, ensures_sees, ensures_ite, if_neg (by simpa using hk)]
    exact ⟨by omega, rfl, hp₁⟩
  | assigned o equals value stop =>
    rw [nesting]
    simp only [tokens, List.append_assoc, List.cons_append, List.nil_append] at hp
    apply (h.object o c _ hd.1 hc hp (o.stops_equals equals.isKind)).within (by omega)
    intro c₁ hp₁ hn₁
    have hc₁ := hp₁ ▸ hc.drop hp
    rw [ensures_bind]
    apply ensures_sees_pending hp₁
    rw [ensures_ite, if_pos (by simp [equals.isKind]), ensures_bind]
    apply ensures_advance_pending hp₁
    intro c₂ hp₂
    rw [ensures_bind]
    apply (h.assignment value c₂ _ hd.2 (hp₂ ▸ hc₁.tail hp₁) hp₂
      (value.stops_of_kind (by simp [continuingKinds, stop.isKind]))).within (by omega)
    intro c₃ hp₃ hn₃
    rw [ensures_bind]
    apply ensures_expect_pending rfl hp₃
    intro c₄ hp₄
    exact ⟨by omega, rfl, hp₄⟩

theorem accepts_operations {operand : Parser Node} (ho : Accepts (.operand level) depth operand)
    {more : Derivation (.operations level)} {c : Cursor} (hm : more.Legal)
    (hc : Readable c.pending) (hp : c.pending = more.tokens ++ rest) (hs : more.Stops rest)
    (hl : c.pending.length ≤ fuel.length) :
    (iterate (seesOperator level.operators) (fun left => do
      let operator := (← advance).text
      let right ← operand
      pure (.binary left right operator)) fuel left).Ensures c
      (Returned more.nesting depth (more.tree left) rest) (Exceeded more.nesting depth) := by
  induction fuel generalizing c left more with
  | nil =>
    cases more with
    | noOperations => exact ⟨Nat.zero_le _, rfl, hp⟩
    | moreOperations => simp [hp, tokens] at hl
  | cons _ fuel ih =>
    unfold iterate
    rw [ensures_bind, ensures_seesOperator, ensures_ite]
    cases more with
    | noOperations =>
      rw [if_neg]
      · exact ⟨Nat.zero_le _, rfl, hp⟩
      · apply Cursor.current_of_head
          (p := fun t => ¬(t.kind == .operator && level.operators.contains t.text) = true) hp
        · intro t ht hk
          simp only [Bool.and_eq_true, beq_iff_eq, List.contains_iff_mem] at hk
          obtain ⟨tail, rfl⟩ := List.head?_eq_some_iff.1 ht
          exact not_operator ⟨t, hk.1, hk.2⟩ hs
        · simp [Token.endOfInput]
    | moreOperations operator d more =>
      rw [nesting]
      simp only [tokens, List.cons_append, List.append_assoc] at hp
      have hr := (stops_operations_iff more).2 ((stops_operations_iff _).1 hs)
      rw [c.current_of_pending hp, if_pos (by simp [operator.isOperator, operator.isOfLevel]),
        ensures_bind, ensures_bind]
      apply ensures_advance_pending hp
      intro c₁ hp₁
      rw [ensures_bind]
      apply (ho d c₁ _ hm.1 (hp₁ ▸ hc.tail hp) hp₁ (d.stops_operations more hr)).within (by omega)
      intro c₂ hp₂ hn₂
      rw [hp] at hl
      simp only [List.length_cons, List.length_append] at hl
      rw [ensures_pure]
      apply (ih hm.2 (hp₂ ▸ (hc.tail hp).drop rfl) hp₂ hr
        (by simp only [hp₂, List.length_append]; omega)).resize
      omega

theorem accepts_chain {operand : Parser Node} (ho : Accepts (.operand level) depth operand) :
    Accepts (.chain level) (depth + 1) (chain level.operators operand) := by
  intro d c rest hd hc hp hs
  cases d with
  | chain first more =>
    rw [nesting]
    have hr := (stops_operations_iff more).2 ((stops_chain_iff _).1 hs)
    rw [tokens, List.append_assoc] at hp
    unfold chain
    rw [ensures_bind]
    apply (ho first c _ hd.1 hc hp (first.stops_operations more hr)).within (by omega)
    intro c₁ hp₁ hn₁
    unfold loop
    rw [ensures_bind, ensures_get]
    exact (accepts_operations ho hd.2 (hp₁ ▸ hc.drop hp) hp₁ hr (Nat.le_refl _)).resize (by omega)

theorem accepts_sum (h : g.Accepting depth) :
    Accepts (.chain .sum) (depth + 1) (sum g) := by
  have ho : Accepts (.operand .sum) depth g.product := by
    intro d c rest hd hc hp hs
    cases d with
    | term e => exact h.product e c rest hd hc hp ((stops_chain_iff e).2 hs)
  exact accepts_chain ho

theorem accepts_product (h : g.Accepting depth) :
    Accepts (.chain .product) (depth + 1) (product g) := by
  have ho : Accepts (.operand .product) depth g.callOrMember := by
    intro d c rest hd hc hp hs
    cases d with
    | factor e => exact h.callOrMember e c rest hd hc hp ((stops_call_iff e).2 hs)
  exact accepts_chain ho

theorem accepts_calls (h : g.Accepting depth) {more : Derivation .calls} {c : Cursor} (hm : more.Legal)
    (hc : Readable c.pending) (hp : c.pending = more.tokens ++ rest) (hs : more.Stops rest) :
    (do if ← sees [.leftParen] then g.call callee else pure callee : Parser Node).Ensures c
      (Returned more.nesting depth (more.tree callee) rest) (Exceeded more.nesting depth) := by
  rw [ensures_bind]
  cases more with
  | noCalls =>
    have hk : c.current.kind ≠ .leftParen := by
      apply Cursor.current_of_head (p := fun t => t.kind ≠ .leftParen) hp
      · exact fun t ht hk => hs t ht (.inl hk)
      · simp [Token.endOfInput]
    rw [ensures_sees, ensures_ite, if_neg (by simpa using hk)]
    exact ⟨Nat.zero_le _, rfl, hp⟩
  | moreCalls arguments more =>
    rw [nesting]
    obtain ⟨t, tail, ht, hk⟩ := arguments.exists_first (by simp [Symbol.first])
    rw [tokens, List.append_assoc] at hp
    apply ensures_sees_pending (hp.trans (by rw [ht]; rfl))
    rw [ensures_ite, if_pos (by simpa [Symbol.first] using hk)]
    exact h.call callee arguments more c rest hm.1 hm.2 hc hp
      ((stops_calls_iff more).2 ((stops_calls_iff _).1 hs))

theorem accepts_callOrMember (h : g.Accepting depth) :
    Accepts .call (depth + 1) (callOrMember g) := by
  intro d c rest hd hc hp hs
  cases d with
  | call callee more =>
    rw [nesting]
    rw [tokens, List.append_assoc] at hp
    have hr := (stops_calls_iff more).2 ((stops_call_iff _).1 hs)
    unfold callOrMember
    rw [ensures_bind]
    apply (h.member callee c _ hd.1 hc hp (callee.stops_calls more hr)).within (by omega)
    intro c₁ hp₁ hn₁
    exact (accepts_calls h hd.2 (hp₁ ▸ hc.drop hp) hp₁ hr).resize (by omega)

theorem accepts_call (h : g.Accepting depth) (callee : Node) (arguments : Derivation (.tuple .argument))
    (more : Derivation .calls) {c : Cursor} (ha : arguments.Legal) (hm : more.Legal)
    (hc : Readable c.pending) (hp : c.pending = arguments.tokens ++ (more.tokens ++ rest))
    (hs : more.Stops rest) :
    (call g callee).Ensures c
      (Returned (max arguments.nesting more.nesting + 1) (depth + 1)
        (more.tree (.call callee arguments.tree)) rest)
      (Exceeded (max arguments.nesting more.nesting + 1) (depth + 1)) := by
  unfold call
  rw [ensures_bind]
  apply (h.arguments arguments c _ ha hc hp arguments.stops_tuple).within (by omega)
  intro c₁ hp₁ hn₁
  exact (accepts_calls h hm (hp₁ ▸ hc.drop hp) hp₁ hs).resize (by omega)

theorem accepts_items {item : Parser i.Meaning} (hi : Accepts (.item i) depth item)
    {more : Derivation (.items i)} {c : Cursor} (hm : more.Legal) (hc : Readable c.pending)
    (hp : c.pending = more.tokens ++ rest) (hs : more.Stops rest)
    (hl : c.pending.length ≤ fuel.length) :
    (collect (sees [.comma]) (do
      let _ ← advance
      item) fuel).Ensures c
      (Returned more.nesting depth more.tree rest) (Exceeded more.nesting depth) := by
  induction fuel generalizing c more with
  | nil =>
    cases more with
    | noItems => exact ⟨Nat.zero_le _, rfl, hp⟩
    | moreItems => simp [hp, tokens] at hl
  | cons _ fuel ih =>
    unfold collect
    rw [ensures_bind, ensures_sees, ensures_ite]
    cases more with
    | noItems =>
      rw [if_neg]
      · exact ⟨Nat.zero_le _, rfl, hp⟩
      · apply Cursor.current_of_head (p := fun t => ¬[TokenKind.comma].contains t.kind = true) hp
        · intro t ht
          simp [(stops_items_iff _).1 hs t ht]
        · simp [Token.endOfInput]
    | moreItems comma d more =>
      rw [nesting]
      simp only [tokens, List.cons_append, List.append_assoc] at hp
      have hr := (stops_items_iff more).2 ((stops_items_iff _).1 hs)
      rw [c.current_of_pending hp, if_pos (by simp [comma.isKind]), ensures_bind, ensures_bind]
      apply ensures_advance_pending hp
      intro c₁ hp₁
      apply (hi d c₁ _ hm.1 (hp₁ ▸ hc.tail hp) hp₁ (d.stops_items more hr)).within (by omega)
      intro c₂ hp₂ hn₂
      rw [hp] at hl
      simp only [List.length_cons, List.length_append] at hl
      rw [ensures_bind]
      apply (ih hm.2 (hp₂ ▸ (hc.tail hp).drop rfl) hp₂ hr
        (by simp only [hp₂, List.length_append]; omega)).within (by omega)
      intro c₃ hp₃ hn₃
      exact ⟨by omega, rfl, hp₃⟩

theorem accepts_parenthesized {item : Parser i.Meaning} (hi : Accepts (.item i) depth item)
    (ho : opening.kind? = some .leftParen) (hcl : closing.kind? = some .rightParen) :
    Accepts (.tuple i) (depth + 1) (Parser.parenthesized opening closing item) := by
  intro d c rest hd hc hp hs
  unfold Parser.parenthesized
  rw [ensures_bind]
  cases d with
  | emptyTuple left right =>
    rw [nesting]
    apply ensures_expect_pending ho hp
    intro c₁ hp₁
    rw [ensures_bind]
    apply ensures_sees_pending hp₁
    rw [ensures_ite, if_pos (by simp [right.isKind]), ensures_bind]
    apply ensures_expect_pending hcl hp₁
    intro c₂ hp₂
    exact ⟨by omega, rfl, hp₂⟩
  | tuple left first more right =>
    rw [nesting]
    simp only [tokens, List.cons_append, List.append_assoc, List.nil_append] at hp
    have hr := more.stops_closing right rest
    apply ensures_expect_pending ho hp
    intro c₁ hp₁
    obtain ⟨t, tail, ht, hk⟩ := first.exists_first (by simp [Symbol.first])
    rw [ensures_bind]
    apply ensures_sees_pending (hp₁.trans (by rw [ht]; rfl))
    have hk : t.kind ≠ .rightParen := by
      intro he
      rw [he] at hk
      simp [Symbol.first, operandKinds] at hk
    rw [ensures_ite, if_neg (by simpa using hk), ensures_bind]
    have hc₁ := hp₁ ▸ hc.tail hp
    apply (hi first c₁ _ hd.1 hc₁ hp₁ (first.stops_items more hr)).within (by omega)
    intro c₂ hp₂ hn₂
    unfold many
    rw [ensures_bind, ensures_bind, ensures_get]
    apply (accepts_items hi hd.2 (hp₂ ▸ hc₁.drop hp₁) hp₂ hr (Nat.le_refl _)).within (by omega)
    intro c₃ hp₃ hn₃
    rw [ensures_bind]
    apply ensures_expect_pending hcl hp₃
    intro c₄ hp₄
    exact ⟨by omega, rfl, hp₄⟩

theorem accepts_params (h : g.Accepting depth) :
    Accepts (.tuple .parameter) (depth + 1) (params g) :=
  accepts_parenthesized h.param rfl rfl

theorem accepts_arguments (h : g.Accepting depth) :
    Accepts (.tuple .argument) (depth + 1) (arguments g) := by
  have hi : Accepts (.item .argument) depth g.assignment := by
    intro d c rest hd hc hp hs
    cases d with
    | argument e => exact h.assignment e c rest hd hc hp hs
  exact accepts_parenthesized hi rfl rfl

theorem accepts_param (h : g.Accepting depth) :
    Accepts (.item .parameter) (depth + 1) (param g) := by
  intro d c rest hd hc hp hs
  cases d with
  | parameter name e =>
    rw [nesting]
    unfold param
    rw [ensures_bind, ensures_current, ensures_bind]
    apply (h.assignment e c rest hd.1 hc hp hs).within (by omega)
    intro c₁ hp₁ hn₁
    rw [hd.2]
    exact ⟨by omega, rfl, hp₁⟩

theorem accepts_accesses (h : g.Accepting depth) {more : Derivation .accesses} {c : Cursor}
    (hm : more.Legal) (hc : Readable c.pending) (hp : c.pending = more.tokens ++ rest)
    (hs : more.Stops rest) (hl : c.pending.length ≤ fuel.length) :
    (iterate (sees [.dot, .leftBracket]) (access g) fuel owner).Ensures c
      (Returned more.nesting depth (more.tree owner) rest) (Exceeded more.nesting depth) := by
  induction fuel generalizing c owner more with
  | nil =>
    cases more with
    | noAccesses => exact ⟨Nat.zero_le _, rfl, hp⟩
    | named | computed => simp [hp, tokens] at hl
  | cons _ fuel ih =>
    unfold iterate
    rw [ensures_bind, ensures_sees, ensures_ite]
    have hr := fun more : Derivation .accesses =>
      (stops_accesses_iff more).2 ((stops_accesses_iff _).1 hs)
    cases more with
    | noAccesses =>
      rw [if_neg]
      · exact ⟨Nat.zero_le _, rfl, hp⟩
      · apply Cursor.current_of_head
          (p := fun t => ¬[TokenKind.dot, .leftBracket].contains t.kind = true) hp
        · intro t ht hk
          have hk : t.kind = .dot ∨ t.kind = .leftBracket := by simpa using hk
          exact hs t ht hk
        · simp [Token.endOfInput]
    | named dot name more =>
      rw [nesting]
      simp only [tokens, List.cons_append] at hp
      rw [c.current_of_pending hp, if_pos (by simp [dot.isKind]), ensures_bind]
      unfold access
      rw [ensures_bind]
      apply ensures_advance_pending hp
      intro c₁ hp₁
      rw [ensures_ite, if_neg (by simp [dot.isKind]), ensures_bind]
      apply ensures_expect_pending rfl hp₁
      intro c₂ hp₂
      rw [ensures_pure]
      rw [hp] at hl
      simp only [List.length_cons] at hl
      exact ih hm (hp₂ ▸ (hc.tail hp).tail rfl) hp₂ (hr more) (by rw [hp₂]; omega)
    | computed opening key closing more =>
      rw [nesting]
      simp only [tokens, List.cons_append, List.append_assoc] at hp
      rw [c.current_of_pending hp, if_pos (by simp [opening.isKind]), ensures_bind]
      unfold access
      rw [ensures_bind]
      apply ensures_advance_pending hp
      intro c₁ hp₁
      rw [ensures_ite, if_pos (by simp [opening.isKind]), ensures_bind]
      apply (h.expression key c₁ _ hm.1 (hp₁ ▸ hc.tail hp) hp₁
        (key.stops_of_kind (by simp [continuingKinds, closing.isKind]))).within (by omega)
      intro c₂ hp₂ hn₂
      rw [ensures_bind]
      apply ensures_expect_pending rfl hp₂
      intro c₃ hp₃
      rw [ensures_pure]
      rw [hp] at hl
      simp only [List.length_cons, List.length_append] at hl
      exact (ih hm.2 (hp₃ ▸ ((hc.tail hp).drop rfl).tail rfl) hp₃ (hr more)
        (by simp only [hp₃, List.length_append]; omega)).resize (by omega)

theorem accepts_member (h : g.Accepting depth) :
    Accepts .member (depth + 1) (member g) := by
  intro d c rest hd hc hp hs
  cases d with
  | member owner more =>
    rw [nesting]
    rw [tokens, List.append_assoc] at hp
    unfold member
    rw [ensures_bind]
    apply (h.primary owner c _ hd.1 hc hp owner.stops_primary).within (by omega)
    intro c₁ hp₁ hn₁
    unfold loop
    rw [ensures_bind, ensures_get]
    exact (accepts_accesses h hd.2 (hp₁ ▸ hc.drop hp) hp₁ ((stops_accesses_iff more).2 hs)
      (Nat.le_refl _)).resize (by omega)

theorem accepts_primary (h : g.Accepting depth) :
    Accepts .primary (depth + 1) (primary g) := by
  intro d c rest hd hc hp hs
  unfold primary
  rw [ensures_bind, ensures_current]
  cases d with
  | identifier t =>
    rw [nesting]
    rw [c.current_of_pending hp, t.isKind, ensures_bind]
    apply ensures_advance_pending hp
    intro c₁ hp₁
    exact ⟨by omega, rfl, hp₁⟩
  | number t =>
    rw [nesting]
    have hdigits := hc t.token (by rw [hp]; exact List.mem_cons_self) t.isKind
    rw [c.current_of_pending hp, t.isKind, ensures_bind]
    apply ensures_advance_pending hp
    intro c₁ hp₁
    rw [Numeral.read?_eq_value hdigits]
    exact ⟨by omega, rfl, hp₁⟩
  | string t =>
    rw [nesting]
    rw [c.current_of_pending hp, t.isKind, ensures_bind]
    apply ensures_advance_pending hp
    intro c₁ hp₁
    exact ⟨by omega, rfl, hp₁⟩
  | parenthesized opening e closing =>
    rw [nesting]
    simp only [tokens, List.cons_append, List.append_assoc, List.nil_append] at hp
    rw [c.current_of_pending hp, opening.isKind, ensures_bind]
    apply ensures_advance_pending hp
    intro c₁ hp₁
    rw [ensures_bind]
    apply (h.expression e c₁ _ hd (hp₁ ▸ hc.tail hp) hp₁
      (e.stops_of_kind (by simp [continuingKinds, closing.isKind]))).within (by omega)
    intro c₂ hp₂ hn₂
    rw [ensures_bind]
    apply ensures_expect_pending rfl hp₂
    intro c₃ hp₃
    exact ⟨by omega, rfl, hp₃⟩

/-- A property takes the comma after it and leaves the brace. -/
theorem accepts_property (h : g.Accepting depth) (d : Derivation .property) {c : Cursor} (hd : d.Legal)
    (hc : Readable c.pending) (hp : c.pending = d.tokens ++ t :: rest)
    (hk : t.kind = .comma ∨ t.kind = .rightBrace) :
    (property g).Ensures c
      (Returned d.nesting depth d.tree (if t.kind = .comma then rest else t :: rest))
      (Exceeded d.nesting depth) := by
  unfold property
  rw [ensures_bind]
  cases d with
  | shorthand key =>
    rw [nesting]
    apply ensures_expect_pending rfl hp
    intro c₁ hp₁
    rw [ensures_bind]
    apply ensures_sees_pending hp₁
    rcases hk with hk | hk
    · rw [ensures_ite, if_pos (by simp [hk]), ensures_bind]
      apply ensures_advance_pending hp₁
      intro c₂ hp₂
      exact ⟨by omega, rfl, by rw [if_pos hk, hp₂]⟩
    · rw [ensures_ite, if_neg (by simp [hk]), ensures_bind]
      apply ensures_sees_pending hp₁
      rw [ensures_ite, if_pos (by simp [hk])]
      exact ⟨by omega, rfl, by rw [if_neg (by simp [hk]), hp₁]; rfl⟩
  | keyed key colon value =>
    rw [nesting]
    simp only [tokens, List.cons_append] at hp
    apply ensures_expect_pending rfl hp
    intro c₁ hp₁
    rw [ensures_bind]
    apply ensures_sees_pending hp₁
    rw [ensures_ite, if_neg (by simp [colon.isKind]), ensures_bind]
    apply ensures_sees_pending hp₁
    rw [ensures_ite, if_neg (by simp [colon.isKind]), ensures_bind]
    apply ensures_expect_pending rfl hp₁
    intro c₂ hp₂
    rw [ensures_bind]
    have hs : value.Stops (t :: rest) := by
      apply value.stops_of_kind
      rcases hk with hk | hk <;> simp [continuingKinds, hk]
    apply (h.expression value c₂ _ hd (hp₂ ▸ (hc.tail hp).tail rfl) hp₂ hs).within (by omega)
    intro c₃ hp₃ hn₃
    rw [ensures_bind]
    apply ensures_sees_pending hp₃
    rcases hk with hk | hk
    · rw [ensures_ite, if_neg (by simp [hk]), ensures_bind]
      apply ensures_expect_pending (t := ⟨t, hk⟩) rfl hp₃
      intro c₄ hp₄
      exact ⟨by omega, rfl, by rw [if_pos hk, hp₄]⟩
    · rw [ensures_ite, if_pos (by simp [hk])]
      exact ⟨by omega, rfl, by rw [if_neg (by simp [hk]), hp₃]⟩

theorem accepts_properties (h : g.Accepting depth) {d : Derivation .properties} {c : Cursor}
    (closing : Terminal .rightBrace) (hd : d.Legal) (hc : Readable c.pending)
    (hp : c.pending = d.tokens ++ closing.token :: rest) (hl : c.pending.length ≤ fuel.length) :
    (collect (return !(← sees [.endOfInput, .rightBrace])) (property g) fuel).Ensures c
      (Returned d.nesting depth d.tree (closing.token :: rest)) (Exceeded d.nesting depth) := by
  induction fuel generalizing c d with
  | nil => simp [hp] at hl
  | cons _ fuel ih =>
    unfold collect
    rw [ensures_bind, ensures_bind]
    -- A property stands here, since neither the brace nor the end of input starts one.
    have hfirst : ∀ (p : Derivation .property) {tail : List Token},
        c.pending = p.tokens ++ tail →
          ¬[TokenKind.endOfInput, .rightBrace].contains c.current.kind ∧
          tail.length + 1 ≤ c.pending.length := by
      intro p tail htail
      obtain ⟨t, tail', ht, hk⟩ := p.exists_first (by simp [Symbol.first])
      rw [ht] at htail
      have hk : t.kind = .identifier := by simpa [Symbol.first] using hk
      rw [c.current_of_pending htail, htail]
      exact ⟨by simp [hk], by simp⟩
    cases d with
    | noProperties =>
      apply ensures_sees_pending hp
      rw [ensures_pure, ensures_ite, if_neg (by simp [closing.isKind])]
      exact ⟨Nat.zero_le _, rfl, hp⟩
    | lastProperty p =>
      rw [nesting]
      obtain ⟨hk, hlength⟩ := hfirst p hp
      rw [ensures_sees, ensures_pure, ensures_ite, if_pos (by simpa using hk), ensures_bind]
      apply (accepts_property h p hd hc hp (.inr closing.isKind)).within (by omega)
      intro c₁ hp₁ hn₁
      rw [if_neg (by simp [closing.isKind])] at hp₁
      simp only [List.length_cons] at hl hlength
      rw [ensures_bind]
      apply (ih (d := .noProperties) trivial (hp₁ ▸ hc.drop hp) hp₁
        (by rw [hp₁]; simp only [List.length_cons]; omega)).within (by simp [nesting])
      intro c₂ hp₂ _
      exact ⟨by omega, rfl, hp₂⟩
    | moreProperties p comma ps =>
      rw [nesting]
      simp only [tokens, List.append_assoc, List.cons_append] at hp
      obtain ⟨hk, hlength⟩ := hfirst p hp
      rw [ensures_sees, ensures_pure, ensures_ite, if_pos (by simpa using hk), ensures_bind]
      apply (accepts_property h p hd.1 hc hp (.inl comma.isKind)).within (by omega)
      intro c₁ hp₁ hn₁
      rw [if_pos comma.isKind] at hp₁
      simp only [List.length_cons] at hl hlength
      rw [ensures_bind]
      apply (ih hd.2 (hp₁ ▸ (hc.drop hp).tail rfl) hp₁ (by rw [hp₁]; omega)).within (by omega)
      intro c₂ hp₂ hn₂
      exact ⟨by omega, rfl, hp₂⟩

theorem accepts_object (h : g.Accepting depth) :
    Accepts .object (depth + 1) (object g) := by
  intro d c rest hd hc hp hs
  unfold object
  rw [ensures_bind]
  cases d with
  | braces opening ps closing =>
    rw [nesting]
    simp only [tokens, List.cons_append, List.append_assoc, List.nil_append] at hp
    apply ensures_sees_pending hp
    rw [ensures_ite, if_pos (by simp [opening.isKind]), ensures_bind]
    apply ensures_advance_pending hp
    intro c₁ hp₁
    unfold manyUntil many
    rw [ensures_bind, ensures_bind, ensures_get]
    apply (accepts_properties h closing hd (hp₁ ▸ hc.tail hp) hp₁ (Nat.le_refl _)).within (by omega)
    intro c₂ hp₂ hn₂
    rw [ensures_bind]
    apply ensures_expect_pending rfl hp₂
    intro c₃ hp₃
    exact ⟨by omega, rfl, hp₃⟩
  | sum e =>
    rw [nesting]
    obtain ⟨t, tail, ht, hk⟩ := e.exists_first (by simp [Symbol.first, operandKinds])
    have hk : t.kind ≠ .leftBrace := by
      intro he
      rw [he] at hk
      exact absurd hk (by decide)
    apply ensures_sees_pending (hp.trans (by rw [tokens, ht]; rfl))
    rw [ensures_ite, if_neg (by simpa using hk)]
    exact (h.sum e c rest hd hc hp ((stops_chain_iff e).2 hs)).resize (by omega)

theorem accepts_statements (h : g.Accepting depth) {d : Derivation .statements} {c : Cursor}
    (hkinds : ∀ k ∈ kinds, k = .rightBrace) (hd : d.Legal) (hc : Readable c.pending)
    (hp : c.pending = d.tokens ++ rest) (hs : ∀ t ∈ rest.head?, t.kind ∈ .endOfInput :: kinds)
    (hl : c.pending.length ≤ fuel.length) :
    (collect (return !(← sees (.endOfInput :: kinds))) g.statement fuel).Ensures c
      (Returned d.nesting depth d.tree rest) (Exceeded d.nesting depth) := by
  have hr : ∀ d : Derivation .statements, d.Stops rest := by
    intro d
    apply (stops_statements_iff d).2
    intro t ht
    rcases List.mem_cons.1 (hs t ht) with hk | hk
    · exact .inl hk
    · exact .inr (hkinds _ hk)
  induction fuel generalizing c d with
  | nil =>
    cases d with
    | noStatements => exact ⟨Nat.zero_le _, rfl, hp⟩
    | moreStatements s ss =>
      obtain ⟨t, tail, ht, -⟩ := s.exists_first (by simp [Symbol.first])
      simp [hp, tokens, ht] at hl
  | cons _ fuel ih =>
    unfold collect
    rw [ensures_bind, ensures_bind, ensures_sees, ensures_pure, ensures_ite]
    cases d with
    | noStatements =>
      rw [if_neg]
      · exact ⟨Nat.zero_le _, rfl, hp⟩
      · rw [Bool.not_eq_true', Bool.not_eq_false, List.contains_iff_mem]
        apply Cursor.current_of_head (p := fun t => t.kind ∈ .endOfInput :: kinds) hp
        · exact hs
        · exact fun _ => List.mem_cons_self
    | moreStatements s ss =>
      rw [nesting]
      obtain ⟨t, tail, ht, hk⟩ := s.exists_first (by simp [Symbol.first])
      have hk : t.kind ∉ .endOfInput :: kinds := by
        intro hm
        rcases List.mem_cons.1 hm with he | he
        · rw [he] at hk
          exact absurd hk (by decide)
        · rw [hkinds _ he] at hk
          exact absurd hk (by decide)
      rw [tokens, List.append_assoc] at hp
      have hlength : ss.tokens.length + rest.length < c.pending.length := by
        rw [hp, ht]
        simp only [List.length_cons, List.length_append]
        omega
      rw [c.current_of_pending (hp.trans (by rw [ht]; rfl)),
        if_pos (by rwa [Bool.not_eq_true', ← Bool.not_eq_true, List.contains_iff_mem]),
        ensures_bind]
      apply (h.statement s c _ hd.1 hc hp (s.stops_statements ss hd.2.2 (hr ss))).within (by omega)
      intro c₁ hp₁ hn₁
      simp only [List.length_cons] at hl
      rw [ensures_bind]
      apply (ih hd.2.1 (hp₁ ▸ hc.drop hp) hp₁
        (by simp only [hp₁, List.length_append]; omega)).within (by omega)
      intro c₂ hp₂ hn₂
      exact ⟨by omega, rfl, hp₂⟩

theorem accepts_statement (h : g.Accepting depth) :
    Accepts .statement (depth + 1) (statement g) := by
  intro d c rest hd hc hp hs
  unfold statement
  rw [ensures_bind]
  cases d with
  | uninitialized word =>
    have hk := c.current_of_pending hp ▸ word.isKind
    rw [ensures_sees, ensures_ite, if_pos (by simp [hk])]
    exact h.declaration _ c rest hd hc hp (.inl hk)
  | initialized word =>
    have hk := c.current_of_pending hp ▸ word.opens
    rw [ensures_sees, ensures_ite, if_pos (by simpa using hk)]
    exact h.declaration _ c rest hd hc hp hk
  | function word =>
    have hk := c.current_of_pending hp ▸ word.isKind
    rw [ensures_sees, ensures_ite, if_neg (by simp [hk]), ensures_bind, ensures_sees, ensures_ite,
      if_pos (by simp [hk])]
    exact h.function _ c rest hd hc hp hk
  | evaluated e =>
    rw [nesting]
    obtain ⟨t, tail, ht, hk⟩ := e.exists_first (by simp [Symbol.first])
    have hne : ∀ k ∈ Symbol.first .expression, k ≠ .letWord ∧ k ≠ .constWord ∧ k ≠ .fnWord := by
      decide
    obtain ⟨hlet, hconst, hfn⟩ := hne _ hk
    rw [ensures_sees, c.current_of_pending (hp.trans (by rw [tokens, ht]; rfl)), ensures_ite,
      if_neg (by simp [hlet, hconst]), ensures_bind, ensures_sees,
      c.current_of_pending (hp.trans (by rw [tokens, ht]; rfl)), ensures_ite,
      if_neg (by simp [hfn])]
    exact (h.expression e c rest hd hc hp hs).resize (by omega)

theorem accepts_declaration (h : g.Accepting depth) (d : Derivation .statement) {c : Cursor}
    (hd : d.Legal) (hc : Readable c.pending) (hp : c.pending = d.tokens ++ rest)
    (hk : c.current.kind = .letWord ∨ c.current.kind = .constWord) :
    (declaration g).Ensures c (Returned d.nesting (depth + 2) d.tree rest)
      (Exceeded d.nesting (depth + 2)) := by
  unfold declaration
  rw [ensures_bind]
  cases d with
  | uninitialized word name stop =>
    rw [nesting]
    apply ensures_advance_pending hp
    intro c₁ hp₁
    rw [ensures_bind]
    apply ensures_expect_pending rfl hp₁
    intro c₂ hp₂
    rw [ensures_bind]
    apply ensures_sees_pending hp₂
    rw [ensures_ite, if_pos (by simp [stop.isKind]), ensures_ite, if_neg (by simp [word.isKind]),
      ensures_bind]
    apply ensures_advance_pending hp₂
    intro c₃ hp₃
    exact ⟨by omega, rfl, hp₃⟩
  | initialized word name equals value stop =>
    rw [nesting]
    simp only [tokens, List.cons_append, List.append_assoc, List.nil_append] at hp
    apply ensures_advance_pending hp
    intro c₁ hp₁
    rw [ensures_bind]
    apply ensures_expect_pending rfl hp₁
    intro c₂ hp₂
    rw [ensures_bind]
    apply ensures_sees_pending hp₂
    rw [ensures_ite, if_neg (by simp [equals.isKind]), ensures_bind]
    apply ensures_expect_pending rfl hp₂
    intro c₃ hp₃
    rw [ensures_bind]
    apply (h.expression value c₃ _ hd (hp₃ ▸ ((hc.tail hp).tail rfl).tail rfl) hp₃
      (value.stops_of_kind (by simp [continuingKinds, stop.isKind]))).within (by omega)
    intro c₄ hp₄ hn₄
    rw [ensures_bind]
    apply ensures_expect_pending rfl hp₄
    intro c₅ hp₅
    exact ⟨by omega, rfl, hp₅⟩
  | function word =>
    rw [c.current_of_pending hp, word.isKind] at hk
    exact absurd hk (by decide)
  | evaluated e =>
    rw [nesting]
    obtain ⟨t, tail, ht, hf⟩ := e.exists_first (by simp [Symbol.first])
    rw [c.current_of_pending (hp.trans (by rw [tokens, ht]; rfl))] at hk
    rcases hk with hk | hk <;> rw [hk] at hf <;> exact absurd hf (by decide)

theorem accepts_function (h : g.Accepting depth) (d : Derivation .statement) {c : Cursor}
    (hd : d.Legal) (hc : Readable c.pending) (hp : c.pending = d.tokens ++ rest)
    (hk : c.current.kind = .fnWord) :
    (function g).Ensures c (Returned d.nesting (depth + 2) d.tree rest)
      (Exceeded d.nesting (depth + 2)) := by
  cases d with
  | uninitialized word =>
    rw [c.current_of_pending hp, word.isKind] at hk
    exact absurd hk (by decide)
  | initialized word =>
    rw [c.current_of_pending hp] at hk
    have hw := word.opens
    rw [hk] at hw
    exact absurd hw (by decide)
  | evaluated e =>
    rw [nesting]
    obtain ⟨t, tail, ht, hf⟩ := e.exists_first (by simp [Symbol.first])
    rw [c.current_of_pending (hp.trans (by rw [tokens, ht]; rfl))] at hk
    rw [hk] at hf
    exact absurd hf (by decide)
  | function word name params opening body closing =>
    rw [nesting]
    simp only [tokens, List.cons_append, List.append_assoc, List.nil_append] at hp
    unfold Rules.function
    rw [ensures_bind]
    apply ensures_advance_pending hp
    intro c₁ hp₁
    rw [ensures_bind]
    apply ensures_expect_pending rfl hp₁
    intro c₂ hp₂
    obtain ⟨t, tail, ht, ho⟩ := params.exists_first (by simp [Symbol.first])
    rw [ensures_bind]
    apply ensures_sees_pending (hp₂.trans (by rw [ht]; rfl))
    rw [ensures_ite, if_pos (by simpa [Symbol.first] using ho), ensures_bind]
    have hc₂ := hp₂ ▸ (hc.tail hp).tail rfl
    apply (h.params params c₂ _ hd.1 hc₂ hp₂ params.stops_tuple).within (by omega)
    intro c₃ hp₃ hn₃
    rw [ensures_bind]
    apply ensures_expect_pending rfl hp₃
    intro c₄ hp₄
    unfold manyUntil many
    rw [ensures_bind, ensures_bind, ensures_get]
    apply (accepts_statements h (by simp) hd.2 (hp₄ ▸ (hc₂.drop hp₂).tail rfl) hp₄
      (by simp [closing.isKind]) (Nat.le_refl _)).within (by omega)
    intro c₅ hp₅ hn₅
    rw [ensures_bind]
    apply ensures_expect_pending rfl hp₅
    intro c₆ hp₆
    exact ⟨by omega, rfl, hp₆⟩

end Rules

namespace Grammar

theorem Accepting.next {g : Grammar} (h : g.Accepting depth) : g.next.Accepting (depth + 1) where
  statement := Rules.accepts_statement h
  declaration d _ _ hd hc hp hk := Rules.accepts_declaration h d hd hc hp hk
  function d _ _ hd hc hp hk := Rules.accepts_function h d hd hc hp hk
  params := Rules.accepts_params h
  param := Rules.accepts_param h
  expression d _ _ hd hc hp hs := Rules.accepts_expression h d hd hc hp hs
  assignment := Rules.accepts_assignment h
  object := Rules.accepts_object h
  sum := Rules.accepts_sum h
  product := Rules.accepts_product h
  callOrMember := Rules.accepts_callOrMember h
  call callee arguments more _ _ ha hm hc hp hs :=
    Rules.accepts_call h callee arguments more ha hm hc hp hs
  arguments := Rules.accepts_arguments h
  member := Rules.accepts_member h
  primary := Rules.accepts_primary h

theorem accepting_exhausted : exhausted.Accepting 0 where
  statement d _ _ _ _ _ _ := ⟨by cases d <;> simp [Derivation.nesting], rfl⟩
  declaration d _ _ _ _ _ _ := ⟨d.one_lt_nesting, rfl⟩
  function d _ _ _ _ _ _ := ⟨d.one_lt_nesting, rfl⟩
  params d _ _ _ _ _ _ := ⟨by cases d <;> simp [Derivation.nesting], rfl⟩
  param d _ _ _ _ _ _ := ⟨by cases d; simp [Derivation.nesting], rfl⟩
  expression _ _ _ _ _ _ _ := ⟨Nat.succ_pos _, rfl⟩
  assignment d _ _ _ _ _ _ := ⟨by cases d <;> simp [Derivation.nesting], rfl⟩
  object d _ _ _ _ _ _ := ⟨by cases d <;> simp [Derivation.nesting], rfl⟩
  sum d _ _ _ _ _ _ := ⟨by cases d; simp [Derivation.nesting], rfl⟩
  product d _ _ _ _ _ _ := ⟨by cases d; simp [Derivation.nesting], rfl⟩
  callOrMember d _ _ _ _ _ _ := ⟨by cases d; simp [Derivation.nesting], rfl⟩
  call _ _ _ _ _ _ _ _ _ _ := ⟨Nat.succ_pos _, rfl⟩
  arguments d _ _ _ _ _ _ := ⟨by cases d <;> simp [Derivation.nesting], rfl⟩
  member d _ _ _ _ _ _ := ⟨by cases d; simp [Derivation.nesting], rfl⟩
  primary d _ _ _ _ _ _ := ⟨by cases d <;> simp [Derivation.nesting], rfl⟩

theorem accepting_ofDepth (depth : Nat) : (ofDepth depth).Accepting depth := by
  induction depth with
  | zero => exact accepting_exhausted
  | succ depth ih => exact ih.next

/-- A derived program is returned as its tree if there is depth for it, and is too deep otherwise. -/
theorem parse_of_nesting (depth : Nat) {d : Derivation .program} (hd : d.Legal)
    (hr : Readable d.tokens) :
    (d.nesting ≤ depth ∧ (ofDepth depth).parse d.tokens = .ok d.tree) ∨
      (depth < d.nesting ∧ (ofDepth depth).parse d.tokens = .error .tooDeep) := by
  have hprogram : (ofDepth depth).program.Ensures (.ofTokens d.tokens)
      (fun m _ => d.nesting ≤ depth ∧ m = d.tree) (Exceeded d.nesting depth) := by
    cases d with
    | program ss stop =>
      simp only [Derivation.nesting]
      cases depth with
      | zero => exact ⟨by omega, rfl⟩
      | succ depth =>
        unfold ofDepth next Rules.program Parser.manyUntil Parser.many
        rw [Parser.ensures_bind, Parser.ensures_bind, Parser.ensures_get]
        apply (Rules.accepts_statements (accepting_ofDepth depth) (by simp) hd hr rfl
          (by simp [stop.isKind]) (Nat.le_refl _)).within (by omega)
        intro c _ hn
        exact ⟨by omega, rfl⟩
  rcases parse_cases hprogram with ⟨m, c, h, hn, rfl⟩ | ⟨e, h, hn, rfl⟩
  · exact .inl ⟨hn, h⟩
  · exact .inr ⟨hn, h⟩

theorem parse_of_derivation (depth : Nat) {d : Derivation .program} (hd : d.Legal)
    (hr : Readable d.tokens) :
    (ofDepth depth).parse d.tokens = .ok d.tree ∨
      (ofDepth depth).parse d.tokens = .error .tooDeep :=
  (parse_of_nesting depth hd hr).imp (·.2) (·.2)

end Grammar

end Ember
