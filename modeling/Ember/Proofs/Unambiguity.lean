import Ember.Proofs.Derivation

/-!
The grammar is unambiguous: tokens that nothing goes on with are read in one way.
-/

namespace Ember

set_option autoImplicit true

namespace Derivation

variable {t : Token} {rest rest' : List Token}

@[simp] theorem stops_nil (d : Derivation s) : d.Stops [] := by
  simp [Stops]

@[simp] theorem stops_cons (d : Derivation s) : d.Stops (t :: rest) ↔ ¬d.Extends t := by
  simp [Stops]

def continuingKinds : List TokenKind := [.equals, .operator, .leftParen, .dot, .leftBracket]

theorem Extends.kind_of_sum (h : Symbol.Extends (.chain .sum) t) :
    t.kind ∈ continuingKinds ∧ t.kind ≠ .equals := by
  rcases h with ⟨h, -⟩ | h | h | h <;> simp [continuingKinds, h]

theorem Extends.kind_of_object {d : Derivation .object} (h : d.Extends t) :
    t.kind ∈ continuingKinds ∧ t.kind ≠ .equals := by
  cases d with
  | braces => exact h.elim
  | sum e => exact kind_of_sum h

theorem Extends.kind {d : Derivation .expression} (h : d.Extends t) : t.kind ∈ continuingKinds := by
  cases d with
  | plain o =>
    rcases h with h | h
    · simp [continuingKinds, h]
    · exact h.kind_of_object.1
  | assigned => exact h.elim

theorem Extends.kind_of_item {d : Derivation (.item i)} (h : d.Extends t) :
    t.kind ∈ continuingKinds := by
  cases d with
  | parameter name e => exact kind (d := e) h
  | argument e => exact kind (d := e) h

theorem stops_equals (d : Derivation .object) (h : t.kind = .equals) : d.Stops (t :: rest) := by
  rw [stops_cons]
  exact fun he => he.kind_of_object.2 h

/-- An expression ends before any token that goes on with none. -/
theorem stops_of_kind (d : Derivation .expression) (h : t.kind ∉ continuingKinds) :
    d.Stops (t :: rest) := by
  rw [stops_cons]
  exact fun he => h he.kind

theorem stops_item_of_kind (d : Derivation (.item i)) (h : t.kind ∉ continuingKinds) :
    d.Stops (t :: rest) := by
  rw [stops_cons]
  exact fun he => h he.kind_of_item

theorem stops_operations (d : Derivation (.operand level)) (more : Derivation (.operations level))
    (h : more.Stops rest) : d.Stops (more.tokens ++ rest) := by
  cases more with
  | noOperations =>
    intro t ht he
    refine h t ht ?_
    cases level with
    | sum =>
      cases d
      rcases he with ⟨hk, ht⟩ | he
      · exact .inl ⟨hk, .inr ht⟩
      · exact .inr he
    | product =>
      cases d
      exact .inr he
  | moreOperations operator operand more =>
    rw [tokens, List.cons_append, stops_cons]
    cases level with
    | sum =>
      cases d
      have ho := operator.isOfLevel
      simp only [Level.operators, List.mem_cons, List.not_mem_nil, or_false] at ho
      rcases ho with ho | ho <;>
        simp [Extends, Symbol.Extends, operator.isOperator, Level.operators, ho]
    | product =>
      cases d
      simp [Extends, Symbol.Extends, operator.isOperator]

theorem stops_calls (d : Derivation .member) (more : Derivation .calls) (h : more.Stops rest) :
    d.Stops (more.tokens ++ rest) := by
  cases more with
  | noCalls =>
    cases d
    exact fun t ht he => h t ht (.inr he)
  | moreCalls arguments more =>
    obtain ⟨t, tail, ht, hk⟩ := arguments.exists_first (by simp [Symbol.first])
    have hk : t.kind = .leftParen := by simpa [Symbol.first] using hk
    cases d
    simp [tokens, ht, Extends, Symbol.Extends, hk]

theorem stops_primary (d : Derivation .primary) : d.Stops rest := by
  cases d <;> exact fun t _ he => he

theorem stops_items (d : Derivation (.item i)) (more : Derivation (.items i))
    (h : more.Stops rest) : d.Stops (more.tokens ++ rest) := by
  cases more with
  | noItems =>
    intro t ht he
    refine h t ht fun hk => ?_
    have hm := he.kind_of_item
    rw [hk] at hm
    exact absurd hm (by decide)
  | moreItems comma => exact d.stops_item_of_kind (by simp [continuingKinds, comma.isKind])

/-- No token that starts a statement goes on with an expression, but for the parenthesis. -/
theorem kind_of_first (d : Derivation .statement) (he : d.Extends t)
    (ht : t.kind ∈ Symbol.first .statement) : d.EndsInCall ∧ t.kind = .leftParen := by
  have hk : ∀ k ∈ continuingKinds, k ∈ Symbol.first .statement → k = .leftParen := by decide
  cases d with
  | uninitialized | initialized | function => exact he.elim
  | evaluated e =>
    cases e with
    | assigned => exact he.elim
    | plain o =>
      have ht := hk _ (Extends.kind (d := .plain o) he) ht
      refine ⟨?_, ht⟩
      rcases he with he | he
      · rw [he] at ht
        cases ht
      · cases o with
        | braces => exact he.elim
        | sum => trivial

theorem stops_statements (d : Derivation .statement) (more : Derivation .statements)
    (hc : d.EndsInCall → ∀ t ∈ more.tokens.head?, t.kind ≠ .leftParen) (h : more.Stops rest) :
    d.Stops (more.tokens ++ rest) := by
  cases more with
  | noStatements =>
    intro t ht he
    refine h t ht ⟨fun hk => ?_, fun hk => ?_⟩
    all_goals
      cases d with
      | uninitialized | initialized | function => exact he.elim
      | evaluated e =>
        have hm := Extends.kind (d := e) he
        rw [hk] at hm
        exact absurd hm (by decide)
  | moreStatements next more =>
    obtain ⟨t, tail, ht, hk⟩ := next.exists_first (by simp [Symbol.first])
    rw [tokens, ht] at hc ⊢
    rw [List.cons_append, List.cons_append, stops_cons]
    intro he
    obtain ⟨hd, hp⟩ := d.kind_of_first he hk
    exact hc hd t rfl hp

theorem token_inj {a b : Terminal k} (h : a.token :: rest = b.token :: rest') :
    a = b ∧ rest = rest' := by
  obtain ⟨ht, hr⟩ := List.cons.inj h
  exact ⟨Terminal.ext ht, hr⟩

theorem mem_first (d : Derivation s) (hs : s.first ≠ []) (h : t :: rest' = d.tokens ++ rest) :
    t.kind ∈ s.first := by
  obtain ⟨t', tail, ht, hk⟩ := d.exists_first hs
  rw [ht] at h
  obtain ⟨rfl, -⟩ := List.cons.inj h
  exact hk

theorem stops_tuple (d : Derivation (.tuple i)) : d.Stops rest := by
  cases d <;> exact fun t _ he => he

theorem stops_statements_iff (d : Derivation .statements) :
    d.Stops rest ↔ ∀ t ∈ rest.head?, t.kind = .endOfInput ∨ t.kind = .rightBrace := by
  cases d <;> simp [Stops, Extends, Symbol.Extends, Decidable.or_iff_not_imp_left]

theorem stops_properties_iff (d : Derivation .properties) :
    d.Stops rest ↔ ∀ t ∈ rest.head?, t.kind = .rightBrace := by
  cases d <;> simp [Stops, Extends, Symbol.Extends]

theorem stops_property_iff (d : Derivation .property) :
    d.Stops rest ↔ ∀ t ∈ rest.head?, t.kind = .comma ∨ t.kind = .rightBrace := by
  cases d <;> simp [Stops, Extends, Symbol.Extends, Decidable.or_iff_not_imp_left]

theorem stops_items_iff (d : Derivation (.items i)) :
    d.Stops rest ↔ ∀ t ∈ rest.head?, t.kind = .rightParen := by
  cases d <;> simp [Stops, Extends, Symbol.Extends]

theorem stops_closing (d : Derivation (.items i)) (closing : Terminal .rightParen)
    (rest : List Token) : d.Stops (closing.token :: rest) :=
  (stops_items_iff d).2 (by simp [closing.isKind])

theorem stops_operations_iff (d : Derivation (.operations level)) :
    d.Stops rest ↔ ∀ t ∈ rest.head?, ¬Symbol.Extends (.operations level) t := by
  cases d <;> rfl

theorem stops_calls_iff (d : Derivation .calls) :
    d.Stops rest ↔ ∀ t ∈ rest.head?, ¬Symbol.Extends .calls t := by
  cases d <;> rfl

theorem stops_accesses_iff (d : Derivation .accesses) :
    d.Stops rest ↔ ∀ t ∈ rest.head?, ¬Symbol.Extends .accesses t := by
  cases d <;> rfl

theorem stops_chain_iff (d : Derivation (.chain level)) :
    d.Stops rest ↔ ∀ t ∈ rest.head?, ¬Symbol.Extends (.operations level) t := by
  cases d
  cases level <;> rfl

theorem not_statement (d : Derivation .statement) (ss : Derivation .statements)
    (hs : ss.Stops (d.tokens ++ rest)) : False := by
  obtain ⟨t, tail, ht, hk⟩ := d.exists_first (by simp [Symbol.first])
  rcases (stops_statements_iff _).1 hs t (by simp [ht]) with he | he <;> rw [he] at hk <;>
    exact absurd hk (by decide)

theorem stops_plain {o : Derivation .object} (h : (plain o).Stops rest) : o.Stops rest :=
  fun t ht ho => h t ht (.inr ho)

theorem not_property (p : Derivation .property) (ps : Derivation .properties)
    (hs : ps.Stops (p.tokens ++ rest)) : False := by
  obtain ⟨t, tail, ht, hk⟩ := p.exists_first (by simp [Symbol.first])
  rw [(stops_properties_iff _).1 hs t (by simp [ht])] at hk
  exact absurd hk (by decide)

theorem stops_last {p : Derivation .property} {ps : Derivation .properties} (h : ps.Stops rest) :
    p.Stops rest :=
  (stops_property_iff p).2 fun t ht => .inr ((stops_properties_iff ps).1 h t ht)

theorem stops_comma (p : Derivation .property) (comma : Terminal .comma) :
    p.Stops (comma.token :: rest) :=
  (stops_property_iff p).2 (by simp [comma.isKind])

theorem not_colon {p : Derivation .property} (colon : Terminal .colon)
    (h : p.Stops (colon.token :: rest)) : False := by
  rcases (stops_property_iff _).1 h _ rfl with hk | hk <;> rw [colon.isKind] at hk <;> cases hk

theorem stops_call_iff (d : Derivation .call) :
    d.Stops rest ↔ ∀ t ∈ rest.head?, ¬Symbol.Extends .call t := by
  cases d
  rfl

theorem not_operator (operator : Operator level)
    (h : (noOperations : Derivation (.operations level)).Stops (operator.token :: rest)) :
    False := by
  refine h _ rfl ?_
  cases level with
  | sum => exact .inl ⟨operator.isOperator, .inl operator.isOfLevel⟩
  | product => exact .inl ⟨operator.isOperator, operator.isOfLevel⟩

theorem not_arguments (d : Derivation (.tuple .argument))
    (h : noCalls.Stops (d.tokens ++ rest)) : False := by
  obtain ⟨t, tail, ht, hk⟩ := d.exists_first (by simp [Symbol.first])
  exact h t (by simp [ht]) (.inl (by simpa [Symbol.first] using hk))

theorem not_access (hs : noAccesses.Stops rest) (h : rest = t :: rest')
    (ht : t.kind = .dot ∨ t.kind = .leftBracket) : False :=
  hs t (by simp [h]) ht

theorem not_comma (comma : Terminal .comma)
    (h : (noItems : Derivation (.items i)).Stops (comma.token :: rest)) : False := by
  have hk := (stops_items_iff _).1 h _ rfl
  rw [comma.isKind] at hk
  cases hk

/-- Nothing but the derivation itself starts where it starts and ends where nothing goes on. -/
def Unique (d : Derivation s) : Prop :=
  ∀ (e : Derivation s) (rest rest' : List Token), d.Legal → e.Legal → d.Stops rest →
    e.Stops rest' → d.tokens ++ rest = e.tokens ++ rest' → d = e ∧ rest = rest'

namespace Unique

theorem program (ih : Unique ss) : Unique (.program ss stop) := by
  intro e rest rest' hd he _ _ h
  cases e with
  | program ss' stop' =>
    simp only [tokens, List.append_assoc, List.cons_append, List.nil_append] at h
    obtain ⟨rfl, h₁⟩ := ih ss' _ _ hd he ((stops_statements_iff _).2 (by simp [stop.isKind]))
      ((stops_statements_iff _).2 (by simp [stop'.isKind])) h
    obtain ⟨rfl, h₂⟩ := token_inj h₁
    exact ⟨rfl, h₂⟩

theorem noStatements : Unique .noStatements := by
  intro e rest rest' _ _ hs _ h
  cases e with
  | noStatements => exact ⟨rfl, h⟩
  | moreStatements s ss =>
    rw [tokens, tokens, List.nil_append, List.append_assoc] at h
    exact (s.not_statement _ (h ▸ hs)).elim

theorem moreStatements (ih : Unique s) (ih' : Unique ss) : Unique (.moreStatements s ss) := by
  intro e rest rest' hd he hs hs' h
  cases e with
  | noStatements =>
    rw [tokens, tokens, List.nil_append, List.append_assoc] at h
    exact (s.not_statement _ (h ▸ hs')).elim
  | moreStatements s' ss' =>
    have hr := (stops_statements_iff ss).2 ((stops_statements_iff _).1 hs)
    have hr' := (stops_statements_iff ss').2 ((stops_statements_iff _).1 hs')
    simp only [tokens, List.append_assoc] at h
    obtain ⟨rfl, h₁⟩ := ih s' _ _ hd.1 he.1 (s.stops_statements ss hd.2.2 hr)
      (s'.stops_statements ss' he.2.2 hr') h
    obtain ⟨rfl, h₂⟩ := ih' ss' _ _ hd.2.1 he.2.1 hr hr' h₁
    exact ⟨rfl, h₂⟩

theorem uninitialized : Unique (.uninitialized word name stop) := by
  intro e rest rest' _ _ _ _ h
  cases e with
  | uninitialized word' name' stop' =>
    obtain ⟨rfl, h₁⟩ := token_inj h
    obtain ⟨rfl, h₂⟩ := token_inj h₁
    obtain ⟨rfl, h₃⟩ := token_inj h₂
    exact ⟨rfl, h₃⟩
  | initialized word' name' equals =>
    simp only [tokens, List.cons_append, List.cons.injEq] at h
    have hk := equals.isKind
    rw [← h.2.2.1, stop.isKind] at hk
    cases hk
  | function word' =>
    have hk := word'.isKind
    rw [← (List.cons.inj h).1, word.isKind] at hk
    cases hk
  | evaluated e =>
    have hk := e.mem_first (by simp [Symbol.first]) h
    rw [word.isKind] at hk
    exact absurd hk (by decide)

theorem initialized (ih : Unique value) : Unique (.initialized word name equals value stop) := by
  intro e rest rest' hd he _ _ h
  cases e with
  | uninitialized word' name' stop' =>
    simp only [tokens, List.cons_append, List.cons.injEq] at h
    have hk := equals.isKind
    rw [h.2.2.1, stop'.isKind] at hk
    cases hk
  | initialized word' name' equals' value' stop' =>
    simp only [tokens, List.append_assoc, List.cons_append, List.nil_append] at h
    obtain ⟨hw, h₁⟩ := List.cons.inj h
    obtain rfl := Opener.ext hw
    obtain ⟨rfl, h₂⟩ := token_inj h₁
    obtain ⟨rfl, h₃⟩ := token_inj h₂
    obtain ⟨rfl, h₄⟩ := ih value' _ _ hd he
      (value.stops_of_kind (by simp [continuingKinds, stop.isKind]))
      (value'.stops_of_kind (by simp [continuingKinds, stop'.isKind])) h₃
    obtain ⟨rfl, h₅⟩ := token_inj h₄
    exact ⟨rfl, h₅⟩
  | function word' =>
    have hk := word'.isKind
    rw [← (List.cons.inj h).1] at hk
    rcases word.opens with ho | ho <;> rw [ho] at hk <;> cases hk
  | evaluated e =>
    have hk := e.mem_first (by simp [Symbol.first]) h
    rcases word.opens with ho | ho <;> rw [ho] at hk <;> exact absurd hk (by decide)

theorem function (ih : Unique params) (ih' : Unique body) :
    Unique (.function word name params opening body closing) := by
  intro e rest rest' hd he _ _ h
  cases e with
  | uninitialized word' =>
    have hk := word.isKind
    rw [(List.cons.inj h).1, word'.isKind] at hk
    cases hk
  | initialized word' =>
    have hk := word.isKind
    rw [(List.cons.inj h).1] at hk
    rcases word'.opens with ho | ho <;> rw [ho] at hk <;> cases hk
  | function word' name' params' opening' body' closing' =>
    simp only [tokens, List.append_assoc, List.cons_append, List.nil_append] at h
    obtain ⟨rfl, h₁⟩ := token_inj h
    obtain ⟨rfl, h₂⟩ := token_inj h₁
    obtain ⟨rfl, h₃⟩ := ih params' _ _ hd.1 he.1 params.stops_tuple params'.stops_tuple h₂
    obtain ⟨rfl, h₄⟩ := token_inj h₃
    obtain ⟨rfl, h₅⟩ := ih' body' _ _ hd.2 he.2
      ((stops_statements_iff _).2 (by simp [closing.isKind]))
      ((stops_statements_iff _).2 (by simp [closing'.isKind])) h₄
    obtain ⟨rfl, h₆⟩ := token_inj h₅
    exact ⟨rfl, h₆⟩
  | evaluated e =>
    have hk := e.mem_first (by simp [Symbol.first]) h
    rw [word.isKind] at hk
    exact absurd hk (by decide)

theorem evaluated (ih : Unique value) : Unique (.evaluated value) := by
  intro e rest rest' hd he hs hs' h
  cases e with
  | uninitialized word =>
    have hk := value.mem_first (by simp [Symbol.first]) h.symm
    rw [word.isKind] at hk
    exact absurd hk (by decide)
  | initialized word =>
    have hk := value.mem_first (by simp [Symbol.first]) h.symm
    rcases word.opens with ho | ho <;> rw [ho] at hk <;> exact absurd hk (by decide)
  | function word =>
    have hk := value.mem_first (by simp [Symbol.first]) h.symm
    rw [word.isKind] at hk
    exact absurd hk (by decide)
  | evaluated value' =>
    obtain ⟨rfl, h₁⟩ := ih value' _ _ hd he hs hs' h
    exact ⟨rfl, h₁⟩

theorem plain (ih : Unique o) : Unique (.plain o) := by
  intro e rest rest' hd he hs hs' h
  cases e with
  | plain o' =>
    obtain ⟨rfl, h₁⟩ := ih o' _ _ hd he (stops_plain hs) (stops_plain hs') h
    exact ⟨rfl, h₁⟩
  | assigned o' equals value stop =>
    simp only [tokens, List.append_assoc, List.cons_append, List.nil_append] at h
    obtain ⟨rfl, rfl⟩ := ih o' _ _ hd he.1 (stops_plain hs) (o'.stops_equals equals.isKind) h
    exact (hs _ rfl (.inl equals.isKind)).elim

theorem assigned (ih : Unique o) (ih' : Unique value) :
    Unique (.assigned o equals value stop) := by
  intro e rest rest' hd he hs hs' h
  cases e with
  | plain o' =>
    simp only [tokens, List.append_assoc, List.cons_append, List.nil_append] at h
    obtain ⟨rfl, rfl⟩ := ih o' _ _ hd.1 he (o.stops_equals equals.isKind) (stops_plain hs') h
    exact (hs' _ rfl (.inl equals.isKind)).elim
  | assigned o' equals' value' stop' =>
    simp only [tokens, List.append_assoc, List.cons_append, List.nil_append] at h
    obtain ⟨rfl, h₁⟩ := ih o' _ _ hd.1 he.1 (o.stops_equals equals.isKind)
      (o'.stops_equals equals'.isKind) h
    obtain ⟨rfl, h₂⟩ := token_inj h₁
    obtain ⟨rfl, h₃⟩ := ih' value' _ _ hd.2 he.2
      (value.stops_of_kind (by simp [continuingKinds, stop.isKind]))
      (value'.stops_of_kind (by simp [continuingKinds, stop'.isKind])) h₂
    obtain ⟨rfl, h₄⟩ := token_inj h₃
    exact ⟨rfl, h₄⟩

theorem braces (ih : Unique ps) : Unique (.braces opening ps closing) := by
  intro e rest rest' hd he _ _ h
  cases e with
  | braces opening' ps' closing' =>
    simp only [tokens, List.append_assoc, List.cons_append, List.nil_append] at h
    obtain ⟨rfl, h₁⟩ := token_inj h
    obtain ⟨rfl, h₂⟩ := ih ps' _ _ hd he ((stops_properties_iff _).2 (by simp [closing.isKind]))
      ((stops_properties_iff _).2 (by simp [closing'.isKind])) h₁
    obtain ⟨rfl, h₃⟩ := token_inj h₂
    exact ⟨rfl, h₃⟩
  | sum e =>
    have hk := e.mem_first (by simp [Symbol.first, operandKinds]) h
    rw [opening.isKind] at hk
    exact absurd hk (by decide)

theorem sum (ih : Unique c) : Unique (.sum c) := by
  intro e rest rest' hd he hs hs' h
  cases e with
  | braces opening =>
    have hk := c.mem_first (by simp [Symbol.first, operandKinds]) h.symm
    rw [opening.isKind] at hk
    exact absurd hk (by decide)
  | sum c' =>
    have hc := (stops_chain_iff c).2 hs
    have hc' := (stops_chain_iff c').2 hs'
    obtain ⟨rfl, h₁⟩ := ih c' _ _ hd he hc hc' h
    exact ⟨rfl, h₁⟩

theorem noProperties : Unique .noProperties := by
  intro e rest rest' _ _ hs _ h
  cases e with
  | noProperties => exact ⟨rfl, h⟩
  | lastProperty p =>
    rw [tokens, tokens, List.nil_append] at h
    exact (p.not_property _ (h ▸ hs)).elim
  | moreProperties p comma ps =>
    simp only [tokens, List.append_assoc, List.nil_append] at h
    exact (p.not_property _ (h ▸ hs)).elim

theorem lastProperty (ih : Unique p) : Unique (.lastProperty p) := by
  intro e rest rest' hd he hs hs' h
  cases e with
  | noProperties =>
    rw [tokens, tokens, List.nil_append] at h
    exact (p.not_property _ (h ▸ hs')).elim
  | lastProperty p' =>
    obtain ⟨rfl, h₁⟩ := ih p' _ _ hd he (stops_last hs) (stops_last hs') h
    exact ⟨rfl, h₁⟩
  | moreProperties p' comma ps =>
    simp only [tokens, List.append_assoc, List.cons_append] at h
    obtain ⟨rfl, rfl⟩ := ih p' _ _ hd he.1 (stops_last hs) (p'.stops_comma comma) h
    have hk := (stops_properties_iff _).1 hs _ rfl
    rw [comma.isKind] at hk
    cases hk

theorem moreProperties (ih : Unique p) (ih' : Unique ps) : Unique (.moreProperties p comma ps) := by
  intro e rest rest' hd he hs hs' h
  cases e with
  | noProperties =>
    simp only [tokens, List.append_assoc, List.nil_append] at h
    exact (p.not_property _ (h ▸ hs')).elim
  | lastProperty p' =>
    simp only [tokens, List.append_assoc, List.cons_append] at h
    obtain ⟨rfl, rfl⟩ := ih p' _ _ hd.1 he (p.stops_comma comma) (stops_last hs') h
    have hk := (stops_properties_iff _).1 hs' _ rfl
    rw [comma.isKind] at hk
    cases hk
  | moreProperties p' comma' ps' =>
    simp only [tokens, List.append_assoc, List.cons_append] at h
    obtain ⟨rfl, h₁⟩ := ih p' _ _ hd.1 he.1 (p.stops_comma comma) (p'.stops_comma comma') h
    obtain ⟨rfl, h₂⟩ := token_inj h₁
    obtain ⟨rfl, h₃⟩ := ih' ps' _ _ hd.2 he.2
      ((stops_properties_iff _).2 ((stops_properties_iff _).1 hs))
      ((stops_properties_iff _).2 ((stops_properties_iff _).1 hs')) h₂
    exact ⟨rfl, h₃⟩

theorem shorthand : Unique (.shorthand key) := by
  intro e rest rest' _ _ hs _ h
  cases e with
  | shorthand key' =>
    obtain ⟨rfl, h₁⟩ := token_inj h
    exact ⟨rfl, h₁⟩
  | keyed key' colon value =>
    simp only [tokens, List.cons_append, List.nil_append] at h
    obtain ⟨rfl, h₁⟩ := token_inj h
    exact (not_colon colon (h₁ ▸ hs)).elim

theorem keyed (ih : Unique value) : Unique (.keyed key colon value) := by
  intro e rest rest' hd he hs hs' h
  cases e with
  | shorthand key' =>
    simp only [tokens, List.cons_append, List.nil_append] at h
    obtain ⟨rfl, h₁⟩ := token_inj h
    exact (not_colon colon (h₁ ▸ hs')).elim
  | keyed key' colon' value' =>
    have hstop {e : Derivation .expression} {rest : List Token}
        (h : ∀ t ∈ rest.head?, t.kind = .comma ∨ t.kind = .rightBrace) : e.Stops rest := by
      intro t ht hx
      rcases h t ht with hk | hk <;> exact absurd (hk ▸ hx.kind) (by decide)
    obtain ⟨rfl, h₁⟩ := token_inj h
    obtain ⟨rfl, h₂⟩ := token_inj h₁
    obtain ⟨rfl, h₃⟩ := ih value' _ _ hd he (hstop ((stops_property_iff _).1 hs))
      (hstop ((stops_property_iff _).1 hs')) h₂
    exact ⟨rfl, h₃⟩

theorem chain (ih : Unique first) (ih' : Unique more) : Unique (.chain first more) := by
  intro e rest rest' hd he hs hs' h
  cases e with
  | chain first' more' =>
    have hr := (stops_operations_iff more).2 ((stops_chain_iff _).1 hs)
    have hr' := (stops_operations_iff more').2 ((stops_chain_iff _).1 hs')
    simp only [tokens, List.append_assoc] at h
    obtain ⟨rfl, h₁⟩ := ih first' _ _ hd.1 he.1 (first.stops_operations more hr)
      (first'.stops_operations more' hr') h
    obtain ⟨rfl, h₂⟩ := ih' more' _ _ hd.2 he.2 hr hr' h₁
    exact ⟨rfl, h₂⟩

theorem noOperations : Unique (noOperations : Derivation (.operations level)) := by
  intro e rest rest' _ _ hs _ h
  cases e with
  | noOperations => exact ⟨rfl, h⟩
  | moreOperations operator operand more =>
    rw [tokens, tokens, List.nil_append, List.cons_append] at h
    exact (not_operator operator (h ▸ hs)).elim

theorem moreOperations (ih : Unique operand) (ih' : Unique more) :
    Unique (.moreOperations operator operand more) := by
  intro e rest rest' hd he hs hs' h
  cases e with
  | noOperations =>
    rw [tokens, tokens, List.nil_append, List.cons_append] at h
    exact (not_operator operator (h ▸ hs')).elim
  | moreOperations operator' operand' more' =>
    have hr := (stops_operations_iff more).2 ((stops_operations_iff _).1 hs)
    have hr' := (stops_operations_iff more').2 ((stops_operations_iff _).1 hs')
    simp only [tokens, List.append_assoc, List.cons_append] at h
    obtain ⟨ho, h₁⟩ := List.cons.inj h
    obtain rfl := Operator.ext ho
    obtain ⟨rfl, h₂⟩ := ih operand' _ _ hd.1 he.1 (operand.stops_operations more hr)
      (operand'.stops_operations more' hr') h₁
    obtain ⟨rfl, h₃⟩ := ih' more' _ _ hd.2 he.2 hr hr' h₂
    exact ⟨rfl, h₃⟩

theorem term (ih : Unique c) : Unique (.term c) := by
  intro e rest rest' hd he hs hs' h
  cases e with
  | term c' =>
    obtain ⟨rfl, h₁⟩ := ih c' _ _ hd he ((stops_chain_iff c).2 hs) ((stops_chain_iff c').2 hs') h
    exact ⟨rfl, h₁⟩

theorem factor (ih : Unique c) : Unique (.factor c) := by
  intro e rest rest' hd he hs hs' h
  cases e with
  | factor c' =>
    obtain ⟨rfl, h₁⟩ := ih c' _ _ hd he ((stops_call_iff c).2 hs) ((stops_call_iff c').2 hs') h
    exact ⟨rfl, h₁⟩

theorem call (ih : Unique callee) (ih' : Unique more) : Unique (.call callee more) := by
  intro e rest rest' hd he hs hs' h
  cases e with
  | call callee' more' =>
    have hr := (stops_calls_iff more).2 ((stops_call_iff _).1 hs)
    have hr' := (stops_calls_iff more').2 ((stops_call_iff _).1 hs')
    simp only [tokens, List.append_assoc] at h
    obtain ⟨rfl, h₁⟩ := ih callee' _ _ hd.1 he.1 (callee.stops_calls more hr)
      (callee'.stops_calls more' hr') h
    obtain ⟨rfl, h₂⟩ := ih' more' _ _ hd.2 he.2 hr hr' h₁
    exact ⟨rfl, h₂⟩

theorem noCalls : Unique .noCalls := by
  intro e rest rest' _ _ hs _ h
  cases e with
  | noCalls => exact ⟨rfl, h⟩
  | moreCalls arguments more =>
    rw [tokens, tokens, List.nil_append, List.append_assoc] at h
    exact (not_arguments arguments (h ▸ hs)).elim

theorem moreCalls (ih : Unique arguments) (ih' : Unique more) :
    Unique (.moreCalls arguments more) := by
  intro e rest rest' hd he hs hs' h
  cases e with
  | noCalls =>
    rw [tokens, tokens, List.nil_append, List.append_assoc] at h
    exact (not_arguments arguments (h ▸ hs')).elim
  | moreCalls arguments' more' =>
    simp only [tokens, List.append_assoc] at h
    obtain ⟨rfl, h₁⟩ := ih arguments' _ _ hd.1 he.1 arguments.stops_tuple arguments'.stops_tuple h
    obtain ⟨rfl, h₂⟩ := ih' more' _ _ hd.2 he.2
      ((stops_calls_iff _).2 ((stops_calls_iff _).1 hs))
      ((stops_calls_iff _).2 ((stops_calls_iff _).1 hs')) h₁
    exact ⟨rfl, h₂⟩

theorem member (ih : Unique owner) (ih' : Unique more) : Unique (.member owner more) := by
  intro e rest rest' hd he hs hs' h
  cases e with
  | member owner' more' =>
    simp only [tokens, List.append_assoc] at h
    obtain ⟨rfl, h₁⟩ := ih owner' _ _ hd.1 he.1 owner.stops_primary owner'.stops_primary h
    obtain ⟨rfl, h₂⟩ := ih' more' _ _ hd.2 he.2 ((stops_accesses_iff more).2 hs)
      ((stops_accesses_iff more').2 hs') h₁
    exact ⟨rfl, h₂⟩

theorem noAccesses : Unique .noAccesses := by
  intro e rest rest' _ _ hs _ h
  cases e with
  | noAccesses => exact ⟨rfl, h⟩
  | named dot => exact (not_access hs h (.inl dot.isKind)).elim
  | computed opening => exact (not_access hs h (.inr opening.isKind)).elim

theorem named (ih : Unique more) : Unique (.named dot name more) := by
  intro e rest rest' hd he hs hs' h
  cases e with
  | noAccesses => exact (not_access hs' h.symm (.inl dot.isKind)).elim
  | named dot' name' more' =>
    obtain ⟨rfl, h₁⟩ := token_inj h
    obtain ⟨rfl, h₂⟩ := token_inj h₁
    obtain ⟨rfl, h₃⟩ := ih more' _ _ hd he ((stops_accesses_iff more).2 hs)
      ((stops_accesses_iff more').2 hs') h₂
    exact ⟨rfl, h₃⟩
  | computed opening =>
    have hk := dot.isKind
    rw [(List.cons.inj h).1, opening.isKind] at hk
    cases hk

theorem computed (ih : Unique key) (ih' : Unique more) :
    Unique (.computed opening key closing more) := by
  intro e rest rest' hd he hs hs' h
  cases e with
  | noAccesses => exact (not_access hs' h.symm (.inr opening.isKind)).elim
  | named dot =>
    have hk := dot.isKind
    rw [← (List.cons.inj h).1, opening.isKind] at hk
    cases hk
  | computed opening' key' closing' more' =>
    simp only [tokens, List.append_assoc, List.cons_append] at h
    obtain ⟨rfl, h₁⟩ := token_inj h
    obtain ⟨rfl, h₂⟩ := ih key' _ _ hd.1 he.1
      (key.stops_of_kind (by simp [continuingKinds, closing.isKind]))
      (key'.stops_of_kind (by simp [continuingKinds, closing'.isKind])) h₁
    obtain ⟨rfl, h₃⟩ := token_inj h₂
    obtain ⟨rfl, h₄⟩ := ih' more' _ _ hd.2 he.2 ((stops_accesses_iff more).2 hs)
      ((stops_accesses_iff more').2 hs') h₃
    exact ⟨rfl, h₄⟩

theorem identifier : Unique (.identifier name) := by
  intro e rest rest' _ _ _ _ h
  cases e with
  | identifier name' =>
    obtain ⟨rfl, h₁⟩ := token_inj h
    exact ⟨rfl, h₁⟩
  | number u | string u | parenthesized u =>
    have hk := name.isKind
    rw [(List.cons.inj h).1, u.isKind] at hk
    cases hk

theorem number : Unique (.number numeral) := by
  intro e rest rest' _ _ _ _ h
  cases e with
  | number numeral' =>
    obtain ⟨rfl, h₁⟩ := token_inj h
    exact ⟨rfl, h₁⟩
  | identifier u | string u | parenthesized u =>
    have hk := numeral.isKind
    rw [(List.cons.inj h).1, u.isKind] at hk
    cases hk

theorem string : Unique (.string quoted) := by
  intro e rest rest' _ _ _ _ h
  cases e with
  | string quoted' =>
    obtain ⟨rfl, h₁⟩ := token_inj h
    exact ⟨rfl, h₁⟩
  | identifier u | number u | parenthesized u =>
    have hk := quoted.isKind
    rw [(List.cons.inj h).1, u.isKind] at hk
    cases hk

theorem parenthesized (ih : Unique value) : Unique (.parenthesized opening value closing) := by
  intro e rest rest' hd he _ _ h
  cases e with
  | identifier u | number u | string u =>
    have hk := opening.isKind
    rw [(List.cons.inj h).1, u.isKind] at hk
    cases hk
  | parenthesized opening' value' closing' =>
    simp only [tokens, List.append_assoc, List.cons_append, List.nil_append] at h
    obtain ⟨rfl, h₁⟩ := token_inj h
    obtain ⟨rfl, h₂⟩ := ih value' _ _ hd he
      (value.stops_of_kind (by simp [continuingKinds, closing.isKind]))
      (value'.stops_of_kind (by simp [continuingKinds, closing'.isKind])) h₁
    obtain ⟨rfl, h₃⟩ := token_inj h₂
    exact ⟨rfl, h₃⟩

theorem emptyTuple : Unique (emptyTuple opening closing : Derivation (.tuple i)) := by
  intro e rest rest' _ _ _ _ h
  cases e with
  | emptyTuple opening' closing' =>
    obtain ⟨rfl, h₁⟩ := token_inj h
    obtain ⟨rfl, h₂⟩ := token_inj h₁
    exact ⟨rfl, h₂⟩
  | tuple opening' first more closing' =>
    simp only [tokens, List.append_assoc, List.cons_append, List.nil_append] at h
    obtain ⟨rfl, h₁⟩ := token_inj h
    have hk := first.mem_first (by simp [Symbol.first]) h₁
    simp [Symbol.first, operandKinds, closing.isKind] at hk

theorem tuple (ih : Unique first) (ih' : Unique more) :
    Unique (.tuple opening first more closing) := by
  intro e rest rest' hd he _ _ h
  cases e with
  | emptyTuple opening' closing' =>
    simp only [tokens, List.append_assoc, List.cons_append, List.nil_append] at h
    obtain ⟨rfl, h₁⟩ := token_inj h
    have hk := first.mem_first (by simp [Symbol.first]) h₁.symm
    simp [Symbol.first, operandKinds, closing'.isKind] at hk
  | tuple opening' first' more' closing' =>
    simp only [tokens, List.append_assoc, List.cons_append, List.nil_append] at h
    obtain ⟨rfl, h₁⟩ := token_inj h
    have hr := more.stops_closing closing rest
    have hr' := more'.stops_closing closing' rest'
    obtain ⟨rfl, h₂⟩ := ih first' _ _ hd.1 he.1 (first.stops_items more hr)
      (first'.stops_items more' hr') h₁
    obtain ⟨rfl, h₃⟩ := ih' more' _ _ hd.2 he.2 hr hr' h₂
    obtain ⟨rfl, h₄⟩ := token_inj h₃
    exact ⟨rfl, h₄⟩

theorem noItems : Unique (noItems : Derivation (.items i)) := by
  intro e rest rest' _ _ hs _ h
  cases e with
  | noItems => exact ⟨rfl, h⟩
  | moreItems comma item more =>
    rw [tokens, tokens, List.nil_append, List.cons_append] at h
    exact (not_comma comma (h ▸ hs)).elim

theorem moreItems (ih : Unique item) (ih' : Unique more) : Unique (.moreItems comma item more) := by
  intro e rest rest' hd he hs hs' h
  cases e with
  | noItems =>
    rw [tokens, tokens, List.nil_append, List.cons_append] at h
    exact (not_comma comma (h ▸ hs')).elim
  | moreItems comma' item' more' =>
    have hr := (stops_items_iff more).2 ((stops_items_iff _).1 hs)
    have hr' := (stops_items_iff more').2 ((stops_items_iff _).1 hs')
    simp only [tokens, List.append_assoc, List.cons_append] at h
    obtain ⟨rfl, h₁⟩ := token_inj h
    obtain ⟨rfl, h₂⟩ := ih item' _ _ hd.1 he.1 (item.stops_items more hr)
      (item'.stops_items more' hr') h₁
    obtain ⟨rfl, h₃⟩ := ih' more' _ _ hd.2 he.2 hr hr' h₂
    exact ⟨rfl, h₃⟩

theorem parameter (ih : Unique value) : Unique (.parameter name value) := by
  intro e rest rest' hd he hs hs' h
  cases e with
  | parameter name' value' =>
    obtain ⟨rfl, h₁⟩ := ih value' _ _ hd.1 he.1 hs hs' h
    have hn : name = name' := Node.identifier.inj (hd.2.symm.trans he.2)
    exact ⟨by rw [hn], h₁⟩

theorem argument (ih : Unique value) : Unique (.argument value) := by
  intro e rest rest' hd he hs hs' h
  cases e with
  | argument value' =>
    obtain ⟨rfl, h₁⟩ := ih value' _ _ hd he hs hs' h
    exact ⟨rfl, h₁⟩

end Unique

theorem unique (d : Derivation s) : d.Unique := by
  induction d with
  | program ss stop ih => exact .program ih
  | noStatements => exact .noStatements
  | moreStatements s ss ih ih' => exact .moreStatements ih ih'
  | uninitialized word name stop => exact .uninitialized
  | initialized word name equals value stop ih => exact .initialized ih
  | function word name params opening body closing ih ih' => exact .function ih ih'
  | evaluated e ih => exact .evaluated ih
  | plain o ih => exact .plain ih
  | assigned o equals value stop ih ih' => exact .assigned ih ih'
  | braces opening ps closing ih => exact .braces ih
  | sum e ih => exact .sum ih
  | noProperties => exact .noProperties
  | lastProperty p ih => exact .lastProperty ih
  | moreProperties p comma ps ih ih' => exact .moreProperties ih ih'
  | shorthand key => exact .shorthand
  | keyed key colon value ih => exact .keyed ih
  | chain first more ih ih' => exact .chain ih ih'
  | noOperations => exact .noOperations
  | moreOperations operator operand more ih ih' => exact .moreOperations ih ih'
  | term e ih => exact .term ih
  | factor e ih => exact .factor ih
  | call callee more ih ih' => exact .call ih ih'
  | noCalls => exact .noCalls
  | moreCalls arguments more ih ih' => exact .moreCalls ih ih'
  | member owner more ih ih' => exact .member ih ih'
  | noAccesses => exact .noAccesses
  | named dot name more ih => exact .named ih
  | computed opening key closing more ih ih' => exact .computed ih ih'
  | identifier t => exact .identifier
  | number t => exact .number
  | string t => exact .string
  | parenthesized opening e closing ih => exact .parenthesized ih
  | emptyTuple opening closing => exact .emptyTuple
  | tuple opening first more closing ih ih' => exact .tuple ih ih'
  | noItems => exact .noItems
  | moreItems comma i more ih ih' => exact .moreItems ih ih'
  | parameter name e ih => exact .parameter ih
  | argument e ih => exact .argument ih

theorem program_unique (d e : Derivation .program) (hd : d.Legal) (he : e.Legal)
    (h : d.tokens = e.tokens) : d = e :=
  (d.unique e [] [] hd he d.stops_nil e.stops_nil (by rw [h])).1

end Derivation

end Ember
