import Ember.Proofs.Lockstep
import Ember.Proofs.Recognition

/-!
Errors of the parser come as early as they can. Where a rule stops at a token that it does not expect,
the tokens before it begin a derivation of the rule's symbol, so some program goes on from there; and
since nothing after that token was looked at, no program goes on with it.
-/

namespace Ember

set_option autoImplicit true

theorem readable_of_kinds (h : ∀ t ∈ tokens, t.kind ≠ .number) : Readable tokens :=
  fun t ht hk => absurd hk (h t ht)

theorem readable_nil : Readable [] := readable_of_kinds (by simp)

theorem Readable.append (h : Readable tokens) (h' : Readable tokens') :
    Readable (tokens ++ tokens') := by
  intro t ht hk
  rcases List.mem_append.1 ht with ht | ht
  · exact h t ht hk
  · exact h' t ht hk

def Terminal.made (kind : TokenKind) : Terminal kind := ⟨⟨kind, "x", ⟨0, 0⟩⟩, rfl⟩

theorem Terminal.readable_made (kind : TokenKind) (h : kind ≠ .number) :
    Readable [(made kind).token] :=
  readable_of_kinds fun _ ht => List.mem_singleton.1 ht ▸ h

namespace Derivation

def madeProduct : Derivation (.chain .product) :=
  .chain (.factor (.call (.member (.identifier (.made .identifier)) .noAccesses) .noCalls))
    .noOperations

def madeExpression : Derivation .expression :=
  .plain (.sum (.chain (.term madeProduct) .noOperations))

/-- Some derivation of each symbol. -/
def made : (s : Symbol) → Derivation s
  | .program => .program .noStatements (.made .endOfInput)
  | .statements => .noStatements
  | .statement => .evaluated madeExpression
  | .expression => madeExpression
  | .object => .sum (.chain (.term madeProduct) .noOperations)
  | .properties => .noProperties
  | .property => .shorthand (.made .identifier)
  | .chain .sum => .chain (.term madeProduct) .noOperations
  | .chain .product => madeProduct
  | .operations _ => .noOperations
  | .operand .sum => .term madeProduct
  | .operand .product =>
    .factor (.call (.member (.identifier (.made .identifier)) .noAccesses) .noCalls)
  | .call => .call (.member (.identifier (.made .identifier)) .noAccesses) .noCalls
  | .calls => .noCalls
  | .member => .member (.identifier (.made .identifier)) .noAccesses
  | .accesses => .noAccesses
  | .primary => .identifier (.made .identifier)
  | .tuple _ => .emptyTuple (.made .leftParen) (.made .rightParen)
  | .items _ => .noItems
  | .item .argument => .argument madeExpression
  | .item .parameter => .parameter "x" madeExpression

theorem legal_made (s : Symbol) : (made s).Legal := by
  cases s with
  | chain level | operand level =>
    cases level <;> simp [made, madeProduct, Legal]
  | item i => cases i <;> simp [made, madeExpression, madeProduct, Legal, tree, Terminal.made]
  | _ => simp [made, madeExpression, madeProduct, Legal]

theorem readable_made (s : Symbol) : Readable (made s).tokens := by
  apply readable_of_kinds
  cases s with
  | chain level | operand level => cases level <;> decide
  | item i => cases i <;> decide
  | operations | tuple | items => simp [made, tokens, Terminal.made]
  | _ => decide

end Derivation

/-- Tokens that a derivation of the symbol begins with. -/
def Viable (s : Symbol) (front : List Token) : Prop :=
  ∃ (d : Derivation s) (more : List Token), d.Legal ∧ d.tokens = front ++ more ∧ Readable more

theorem viable_nil (s : Symbol) : Viable s [] :=
  ⟨.made s, _, Derivation.legal_made s, rfl, Derivation.readable_made s⟩

/-- The rule for a symbol was left at a token that it does not expect, and what was taken begins a
derivation of the symbol, or it ran out of depth. -/
def Stuck (s : Symbol) (c : Cursor) (e : ParseError) (c' : Cursor) : Prop :=
  e = .tooDeep ∨ ∃ x front, e = .unexpected x c'.current ∧ c.pending = front ++ c'.pending ∧
    Viable s front

theorem Stuck.here {c c' : Cursor} (hp : c.pending = front ++ c'.pending) (hv : Viable s front) :
    Stuck s c (.unexpected x c'.current) c' := .inr ⟨x, front, rfl, hp, hv⟩

theorem Stuck.start (c : Cursor) : Stuck s c (.unexpected x c.current) c :=
  .here rfl (viable_nil s)

/-- A rule that is stuck inside a larger derivation leaves that one stuck. -/
theorem Stuck.lift {c c₁ c' : Cursor} (h : Stuck s c₁ e c') (hp : c.pending = before ++ c₁.pending)
    (F : Derivation s → Derivation s') (hF : ∀ d, d.Legal → (F d).Legal ∧
      ∃ after, (F d).tokens = before ++ (d.tokens ++ after) ∧ Readable after) :
    Stuck s' c e c' := by
  rcases h with h | ⟨x, front, he, hp', d, more, hd, ht, hr⟩
  · exact .inl h
  · obtain ⟨hl, after, htokens, ha⟩ := hF d hd
    refine .inr ⟨x, before ++ front, he, ?_, F d, more ++ after, hl, ?_, hr.append ha⟩
    · rw [hp, hp', List.append_assoc]
    · rw [htokens, ht]
      simp

namespace Parser

def Blames (p : Parser α) (c : Cursor) (stuck : ParseError → Cursor → Prop) : Prop :=
  ∀ e c', p c = .error e c' → stuck e c'

section

variable {c : Cursor} {stuck : ParseError → Cursor → Prop}

theorem Blames.mono {p : Parser α} {stuck' : ParseError → Cursor → Prop} (h : p.Blames c stuck)
    (hs : ∀ e c', stuck e c' → stuck' e c') : p.Blames c stuck' :=
  fun e c' he => hs e c' (h e c' he)

theorem blames_pure (a : α) : Blames (pure a) c stuck := fun _ _ h => nomatch h

theorem blames_bind {p : Parser α} {f : α → Parser β} (hp : p.Blames c stuck)
    (hs : p.Ensures c post fails) (hf : ∀ a c₁, post a c₁ → (f a).Blames c₁ stuck) :
    (p >>= f).Blames c stuck := by
  intro e c' h
  simp only [bind, EStateM.bind] at h
  unfold Ensures at hs
  cases hr : p c with
  | ok a c₁ =>
    rw [hr] at h hs
    exact hf a c₁ hs e c' h
  | error e₁ c₁ =>
    rw [hr] at h
    cases h
    exact hp e c' hr

theorem blames_get_bind {f : Cursor → Parser α} (h : (f c).Blames c stuck) :
    (get >>= f).Blames c stuck := h

theorem blames_current_bind {f : Token → Parser α} (h : (f c.current).Blames c stuck) :
    (current >>= f).Blames c stuck := h

theorem blames_reject (h : stuck (.unexpected e c.current) c) :
    Blames (reject e : Parser α) c stuck := by
  intro e' c' he
  cases he
  exact h

theorem blames_expect (h : stuck (.unexpected e c.current) c) : (expect e).Blames c stuck := by
  intro e' c' he
  have he : (if e.kind? = some c.current.kind then advance else reject e) c = _ := he
  split at he
  · cases he
  · cases he
    exact h

theorem blames_expect_bind {f : Token → Parser α} (he : e.kind? = some k) (hne : k ≠ .endOfInput)
    (h : stuck (.unexpected e c.current) c)
    (hf : ∀ (t : Terminal k) c₁, c.pending = t.token :: c₁.pending → (f t.token).Blames c₁ stuck) :
    (expect e >>= f).Blames c stuck := by
  have hs : (expect e).Ensures c
      (fun a c₁ => ∃ t : Terminal k, a = t.token ∧ c.pending = t.token :: c₁.pending)
      (fun _ => True) :=
    ensures_expect_terminal he hne (fun t _ hp => ⟨t, rfl, hp⟩) trivial
  apply blames_bind (blames_expect h) hs
  rintro _ c₁ ⟨t, rfl, hp⟩
  exact hf t c₁ hp

theorem blames_advance_bind {f : Token → Parser α} (h : (f c.current).Blames c.advance stuck) :
    (advance >>= f).Blames c stuck := h

theorem blames_terminal_bind {f : Token → Parser α} (hk : c.current.kind = k)
    (hne : k ≠ .endOfInput)
    (hf : ∀ (t : Terminal k) c₁, c.pending = t.token :: c₁.pending → (f t.token).Blames c₁ stuck) :
    (advance >>= f).Blames c stuck :=
  fun e c' h => hf ⟨_, hk⟩ c.advance (c.pending_eq_cons (hk ▸ hne)) e c' h

theorem blames_sees_bind {p q : Parser α}
    (hp : kinds.contains c.current.kind = true → p.Blames c stuck)
    (hq : kinds.contains c.current.kind = false → q.Blames c stuck) :
    (sees kinds >>= fun b => if b then p else q).Blames c stuck := by
  intro e c' h
  have h : (if kinds.contains c.current.kind then p else q) c = .error e c' := h
  split at h
  · next hk => exact hp hk e c' h
  · next hk => exact hq (Bool.eq_false_iff.2 hk) e c' h

theorem blames_not_sees_bind {p q : Parser α}
    (hp : kinds.contains c.current.kind = false → p.Blames c stuck)
    (hq : kinds.contains c.current.kind = true → q.Blames c stuck) :
    ((return !(← sees kinds)) >>= fun b => if b then p else q).Blames c stuck := by
  intro e c' h
  have h : (if !kinds.contains c.current.kind then p else q) c = .error e c' := h
  cases hk : kinds.contains c.current.kind with
  | false =>
    rw [hk] at h
    exact hp hk e c' h
  | true =>
    rw [hk] at h
    exact hq hk e c' h

theorem blames_seesOperator_bind {p q : Parser α}
    (hp : c.current.kind = .operator → c.current.text ∈ operators → p.Blames c stuck)
    (hq : q.Blames c stuck) :
    (seesOperator operators >>= fun b => if b then p else q).Blames c stuck := by
  intro e c' h
  have h : (if c.current.kind == .operator && operators.contains c.current.text then p else q) c =
    .error e c' := h
  split at h
  · next hk =>
    simp only [Bool.and_eq_true, beq_iff_eq, List.contains_iff_mem] at hk
    exact hp hk.1 hk.2 e c' h
  · exact hq e c' h

theorem blames_map {p : Parser α} (h : p.Blames c stuck) (f : α → β) :
    (p >>= fun a => pure (f a)).Blames c stuck := by
  have hs : p.Ensures c (fun _ _ => True) (fun _ => True) := by
    unfold Ensures
    split <;> trivial
  exact blames_bind h hs fun _ _ _ => blames_pure _

theorem blames_expect_last (h : stuck (.unexpected e c.current) c) (a : α) :
    (expect e >>= fun _ => pure a).Blames c stuck :=
  blames_map (blames_expect h) fun _ => a

theorem blames_rule_bind {s : Symbol} {p : Parser s.Meaning} {f : s.Meaning → Parser β}
    (hp : p.Blames c stuck) (hs : p.Ensures c (Yields s c) fails)
    (hf : ∀ (d : Derivation s) c₁, d.Legal → c.pending = d.tokens ++ c₁.pending →
      (d.EndsInCall → c₁.current.kind ≠ .leftParen) → (f d.tree).Blames c₁ stuck) :
    (p >>= f).Blames c stuck := by
  apply blames_bind hp hs
  rintro _ c₁ ⟨d, hd, rfl, hp₁, hk⟩
  exact hf d c₁ hd hp₁ hk

end

end Parser

/-- A parser that takes no token beyond the start of a derivation of the symbol before it fails. -/
def Guided (s : Symbol) (p : Parser α) : Prop :=
  ∀ c, Readable c.pending → p.Blames c (Stuck s c)

theorem Guided.inside {p : Parser α} {c c₁ : Cursor} (h : Guided s p) (hc : Readable c.pending)
    (hp : c.pending = before ++ c₁.pending) (F : Derivation s → Derivation s')
    (hF : ∀ d, d.Legal → (F d).Legal ∧
      ∃ after, (F d).tokens = before ++ (d.tokens ++ after) ∧ Readable after) :
    p.Blames c₁ (Stuck s' c) :=
  (h c₁ (hc.drop hp)).mono fun _ _ hs => hs.lift hp F hF

theorem Guided.alone {p : Parser α} (h : Guided s p) (F : Derivation s → Derivation s')
    (hF : ∀ d, d.Legal → (F d).Legal ∧ (F d).tokens = d.tokens) : Guided s' p := by
  intro c hc
  refine h.inside hc (List.nil_append _).symm F fun d hd => ⟨(hF d hd).1, [], ?_, readable_nil⟩
  rw [(hF d hd).2]
  simp

structure Grammar.Guided (g : Grammar) : Prop where
  statement : ∀ c, Readable c.pending → c.current.kind ≠ .fnWord →
    g.statement.Blames c (Stuck .statement c)
  declaration : ∀ c, Readable c.pending → c.current.kind = .letWord ∨ c.current.kind = .constWord →
    g.declaration.Blames c (Stuck .statement c)
  expression : Ember.Guided .expression g.expression
  assignment : Ember.Guided .expression g.assignment
  object : Ember.Guided .object g.object
  sum : Ember.Guided (.chain .sum) g.sum
  product : Ember.Guided (.chain .product) g.product
  callOrMember : Ember.Guided .call g.callOrMember
  call : ∀ callee, Ember.Guided .calls (g.call callee)
  arguments : Ember.Guided (.tuple .argument) g.arguments
  member : Ember.Guided .member g.member
  primary : Ember.Guided .primary g.primary

namespace Rules

open Ember.Parser

variable {g : Grammar} {depth : Nat}

theorem guided_statement (h : g.Guided) {c : Cursor} (hc : Readable c.pending)
    (hk : c.current.kind ≠ .fnWord) : (statement g).Blames c (Stuck .statement c) := by
  refine blames_sees_bind (fun hw => h.declaration c hc (by simpa using hw)) fun _ => ?_
  refine blames_sees_bind (fun hw => absurd (by simpa using hw) hk) fun _ => ?_
  exact h.expression.alone .evaluated (fun _ hd => ⟨hd, rfl⟩) c hc

theorem guided_declaration (hs : g.Sound depth) (h : g.Guided) {c : Cursor}
    (hc : Readable c.pending) (hk : c.current.kind = .letWord ∨ c.current.kind = .constWord) :
    (declaration g).Blames c (Stuck .statement c) := by
  have hp := c.pending_eq_cons (by rcases hk with hk | hk <;> simp [hk])
  -- The word alone, and the word with a name, begin a declaration with a value.
  have hword : Viable .statement [c.current] :=
    ⟨.initialized ⟨_, hk⟩ (.made _) (.made _) (.made _) (.made _), _, Derivation.legal_made _, rfl,
      readable_of_kinds (by decide)⟩
  have hname (name : Terminal .identifier) : Viable .statement [c.current, name.token] :=
    ⟨.initialized ⟨_, hk⟩ name (.made _) (.made _) (.made _), _, Derivation.legal_made _, rfl,
      readable_of_kinds (by decide)⟩
  refine blames_advance_bind ?_
  refine blames_expect_bind rfl (by decide) (.here hp hword) fun name c₁ hp₁ => ?_
  have hp₂ : c.pending = [c.current, name.token] ++ c₁.pending := by rw [hp, hp₁]; rfl
  refine blames_sees_bind (fun _ => ?_) fun _ => ?_
  · -- Only a variable may be left without a value.
    split
    · exact blames_reject (.here hp₂ (hname name))
    · exact blames_advance_bind (blames_pure _)
  · refine blames_expect_bind rfl (by decide) (.here hp₂ (hname name)) fun equals c₂ hp₃ => ?_
    have hp₄ : c.pending = [c.current, name.token, equals.token] ++ c₂.pending := by
      rw [hp₂, hp₃]
      rfl
    refine blames_rule_bind ?_ (hs.expression c₂ (hc.drop hp₄)) fun v c₃ hv hp₅ _ => ?_
    · refine h.expression.inside hc hp₄ (fun v => .initialized ⟨_, hk⟩ name equals v (.made _))
        fun v hv => ?_
      exact ⟨hv, _, by simp [Derivation.tokens], Terminal.readable_made .semicolon (by decide)⟩
    · have hp₆ : c.pending =
          (c.current :: name.token :: equals.token :: v.tokens) ++ c₃.pending := by
        rw [hp₄, hp₅]
        simp
      refine blames_expect_last (.here hp₆ ?_) _
      exact ⟨.initialized ⟨_, hk⟩ name equals v (.made _), _, hv, by simp [Derivation.tokens],
        Terminal.readable_made .semicolon (by decide)⟩

theorem guided_assignment (hs : g.Sound depth) (h : g.Guided) :
    Guided .expression (assignment g) := by
  intro c hc
  refine blames_rule_bind ?_ (hs.object c hc) fun o c₁ ho hp _ => ?_
  · exact h.object.alone .plain (fun _ hd => ⟨hd, rfl⟩) c hc
  · refine blames_sees_bind (fun hk => ?_) fun _ => blames_pure _
    refine blames_terminal_bind (by simpa using hk) (by decide) fun equals c₂ hp₁ => ?_
    have hp₂ : c.pending = (o.tokens ++ [equals.token]) ++ c₂.pending := by simp [hp, hp₁]
    refine blames_rule_bind ?_ (hs.assignment c₂ (hc.drop hp₂)) fun v c₃ hv hp₃ _ => ?_
    · refine h.assignment.inside hc hp₂ (fun v => .assigned o equals v (.made _)) fun v hv => ?_
      exact ⟨⟨ho, hv⟩, _, by simp [Derivation.tokens],
        Terminal.readable_made .semicolon (by decide)⟩
    · have hp₄ : c.pending = (o.tokens ++ equals.token :: v.tokens) ++ c₃.pending := by
        simp [hp₂, hp₃]
      refine blames_expect_last (.here hp₄ ?_) _
      exact ⟨.assigned o equals v (.made _), _, ⟨ho, hv⟩, by simp [Derivation.tokens],
        Terminal.readable_made .semicolon (by decide)⟩

theorem guided_property (hs : g.Sound depth) (h : g.Guided) : Guided .property (property g) := by
  intro c hc
  refine blames_expect_bind rfl (by decide) (.start c) fun key c₁ hp => ?_
  refine blames_sees_bind (fun _ => blames_advance_bind (blames_pure _)) fun _ => ?_
  refine blames_sees_bind (fun _ => blames_pure _) fun _ => ?_
  have hkey : Viable .property [key.token] := ⟨.shorthand key, [], trivial, rfl, readable_nil⟩
  refine blames_expect_bind rfl (by decide) (.here hp hkey) fun colon c₂ hp₁ => ?_
  have hp₂ : c.pending = [key.token, colon.token] ++ c₂.pending := by rw [hp, hp₁]; rfl
  refine blames_rule_bind ?_ (hs.expression c₂ (hc.drop hp₂)) fun v c₃ hv hp₃ _ => ?_
  · refine h.expression.inside hc hp₂ (.keyed key colon) fun v hv => ?_
    exact ⟨hv, [], by simp [Derivation.tokens], readable_nil⟩
  · have hp₄ : c.pending = (key.token :: colon.token :: v.tokens) ++ c₃.pending := by
      rw [hp₂, hp₃]
      simp
    refine blames_sees_bind (fun _ => blames_pure _) fun _ => ?_
    refine blames_expect_last (.here hp₄ ?_) _
    exact ⟨.keyed key colon v, [], hv, by simp [Derivation.tokens], readable_nil⟩

/-- The rounds of an object. Only properties with a comma after them are followed by others. -/
theorem guided_properties (hs : g.Sound depth) (h : g.Guided) {c : Cursor}
    (hc : Readable c.pending) :
    (collect (return !(← sees [.endOfInput, .rightBrace])) (property g) fuel).Blames c
      (Stuck .properties c) := by
  induction fuel generalizing c with
  | nil => exact blames_pure _
  | cons _ fuel ih =>
    unfold collect
    refine blames_not_sees_bind (fun _ => ?_) fun _ => blames_pure _
    refine blames_bind ?_ (sound_property hs hc) ?_
    · exact (guided_property hs h).alone .lastProperty (fun _ hd => ⟨hd, rfl⟩) c hc
    · rintro _ c₁ ⟨d, hd, rfl, ⟨comma, hp⟩ | ⟨hp, hk⟩⟩
      · have hp₁ : c.pending = (d.tokens ++ [comma.token]) ++ c₁.pending := by simp [hp]
        refine blames_map ?_ _
        refine (ih (hc.drop hp₁)).mono fun e c' hstuck => ?_
        refine hstuck.lift hp₁ (.moreProperties d comma) fun ps hps => ?_
        exact ⟨⟨hd, hps⟩, [], by simp [Derivation.tokens], readable_nil⟩
      · -- The closing brace ends the rounds.
        refine blames_map ?_ _
        cases fuel with
        | nil => exact blames_pure _
        | cons => exact blames_not_sees_bind (fun hn => by simp [hk] at hn) fun _ => blames_pure _

theorem guided_object (hs : g.Sound depth) (h : g.Guided) : Guided .object (object g) := by
  intro c hc
  refine blames_sees_bind (fun hk => ?_) fun _ => h.sum.alone .sum (fun _ hd => ⟨hd, rfl⟩) c hc
  refine blames_terminal_bind (by simpa using hk) (by decide) fun opening c₁ hp => ?_
  have hc₁ : Readable c₁.pending := hc.tail hp
  unfold manyUntil many
  rw [bind_assoc]
  refine blames_get_bind (blames_bind ?_ (sound_properties hs hc₁ (Nat.le_refl _)) ?_)
  · refine (guided_properties hs h hc₁).mono fun e c' hstuck => ?_
    have hp : c.pending = [opening.token] ++ c₁.pending := hp
    refine hstuck.lift hp (fun ps => .braces opening ps (.made _)) fun ps hps => ?_
    exact ⟨hps, _, by simp [Derivation.tokens], Terminal.readable_made .rightBrace (by decide)⟩
  · rintro _ c₂ ⟨ps, hps, rfl, hp₁⟩
    have hp₂ : c.pending = (opening.token :: ps.tokens) ++ c₂.pending := by simp [hp, hp₁]
    refine blames_expect_last (.here hp₂ ?_) _
    exact ⟨.braces opening ps (.made _), _, hps, by simp [Derivation.tokens],
      Terminal.readable_made .rightBrace (by decide)⟩

theorem guided_operations {operand : Parser Node} (hs : Sound depth rank (.operand level) operand)
    (h : Guided (.operand level) operand) {c : Cursor} {left : Node} (hc : Readable c.pending) :
    (iterate (seesOperator level.operators) (fun left => do
      let operator := (← advance).text
      let right ← operand
      pure (.binary left right operator)) fuel left).Blames c (Stuck (.operations level) c) := by
  induction fuel generalizing c left with
  | nil => exact blames_pure _
  | cons _ fuel ih =>
    unfold iterate
    refine blames_seesOperator_bind (fun hk ht => ?_) (blames_pure _)
    have hp : c.pending = [c.current] ++ c.advance.pending := c.pending_eq_cons (by simp [hk])
    rw [bind_assoc]
    refine blames_advance_bind ?_
    rw [bind_assoc]
    refine blames_rule_bind ?_ (hs c.advance (hc.drop hp)) fun d c₁ hd hp₁ _ => ?_
    · refine h.inside hc hp (fun d => .moreOperations ⟨_, hk, ht⟩ d .noOperations) fun d hd => ?_
      exact ⟨⟨hd, trivial⟩, [], by simp [Derivation.tokens], readable_nil⟩
    · have hp₂ : c.pending = (c.current :: d.tokens) ++ c₁.pending := by
        rw [hp, hp₁]
        simp
      refine (ih (hc.drop hp₂)).mono fun e c' hstuck => ?_
      refine hstuck.lift hp₂ (.moreOperations ⟨_, hk, ht⟩ d) fun more hmore => ?_
      exact ⟨⟨hd, hmore⟩, [], by simp [Derivation.tokens], readable_nil⟩

theorem guided_chain {operand : Parser Node} (hs : Sound depth rank (.operand level) operand)
    (h : Guided (.operand level) operand) :
    Guided (.chain level) (chain level.operators operand) := by
  intro c hc
  refine blames_rule_bind ?_ (hs c hc) fun d c₁ hd hp _ => ?_
  · exact h.alone (fun d => .chain d .noOperations)
      (fun _ hd => ⟨⟨hd, trivial⟩, by simp [Derivation.tokens]⟩) c hc
  · refine blames_get_bind ((guided_operations hs h (hc.drop hp)).mono fun e c' hstuck => ?_)
    refine hstuck.lift hp (.chain d) fun more hmore => ?_
    exact ⟨⟨hd, hmore⟩, [], by simp [Derivation.tokens], readable_nil⟩

theorem guided_sum (hs : g.Sound depth) (h : g.Guided) : Guided (.chain .sum) (sum g) :=
  guided_chain hs.product.term (h.product.alone .term fun _ hd => ⟨hd, rfl⟩)

theorem guided_product (hs : g.Sound depth) (h : g.Guided) :
    Guided (.chain .product) (product g) :=
  guided_chain hs.callOrMember.factor (h.callOrMember.alone .factor fun _ hd => ⟨hd, rfl⟩)

theorem guided_callOrMember (hs : g.Sound depth) (h : g.Guided) :
    Guided .call (callOrMember g) := by
  intro c hc
  refine blames_rule_bind ?_ (hs.member c hc) fun d c₁ hd hp _ => ?_
  · exact h.member.alone (fun d => .call d .noCalls)
      (fun _ hd => ⟨⟨hd, trivial⟩, by simp [Derivation.tokens]⟩) c hc
  · refine blames_sees_bind (fun _ => ?_) fun _ => blames_pure _
    refine (h.call _).inside hc hp (.call d) fun more hmore => ?_
    exact ⟨⟨hd, hmore⟩, [], by simp [Derivation.tokens], readable_nil⟩

theorem guided_call (hs : g.Sound depth) (h : g.Guided) (callee : Node) :
    Guided .calls (call g callee) := by
  intro c hc
  refine blames_rule_bind ?_ (hs.arguments c hc) fun d c₁ hd hp _ => ?_
  · exact h.arguments.alone (fun d => .moreCalls d .noCalls)
      (fun _ hd => ⟨⟨hd, trivial⟩, by simp [Derivation.tokens]⟩) c hc
  · refine blames_sees_bind (fun _ => ?_) fun _ => blames_pure _
    refine (h.call _).inside hc hp (.moreCalls d) fun more hmore => ?_
    exact ⟨⟨hd, hmore⟩, [], by simp [Derivation.tokens], readable_nil⟩

theorem guided_items {item : Parser i.Meaning} (hs : Sound depth rank (.item i) item)
    (h : Guided (.item i) item) {c : Cursor} (hc : Readable c.pending) :
    (collect (sees [.comma]) (do
      let _ ← advance
      item) fuel).Blames c (Stuck (.items i) c) := by
  induction fuel generalizing c with
  | nil => exact blames_pure _
  | cons _ fuel ih =>
    unfold collect
    refine blames_sees_bind (fun hk => ?_) fun _ => blames_pure _
    rw [bind_assoc]
    refine blames_terminal_bind (by simpa using hk) (by decide) fun comma c₁ hp => ?_
    have hp : c.pending = [comma.token] ++ c₁.pending := hp
    refine blames_rule_bind ?_ (hs c₁ (hc.drop hp)) fun d c₂ hd hp₁ _ => ?_
    · refine h.inside hc hp (fun d => .moreItems comma d .noItems) fun d hd => ?_
      exact ⟨⟨hd, trivial⟩, [], by simp [Derivation.tokens], readable_nil⟩
    · have hp₂ : c.pending = (comma.token :: d.tokens) ++ c₂.pending := by
        rw [hp, hp₁]
        simp
      refine blames_map ((ih (hc.drop hp₂)).mono fun e c' hstuck => ?_) _
      refine hstuck.lift hp₂ (.moreItems comma d) fun more hmore => ?_
      exact ⟨⟨hd, hmore⟩, [], by simp [Derivation.tokens], readable_nil⟩

theorem guided_parenthesized {item : Parser i.Meaning} (hs : Sound depth rank (.item i) item)
    (h : Guided (.item i) item) (ho : opening.kind? = some .leftParen) :
    Guided (.tuple i) (parenthesized opening closing item) := by
  intro c hc
  refine blames_expect_bind ho (by decide) (.start c) fun left c₁ hp => ?_
  have hp : c.pending = [left.token] ++ c₁.pending := hp
  have hclosing := Terminal.readable_made .rightParen (by decide)
  refine blames_sees_bind (fun _ => ?_) fun _ => ?_
  · refine blames_expect_last (.here hp ?_) _
    exact ⟨.emptyTuple left (.made _), _, trivial, rfl, hclosing⟩
  · refine blames_rule_bind ?_ (hs c₁ (hc.drop hp)) fun d c₂ hd hp₁ _ => ?_
    · refine h.inside hc hp (fun d => .tuple left d .noItems (.made _)) fun d hd => ?_
      exact ⟨⟨hd, trivial⟩, _, by simp [Derivation.tokens], hclosing⟩
    · have hp₂ : c.pending = (left.token :: d.tokens) ++ c₂.pending := by
        rw [hp, hp₁]
        simp
      have hc₂ := hc.drop hp₂
      unfold many
      rw [bind_assoc]
      refine blames_get_bind (blames_bind ?_ (sound_items hs hc₂ (Nat.le_refl _)) ?_)
      · refine (guided_items hs h hc₂).mono fun e c' hstuck => ?_
        refine hstuck.lift hp₂ (fun more => .tuple left d more (.made _)) fun more hmore => ?_
        exact ⟨⟨hd, hmore⟩, _, by simp [Derivation.tokens], hclosing⟩
      · rintro _ c₃ ⟨more, hmore, rfl, hp₃⟩
        have hp₄ : c.pending = (left.token :: (d.tokens ++ more.tokens)) ++ c₃.pending := by
          rw [hp₂, hp₃]
          simp
        refine blames_expect_last (.here hp₄ ?_) _
        exact ⟨.tuple left d more (.made _), _, ⟨hd, hmore⟩, by simp [Derivation.tokens], hclosing⟩

theorem guided_arguments (hs : g.Sound depth) (h : g.Guided) :
    Guided (.tuple .argument) (arguments g) :=
  guided_parenthesized hs.assignment.argument (h.assignment.alone .argument fun _ hd => ⟨hd, rfl⟩)
    rfl

theorem guided_access (hs : g.Sound depth) (h : g.Guided) (owner : Node) {c : Cursor}
    (hc : Readable c.pending) (hk : c.current.kind = .dot ∨ c.current.kind = .leftBracket) :
    (access g owner).Blames c (Stuck .accesses c) := by
  have hp : c.pending = [c.current] ++ c.advance.pending :=
    c.pending_eq_cons (by rcases hk with hk | hk <;> simp [hk])
  refine blames_advance_bind ?_
  split
  · next hb =>
    have hb : c.current.kind = .leftBracket := by simpa using hb
    have hclosing := Terminal.readable_made .rightBracket (by decide)
    refine blames_rule_bind ?_ (hs.expression c.advance (hc.drop hp)) fun d c₁ hd hp₁ _ => ?_
    · refine h.expression.inside hc hp (fun d => .computed ⟨_, hb⟩ d (.made _) .noAccesses)
        fun d hd => ?_
      exact ⟨⟨hd, trivial⟩, _, by simp [Derivation.tokens], hclosing⟩
    · have hp₂ : c.pending = (c.current :: d.tokens) ++ c₁.pending := by
        rw [hp, hp₁]
        simp
      refine blames_expect_last (.here hp₂ ?_) _
      exact ⟨.computed ⟨_, hb⟩ d (.made _) .noAccesses, _, ⟨hd, trivial⟩,
        by simp [Derivation.tokens], hclosing⟩
  · next hb =>
    have hb : c.current.kind ≠ .leftBracket := by simpa using hb
    have hd : c.current.kind = .dot := by simpa [hb] using hk
    refine blames_map (blames_expect (.here hp ?_)) _
    exact ⟨.named ⟨_, hd⟩ (.made _) .noAccesses, _, trivial, rfl,
      Terminal.readable_made .identifier (by decide)⟩

theorem guided_accesses (hs : g.Sound depth) (h : g.Guided) {c : Cursor}
    (hc : Readable c.pending) :
    (iterate (sees [.dot, .leftBracket]) (access g) fuel owner).Blames c (Stuck .accesses c) := by
  induction fuel generalizing c owner with
  | nil => exact blames_pure _
  | cons _ fuel ih =>
    unfold iterate
    refine blames_sees_bind (fun hk => ?_) fun _ => blames_pure _
    have hk : c.current.kind = .dot ∨ c.current.kind = .leftBracket := by simpa using hk
    refine blames_bind (guided_access hs h owner hc hk) (sound_access hs owner hc hk) ?_
    rintro m c₁ ⟨taken, grow, -, hp, hgrow⟩
    refine (ih (hc.drop hp)).mono fun e c' hstuck => ?_
    refine hstuck.lift hp grow fun more hmore => ?_
    obtain ⟨hlegal, -, htokens⟩ := hgrow more hmore
    exact ⟨hlegal, [], by simp [htokens], readable_nil⟩

theorem guided_member (hs : g.Sound depth) (h : g.Guided) : Guided .member (member g) := by
  intro c hc
  refine blames_rule_bind ?_ (hs.primary c hc) fun d c₁ hd hp _ => ?_
  · exact h.primary.alone (fun d => .member d .noAccesses)
      (fun _ hd => ⟨⟨hd, trivial⟩, by simp [Derivation.tokens]⟩) c hc
  · refine blames_get_bind ((guided_accesses hs h (hc.drop hp)).mono fun e c' hstuck => ?_)
    refine hstuck.lift hp (.member d) fun more hmore => ?_
    exact ⟨⟨hd, hmore⟩, [], by simp [Derivation.tokens], readable_nil⟩

theorem guided_primary (hs : g.Sound depth) (h : g.Guided) : Guided .primary (primary g) := by
  intro c hc
  unfold primary
  refine blames_current_bind ?_
  split
  · exact blames_advance_bind (blames_pure _)
  · next hk =>
    have hp := c.pending_eq_cons (by simp [hk])
    have hd := hc c.current (by rw [hp]; simp) hk
    refine blames_advance_bind ?_
    rw [Numeral.read?_eq_value hd]
    exact blames_pure _
  · exact blames_advance_bind (blames_pure _)
  · next hk =>
    have hclosing := Terminal.readable_made .rightParen (by decide)
    refine blames_terminal_bind hk (by decide) fun opening c₁ hp => ?_
    have hp : c.pending = [opening.token] ++ c₁.pending := hp
    refine blames_rule_bind ?_ (hs.expression c₁ (hc.drop hp)) fun d c₂ hd hp₁ _ => ?_
    · refine h.expression.inside hc hp (fun d => .parenthesized opening d (.made _)) fun d hd => ?_
      exact ⟨hd, _, by simp [Derivation.tokens], hclosing⟩
    · have hp₂ : c.pending = (opening.token :: d.tokens) ++ c₂.pending := by
        rw [hp, hp₁]
        simp
      refine blames_expect_last (.here hp₂ ?_) _
      exact ⟨.parenthesized opening d (.made _), _, hd, by simp [Derivation.tokens], hclosing⟩
  · exact blames_reject (.start c)

theorem guided_statements (hs : g.Sound depth) (h : g.Guided) {c : Cursor}
    (hc : Readable c.pending) (hf : ∀ t ∈ c.pending, t.kind ≠ .fnWord) :
    (collect (return !(← sees [.endOfInput])) g.statement fuel).Blames c (Stuck .statements c) := by
  induction fuel generalizing c with
  | nil => exact blames_pure _
  | cons _ fuel ih =>
    unfold collect
    refine blames_not_sees_bind (fun hk => ?_) fun _ => blames_pure _
    have hk : c.current.kind ≠ .endOfInput := by simpa using hk
    have hw : c.current.kind ≠ .fnWord :=
      hf _ (by rw [c.pending_eq_cons hk]; exact List.mem_cons_self)
    refine blames_rule_bind ?_ (hs.statement c hc) fun d c₁ hd hp hcall => ?_
    · refine (h.statement c hc hw).mono fun e c' hstuck => ?_
      refine hstuck.lift (List.nil_append _).symm (fun d => .moreStatements d .noStatements)
        fun d hd => ?_
      exact ⟨⟨hd, trivial, by simp [Derivation.tokens]⟩, [], by simp [Derivation.tokens],
        readable_nil⟩
    · have hf₁ : ∀ t ∈ c₁.pending, t.kind ≠ .fnWord :=
        fun t ht => hf t (by rw [hp]; exact List.mem_append_right _ ht)
      refine blames_map ((ih (hc.drop hp) hf₁).mono fun e c' hstuck => ?_) _
      rcases hstuck with hstuck | ⟨x, front, he, hp₁, ss, more, hss, ht, hr⟩
      · exact .inl hstuck
      · have hp₂ : c.pending = (d.tokens ++ front) ++ c'.pending := by rw [hp, hp₁]; simp
        refine .inr ⟨x, d.tokens ++ front, he, hp₂, ?_⟩
        cases front with
        | nil =>
          exact ⟨.moreStatements d .noStatements, [], ⟨hd, trivial, by simp [Derivation.tokens]⟩,
            by simp [Derivation.tokens], readable_nil⟩
        | cons t front =>
          -- What the statement does not go on with begins the others.
          refine ⟨.moreStatements d ss, more, ⟨hd, hss, fun hends u hu => ?_⟩, ?_, hr⟩
          · rw [ht] at hu
            cases hu
            exact c₁.current_of_pending hp₁ ▸ hcall hends
          · simp [Derivation.tokens, ht]

end Rules

namespace Grammar

theorem Guided.next {g : Grammar} (hs : g.Sound depth) (h : g.Guided) : g.next.Guided where
  statement _ hc hk := Rules.guided_statement h hc hk
  declaration _ hc hk := Rules.guided_declaration hs h hc hk
  expression := h.assignment
  assignment := Rules.guided_assignment hs h
  object := Rules.guided_object hs h
  sum := Rules.guided_sum hs h
  product := Rules.guided_product hs h
  callOrMember := Rules.guided_callOrMember hs h
  call := Rules.guided_call hs h
  arguments := Rules.guided_arguments hs h
  member := Rules.guided_member hs h
  primary := Rules.guided_primary hs h

theorem guided_throw (s : Symbol) : Ember.Guided s (throw .tooDeep : Parser α) := by
  rintro c - e c' h
  cases h
  exact .inl rfl

theorem guided_exhausted : exhausted.Guided where
  statement c hc _ := guided_throw _ c hc
  declaration c hc _ := guided_throw _ c hc
  expression := guided_throw _
  assignment := guided_throw _
  object := guided_throw _
  sum := guided_throw _
  product := guided_throw _
  callOrMember := guided_throw _
  call _ := guided_throw _
  arguments := guided_throw _
  member := guided_throw _
  primary := guided_throw _

theorem guided_ofDepth (depth : Nat) : (ofDepth depth).Guided := by
  induction depth with
  | zero => exact guided_exhausted
  | succ depth ih => exact ih.next (sound_ofDepth depth)

/-- Where the outermost rule stops, the tokens before begin a list of statements. -/
theorem guided_program (depth : Nat) {c : Cursor} (hc : Readable c.pending)
    (hf : ∀ t ∈ c.pending, t.kind ≠ .fnWord) :
    (ofDepth depth).program.Blames c (Stuck .statements c) := by
  cases depth with
  | zero => exact guided_throw _ c hc
  | succ depth =>
    refine Parser.blames_map (Parser.blames_get_bind ?_) _
    exact Rules.guided_statements (sound_ofDepth depth) (guided_ofDepth depth) hc hf

/-- Token lists with their end of input that are parsed, at some depth. -/
def Accepted (tokens : List Token) : Prop :=
  Ended tokens ∧ ∃ depth node, (ofDepth depth).parse tokens = .ok node

/-- What a list of statements begins with can be completed to a program. -/
theorem accepted_of_viable (h : Viable .statements front) (hr : Readable front) :
    ∃ more, Accepted (front ++ more) := by
  obtain ⟨ss, more, hss, ht, hm⟩ := h
  let d : Derivation .program := .program ss (.made .endOfInput)
  have hd : d.tokens = front ++ (more ++ [(Terminal.made .endOfInput).token]) := by
    rw [← List.append_assoc, ← ht]
    rfl
  have hended : Ended d.tokens := ⟨ss.tokens, _, rfl, rfl, ss.kind_ne_endOfInput (by simp)⟩
  have hread : Readable d.tokens :=
    hd ▸ hr.append (hm.append (Terminal.readable_made .endOfInput (by decide)))
  obtain ⟨hdepth, hparse⟩ := parse_recognizes (10 * d.tokens.length + 10) d.tokens hended hread
  have hnode := ((hparse (hdepth (Nat.le_refl _))).2.1 d ⟨hss, rfl⟩).1
  have haccepted : Accepted d.tokens := ⟨hended, _, d.tree, hnode⟩
  exact ⟨_, hd ▸ haccepted⟩

/-- What stops the parser at a token stops it in all lists that agree up to this token. -/
theorem not_accepted_of_error (he : e ≠ .tooDeep)
    (h : (ofDepth depth).program (.ofTokens (front ++ t :: rest)) = .error e c)
    (hc : c.pending = t :: rest) (more : List Token) : ¬Accepted (front ++ t :: more) := by
  rintro ⟨-, depth', node, hparse⟩
  obtain ⟨c', hfail⟩ := program_eq_error_of_sharing (Nat.le_max_left depth depth') he h hc more
  unfold parse at hparse
  rcases program_ofDepth_le (Nat.le_max_right depth depth') (.ofTokens (front ++ t :: more)) with
    ⟨c'', hdeep⟩ | hsame
  · rw [hdeep] at hparse
    cases hparse
  · rw [← hsame, hfail] at hparse
    cases hparse

theorem exists_pending_of_viable (he : Ended (front ++ rest)) (h : Viable .statements front) :
    ∃ t more, rest = t :: more := by
  cases rest with
  | cons t more => exact ⟨t, more, rfl⟩
  | nil =>
    obtain ⟨body, stop, hbody, hstop, -⟩ := he
    obtain ⟨ss, more, -, hss, -⟩ := h
    rw [List.append_nil] at hbody
    have hmem : stop ∈ ss.tokens := by simp [hss, hbody]
    exact absurd hstop (ss.kind_ne_endOfInput (by simp) stop hmem)

theorem index_of_program_eq_error
    (h : (ofDepth depth).program (.ofTokens (front ++ t :: rest)) = .error e c)
    (hc : c.pending = t :: rest) : c.index = front.length := by
  obtain ⟨front', -, hfront, htaken, -⟩ := ((moves_ofDepth depth).program _).of_eq_error h
  have hfront : front ++ t :: rest = front' ++ c.pending := hfront
  rw [hc] at hfront
  have htaken : c.taken = 0 + front'.length := htaken
  rw [Cursor.index, hc, htaken, ← List.append_cancel_right hfront]
  simp

theorem parse_eq_error {g : Grammar} (h : g.parse tokens = .error e) :
    ∃ c, g.program (.ofTokens tokens) = .error e c := by
  unfold parse at h
  split at h
  · cases h
  · next hp => exact ⟨_, Except.error.inj h ▸ hp⟩

/-- The parser finds errors as early as they can be found. Of a list of tokens without functions, it
fails at the one where its cursor stands. The tokens before this one can be completed to a program,
and with it they cannot. -/
theorem parse_viable_prefix (depth : Nat) (tokens : List Token) (e : ParseError)
    (he : Ended tokens) (hr : Readable tokens) (hf : ∀ t ∈ tokens, t.kind ≠ .fnWord)
    (h : (ofDepth depth).parse tokens = .error e) (hd : e ≠ .tooDeep) :
    ∃ c x t, (ofDepth depth).program (.ofTokens tokens) = .error e c ∧ e = .unexpected x t ∧
      tokens[c.index]? = some t ∧
      (∃ more, Accepted (tokens.take c.index ++ more)) ∧
      ∀ more, ¬Accepted (tokens.take (c.index + 1) ++ more) := by
  obtain ⟨c, hp⟩ := parse_eq_error h
  rcases guided_program depth hr hf e c hp with hdeep | ⟨x, front, rfl, htokens, hviable⟩
  · exact absurd hdeep hd
  obtain rfl : tokens = front ++ c.pending := htokens
  obtain ⟨t, rest, hc⟩ := exists_pending_of_viable he hviable
  rw [hc] at hp hr
  rw [c.current_of_pending hc] at hp hd ⊢
  have hindex := index_of_program_eq_error hp hc
  rw [hc]
  refine ⟨c, x, t, hp, rfl, ?_, ?_, fun more => ?_⟩
  · rw [hindex]
    simp
  · rw [hindex, List.take_left]
    exact accepted_of_viable hviable fun t ht => hr t (List.mem_append_left _ ht)
  · rw [hindex, List.take_length_add_append]
    have hnot := not_accepted_of_error hd hp hc more
    simpa using hnot

/-- The tokens of `x = f(1, );` with the parenthesis that no argument stands before. -/
def unfinished : List Token :=
  [⟨.identifier, "x", ⟨1, 1⟩⟩, ⟨.equals, "=", ⟨1, 3⟩⟩, ⟨.identifier, "f", ⟨1, 5⟩⟩,
    ⟨.leftParen, "(", ⟨1, 6⟩⟩, ⟨.number, "1", ⟨1, 7⟩⟩, ⟨.comma, ",", ⟨1, 8⟩⟩,
    ⟨.rightParen, ")", ⟨1, 10⟩⟩, ⟨.semicolon, ";", ⟨1, 11⟩⟩, .endOfInput ⟨1, 12⟩]

theorem parse_viable_prefix_unfinished :
    Ended unfinished ∧ Readable unfinished ∧ (∀ t ∈ unfinished, t.kind ≠ .fnWord) ∧
      (ofDepth 90).parse unfinished = .error (.unexpected .operand ⟨.rightParen, ")", ⟨1, 10⟩⟩) ∧
      ∃ i, unfinished[i]? = some ⟨.rightParen, ")", ⟨1, 10⟩⟩ ∧
        (∃ more, Accepted (unfinished.take i ++ more)) ∧
        ∀ more, ¬Accepted (unfinished.take (i + 1) ++ more) := by
  have he : Ended unfinished := ⟨unfinished.dropLast, .endOfInput ⟨1, 12⟩, rfl, rfl, by decide⟩
  have hr : Readable unfinished := by
    have hd : Numeral.IsDigits "1" := ⟨by decide, List.all_eq_true.1 rfl⟩
    simp [Readable, unfinished, Token.endOfInput, hd]
  have hf : ∀ t ∈ unfinished, t.kind ≠ .fnWord := by decide
  have hparse : (ofDepth 90).parse unfinished =
      .error (.unexpected .operand ⟨.rightParen, ")", ⟨1, 10⟩⟩) := rfl
  obtain ⟨c, x, t, -, hx, hrest⟩ := parse_viable_prefix 90 unfinished _ he hr hf hparse (by simp)
  cases hx
  exact ⟨he, hr, hf, hparse, c.index, hrest⟩

end Grammar

end Ember
