import Ember.Grammar.Rules
import Ember.Proofs.Digits

/-!
The grammar as a set of productions. A derivation is a tree of productions over tokens; it has the
tokens at its leaves, the node that it stands for, and a restriction that the productions cannot
say: a statement that ends in a call is not followed by an opening parenthesis.
-/

namespace Ember

set_option autoImplicit true

inductive Level where
  | sum
  | product

/-- What stands in a list between parentheses. -/
inductive Item where
  | parameter
  | argument

/-- The nonterminal symbols. Repetitions have symbols of their own. -/
inductive Symbol where
  | program
  | statements
  | statement
  | expression
  | object
  | properties
  | property
  | chain (level : Level)
  | operations (level : Level)
  | operand (level : Level)
  | call
  | calls
  | member
  | accesses
  | primary
  | tuple (item : Item)
  | items (item : Item)
  | item (item : Item)

def Level.operators : Level → List String
  | .sum => ["+", "-"]
  | .product => ["*", "/", "%"]

@[ext] structure Terminal (kind : TokenKind) where
  token : Token
  isKind : token.kind = kind

@[ext] structure Operator (level : Level) where
  token : Token
  isOperator : token.kind = .operator
  isOfLevel : token.text ∈ level.operators

@[ext] structure Opener where
  token : Token
  opens : token.kind = .letWord ∨ token.kind = .constWord

inductive Derivation : Symbol → Type where
  | program : Derivation .statements → Terminal .endOfInput → Derivation .program
  | noStatements : Derivation .statements
  | moreStatements : Derivation .statement → Derivation .statements → Derivation .statements
  | uninitialized : Terminal .letWord → Terminal .identifier → Terminal .semicolon →
      Derivation .statement
  | initialized : Opener → Terminal .identifier → Terminal .equals → Derivation .expression →
      Terminal .semicolon → Derivation .statement
  | function : Terminal .fnWord → Terminal .identifier → Derivation (.tuple .parameter) →
      Terminal .leftBrace → Derivation .statements → Terminal .rightBrace → Derivation .statement
  | evaluated : Derivation .expression → Derivation .statement
  | plain : Derivation .object → Derivation .expression
  | assigned : Derivation .object → Terminal .equals → Derivation .expression →
      Terminal .semicolon → Derivation .expression
  | braces : Terminal .leftBrace → Derivation .properties → Terminal .rightBrace →
      Derivation .object
  | sum : Derivation (.chain .sum) → Derivation .object
  | noProperties : Derivation .properties
  | lastProperty : Derivation .property → Derivation .properties
  | moreProperties : Derivation .property → Terminal .comma → Derivation .properties →
      Derivation .properties
  | shorthand : Terminal .identifier → Derivation .property
  | keyed : Terminal .identifier → Terminal .colon → Derivation .expression →
      Derivation .property
  | chain {level : Level} : Derivation (.operand level) → Derivation (.operations level) →
      Derivation (.chain level)
  | noOperations {level : Level} : Derivation (.operations level)
  | moreOperations {level : Level} : Operator level → Derivation (.operand level) →
      Derivation (.operations level) → Derivation (.operations level)
  | term : Derivation (.chain .product) → Derivation (.operand .sum)
  | factor : Derivation .call → Derivation (.operand .product)
  | call : Derivation .member → Derivation .calls → Derivation .call
  | noCalls : Derivation .calls
  | moreCalls : Derivation (.tuple .argument) → Derivation .calls → Derivation .calls
  | member : Derivation .primary → Derivation .accesses → Derivation .member
  | noAccesses : Derivation .accesses
  | named : Terminal .dot → Terminal .identifier → Derivation .accesses → Derivation .accesses
  | computed : Terminal .leftBracket → Derivation .expression → Terminal .rightBracket →
      Derivation .accesses → Derivation .accesses
  | identifier : Terminal .identifier → Derivation .primary
  | number : Terminal .number → Derivation .primary
  | string : Terminal .string → Derivation .primary
  | parenthesized : Terminal .leftParen → Derivation .expression → Terminal .rightParen →
      Derivation .primary
  | emptyTuple {item : Item} : Terminal .leftParen → Terminal .rightParen →
      Derivation (.tuple item)
  | tuple {item : Item} : Terminal .leftParen → Derivation (.item item) →
      Derivation (.items item) → Terminal .rightParen → Derivation (.tuple item)
  | noItems {item : Item} : Derivation (.items item)
  | moreItems {item : Item} : Terminal .comma → Derivation (.item item) →
      Derivation (.items item) → Derivation (.items item)
  /-- A parameter is an expression that stands for the identifier of this name. -/
  | parameter : String → Derivation .expression → Derivation (.item .parameter)
  | argument : Derivation .expression → Derivation (.item .argument)

abbrev Item.Meaning : Item → Type
  | .parameter => String
  | .argument => Node

/-- What the derivations of a symbol stand for; a repetition after an operand maps its node. -/
abbrev Symbol.Meaning : Symbol → Type
  | .statements | .properties => List Node
  | .operations _ | .calls | .accesses => Node → Node
  | .tuple i | .items i => List i.Meaning
  | .item i => i.Meaning
  | .program | .statement | .expression | .object | .property | .chain _ | .operand _ | .call
  | .member | .primary => Node

namespace Derivation

def tokens : Derivation s → List Token
  | .program ss stop => ss.tokens ++ [stop.token]
  | .noStatements | .noProperties | .noOperations | .noCalls | .noAccesses | .noItems => []
  | .moreStatements s ss => s.tokens ++ ss.tokens
  | .uninitialized word name stop => [word.token, name.token, stop.token]
  | .initialized word name equals value stop =>
    word.token :: name.token :: equals.token :: (value.tokens ++ [stop.token])
  | .function word name params opening body closing =>
    word.token :: name.token ::
      (params.tokens ++ opening.token :: (body.tokens ++ [closing.token]))
  | .evaluated e => e.tokens
  | .plain o => o.tokens
  | .assigned o equals value stop => o.tokens ++ equals.token :: (value.tokens ++ [stop.token])
  | .braces opening ps closing => opening.token :: (ps.tokens ++ [closing.token])
  | .sum e => e.tokens
  | .lastProperty p => p.tokens
  | .moreProperties p comma ps => p.tokens ++ comma.token :: ps.tokens
  | .shorthand key => [key.token]
  | .keyed key colon value => key.token :: colon.token :: value.tokens
  | .chain first more => first.tokens ++ more.tokens
  | .moreOperations operator operand more => operator.token :: (operand.tokens ++ more.tokens)
  | .term e => e.tokens
  | .factor e => e.tokens
  | .call callee more => callee.tokens ++ more.tokens
  | .moreCalls arguments more => arguments.tokens ++ more.tokens
  | .member owner more => owner.tokens ++ more.tokens
  | .named dot name more => dot.token :: name.token :: more.tokens
  | .computed opening key closing more =>
    opening.token :: (key.tokens ++ closing.token :: more.tokens)
  | .identifier t => [t.token]
  | .number t => [t.token]
  | .string t => [t.token]
  | .parenthesized opening e closing => opening.token :: (e.tokens ++ [closing.token])
  | .emptyTuple opening closing => [opening.token, closing.token]
  | .tuple opening first more closing =>
    opening.token :: (first.tokens ++ (more.tokens ++ [closing.token]))
  | .moreItems comma i more => comma.token :: (i.tokens ++ more.tokens)
  | .parameter _ e => e.tokens
  | .argument e => e.tokens

def tree : Derivation s → s.Meaning
  | .program ss _ => .program ss.tree
  | .noStatements | .noProperties | .noItems => []
  | .moreStatements s ss => s.tree :: ss.tree
  | .uninitialized _ name _ => .declaration name.token.text false none
  | .initialized word name _ value _ =>
    .declaration name.token.text (word.token.kind == .constWord) (some value.tree)
  | .function _ name params _ body _ => .function name.token.text params.tree body.tree
  | .evaluated e => e.tree
  | .plain o => o.tree
  | .assigned o _ value _ => .assignment o.tree value.tree
  | .braces _ ps _ => .object ps.tree
  | .sum e => e.tree
  | .lastProperty p => [p.tree]
  | .moreProperties p _ ps => p.tree :: ps.tree
  | .shorthand key => .property key.token.text none
  | .keyed key _ value => .property key.token.text (some value.tree)
  | .chain first more => more.tree first.tree
  | .noOperations | .noCalls | .noAccesses => id
  | .moreOperations operator operand more =>
    fun left => more.tree (.binary left operand.tree operator.token.text)
  | .term e => e.tree
  | .factor e => e.tree
  | .call callee more => more.tree callee.tree
  | .moreCalls arguments more => fun callee => more.tree (.call callee arguments.tree)
  | .member owner more => more.tree owner.tree
  | .named _ name more =>
    fun owner => more.tree (.member owner (.identifier name.token.text) false)
  | .computed _ key _ more => fun owner => more.tree (.member owner key.tree true)
  | .identifier t => .identifier t.token.text
  | .number t => .number (Numeral.value t.token.text)
  | .string t => .string t.token.text
  | .parenthesized _ e _ => e.tree
  | .emptyTuple _ _ => []
  | .tuple _ first more _ => first.tree :: more.tree
  | .moreItems _ i more => i.tree :: more.tree
  | .parameter name _ => name
  | .argument e => e.tree

def nesting : Derivation s → Nat
  | .program ss _ => ss.nesting + 1
  | .noStatements | .noProperties | .shorthand _ | .noOperations | .noCalls | .noAccesses
  | .noItems => 0
  | .moreStatements s ss => max s.nesting ss.nesting
  | .uninitialized .. => 2
  | .initialized _ _ _ value _ => value.nesting + 3
  | .function _ _ params _ body _ => max params.nesting body.nesting + 2
  | .evaluated e => e.nesting + 2
  | .plain o => o.nesting + 1
  | .assigned o _ value _ => max o.nesting value.nesting + 1
  | .braces _ ps _ => ps.nesting + 1
  | .sum e => e.nesting + 1
  | .lastProperty p => p.nesting
  | .moreProperties p _ ps => max p.nesting ps.nesting
  | .keyed _ _ value => value.nesting + 1
  | .chain first more => max first.nesting more.nesting + 1
  | .moreOperations _ operand more => max operand.nesting more.nesting
  | .term e => e.nesting
  | .factor e => e.nesting
  | .call callee more => max callee.nesting more.nesting + 1
  | .moreCalls arguments more => max arguments.nesting more.nesting + 1
  | .member owner more => max owner.nesting more.nesting + 1
  | .named _ _ more => more.nesting
  | .computed _ key _ more => max (key.nesting + 1) more.nesting
  | .identifier _ | .number _ | .string _ => 1
  | .parenthesized _ e _ => e.nesting + 2
  | .emptyTuple .. => 1
  | .tuple _ first more _ => max first.nesting more.nesting + 1
  | .moreItems _ i more => max i.nesting more.nesting
  | .parameter _ e => e.nesting + 1
  | .argument e => e.nesting

/-- Whether the last production is that of a call, so that a parenthesis would go on with it. -/
def EndsInCall : Derivation s → Prop
  | .evaluated e => e.EndsInCall
  | .plain o => o.EndsInCall
  | .sum _ | .chain .. | .term _ | .factor _ | .call .. => True
  | _ => False

/-- Parameters stand for identifiers, and no opening parenthesis follows a statement that ends in a
call. -/
def Legal : Derivation s → Prop
  | .program ss _ => ss.Legal
  | .moreStatements s ss =>
    s.Legal ∧ ss.Legal ∧ (s.EndsInCall → ∀ t ∈ ss.tokens.head?, t.kind ≠ .leftParen)
  | .initialized _ _ _ value _ => value.Legal
  | .function _ _ params _ body _ => params.Legal ∧ body.Legal
  | .evaluated e => e.Legal
  | .plain o => o.Legal
  | .assigned o _ value _ => o.Legal ∧ value.Legal
  | .braces _ ps _ => ps.Legal
  | .sum e => e.Legal
  | .lastProperty p => p.Legal
  | .moreProperties p _ ps => p.Legal ∧ ps.Legal
  | .keyed _ _ value => value.Legal
  | .chain first more => first.Legal ∧ more.Legal
  | .moreOperations _ operand more => operand.Legal ∧ more.Legal
  | .term e => e.Legal
  | .factor e => e.Legal
  | .call callee more => callee.Legal ∧ more.Legal
  | .moreCalls arguments more => arguments.Legal ∧ more.Legal
  | .member owner more => owner.Legal ∧ more.Legal
  | .named _ _ more => more.Legal
  | .computed _ key _ more => key.Legal ∧ more.Legal
  | .parenthesized _ e _ => e.Legal
  | .tuple _ first more _ => first.Legal ∧ more.Legal
  | .moreItems _ i more => i.Legal ∧ more.Legal
  | .parameter name e => e.Legal ∧ e.tree = .identifier name
  | .argument e => e.Legal
  | .noStatements | .noProperties | .noOperations | .noCalls | .noAccesses | .noItems
  | .uninitialized .. | .shorthand _ | .identifier _ | .number _ | .string _
  | .emptyTuple .. => True

end Derivation

/-- Tokens that would go on with a derivation of a symbol, whatever the derivation is. -/
def Symbol.Extends : Symbol → Token → Prop
  | .member, t | .accesses, t => t.kind = .dot ∨ t.kind = .leftBracket
  | .call, t | .calls, t | .operand .product, t =>
    t.kind = .leftParen ∨ t.kind = .dot ∨ t.kind = .leftBracket
  | .chain .product, t | .operations .product, t | .operand .sum, t =>
    (t.kind = .operator ∧ t.text ∈ Level.product.operators) ∨
      t.kind = .leftParen ∨ t.kind = .dot ∨ t.kind = .leftBracket
  | .chain .sum, t | .operations .sum, t =>
    (t.kind = .operator ∧ (t.text ∈ Level.sum.operators ∨ t.text ∈ Level.product.operators)) ∨
      t.kind = .leftParen ∨ t.kind = .dot ∨ t.kind = .leftBracket
  | .statements, t => t.kind ≠ .endOfInput ∧ t.kind ≠ .rightBrace
  | .properties, t => t.kind ≠ .rightBrace
  | .property, t => t.kind ≠ .comma ∧ t.kind ≠ .rightBrace
  | .items _, t => t.kind ≠ .rightParen
  | .program, _ | .statement, _ | .expression, _ | .object, _ | .primary, _ | .tuple _, _
  | .item _, _ => False

namespace Derivation

def Extends : {s : Symbol} → Derivation s → Token → Prop
  | _, .evaluated e, t => e.Extends t
  | _, .plain o, t => t.kind = .equals ∨ o.Extends t
  | _, .sum _, t => Symbol.Extends (.chain .sum) t
  | _, .parameter _ e, t => e.Extends t
  | _, .argument e, t => e.Extends t
  | s, _, t => s.Extends t

/-- Nothing at the start of `rest` goes on with the derivation. -/
def Stops (d : Derivation s) (rest : List Token) : Prop :=
  ∀ t ∈ rest.head?, ¬d.Extends t

end Derivation

def operandKinds : List TokenKind := [.identifier, .number, .string, .leftParen]

/-- Kinds of the tokens that the derivations of a symbol start with; none for a repetition. -/
def Symbol.first : Symbol → List TokenKind
  | .statement => .letWord :: .constWord :: .fnWord :: .leftBrace :: operandKinds
  | .expression | .object | .item _ => .leftBrace :: operandKinds
  | .chain _ | .operand _ | .call | .member | .primary => operandKinds
  | .property => [.identifier]
  | .tuple _ => [.leftParen]
  | .program | .statements | .properties | .operations _ | .calls | .accesses | .items _ => []

namespace Derivation

theorem exists_first (d : Derivation s) (hs : s.first ≠ []) :
    ∃ t rest, d.tokens = t :: rest ∧ t.kind ∈ s.first := by
  induction d with
  | program | noStatements | moreStatements | noProperties | lastProperty | moreProperties
  | noOperations | moreOperations | noCalls | moreCalls | noAccesses | named | computed | noItems
  | moreItems => exact absurd rfl hs
  | uninitialized word => exact ⟨_, _, rfl, by simp [Symbol.first, word.isKind]⟩
  | initialized word =>
    refine ⟨_, _, rfl, ?_⟩
    rcases word.opens with h | h <;> simp [Symbol.first, h]
  | function word => exact ⟨_, _, rfl, by simp [Symbol.first, word.isKind]⟩
  | evaluated e ih =>
    obtain ⟨t, rest, he, hk⟩ := ih (by simp [Symbol.first])
    exact ⟨t, rest, he, List.mem_cons_of_mem _ (List.mem_cons_of_mem _ (List.mem_cons_of_mem _ hk))⟩
  | plain o ih => exact ih (by simp [Symbol.first])
  | assigned o _ _ _ ih =>
    obtain ⟨t, rest, he, hk⟩ := ih (by simp [Symbol.first])
    exact ⟨t, _, by rw [tokens, he]; rfl, hk⟩
  | braces opening => exact ⟨_, _, rfl, by simp [Symbol.first, opening.isKind]⟩
  | sum e ih =>
    obtain ⟨t, rest, he, hk⟩ := ih (by simp [Symbol.first, operandKinds])
    exact ⟨t, rest, he, List.mem_cons_of_mem _ hk⟩
  | shorthand key => exact ⟨_, _, rfl, by simp [Symbol.first, key.isKind]⟩
  | keyed key => exact ⟨_, _, rfl, by simp [Symbol.first, key.isKind]⟩
  | chain first more ih =>
    obtain ⟨t, rest, he, hk⟩ := ih hs
    exact ⟨t, _, by rw [tokens, he]; rfl, hk⟩
  | term e ih => exact ih hs
  | factor e ih => exact ih hs
  | call callee more ih =>
    obtain ⟨t, rest, he, hk⟩ := ih hs
    exact ⟨t, _, by rw [tokens, he]; rfl, hk⟩
  | member owner more ih =>
    obtain ⟨t, rest, he, hk⟩ := ih hs
    exact ⟨t, _, by rw [tokens, he]; rfl, hk⟩
  | identifier t | number t | string t | parenthesized t =>
    exact ⟨_, _, rfl, by simp [Symbol.first, operandKinds, t.isKind]⟩
  | emptyTuple opening => exact ⟨_, _, rfl, by simp [Symbol.first, opening.isKind]⟩
  | tuple opening => exact ⟨_, _, rfl, by simp [Symbol.first, opening.isKind]⟩
  | parameter _ e ih => exact ih (by simp [Symbol.first])
  | argument e ih => exact ih (by simp [Symbol.first])

/-- A statement nests two rules at least, its own and that of its form. -/
theorem one_lt_nesting (d : Derivation .statement) : 1 < d.nesting := by
  cases d <;> simp [nesting]

end Derivation

end Ember
