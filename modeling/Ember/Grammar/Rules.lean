import Ember.Decimal.Numeral
import Ember.Grammar.Cursor
import Ember.Grammar.Expectation
import Ember.Token.Scanner

/-!
The grammar, one rule per level of precedence: assignment, object, sum, product, call, member and
primary. Rules call each other through a `Grammar`, and nesting is bounded by stacking a bounded
number of them.
-/

namespace Ember

/-- A parser that fails leaves the cursor where it stopped. -/
abbrev Parser := EStateM ParseError Cursor

namespace Parser

def current : Parser Token := fun c => .ok c.current c

/-- Takes the current token. -/
def advance : Parser Token := fun c => .ok c.current c.advance

/-- Whether the current token is of one of the given kinds. -/
def sees (kinds : List TokenKind) : Parser Bool :=
  return kinds.contains (← current).kind

/-- Whether the current token is one of the given operators. -/
def seesOperator (operators : List String) : Parser Bool := do
  let token ← current
  return token.kind == .operator && operators.contains token.text

/-- Fails at the current token. -/
def reject {α : Type} (e : Expectation) : Parser α := do
  throw (.unexpected e (← current))

/-- Takes the current token if it meets the expectation. -/
def expect (e : Expectation) : Parser Token := do
  if e.kind? = some (← current).kind then advance else reject e

/-- Repeats a step while a test holds, at most once for each of the given tokens. -/
def iterate {α : Type} (test : Parser Bool) (step : α → Parser α) : List Token → α → Parser α
  | [], a => pure a
  | _ :: fuel, a => do
    if ← test then
      iterate test step fuel (← step a)
    else
      pure a

/-- Repeats a step while a test holds. Steps take tokens and the test fails at the end of input, so
one round for each pending token is enough. -/
def loop {α : Type} (test : Parser Bool) (step : α → Parser α) (a : α) : Parser α := do
  iterate test step (← get).pending a

/-- Collects items while a test holds, in order, at most one for each of the given tokens. -/
def collect {α : Type} (test : Parser Bool) (item : Parser α) : List Token → Parser (List α)
  | [] => pure []
  | _ :: fuel => do
    if ← test then
      let first ← item
      let rest ← collect test item fuel
      pure (first :: rest)
    else
      pure []

/-- Collects items while a test holds, in order. Items take tokens and the test fails at the end of
input, so one round for each pending token is enough. -/
def many {α : Type} (test : Parser Bool) (item : Parser α) : Parser (List α) := do
  collect test item (← get).pending

/-- Items up to a token of one of the given kinds or the end of input. -/
def manyUntil {α : Type} (kinds : List TokenKind) (item : Parser α) : Parser (List α) :=
  many (return !(← sees (.endOfInput :: kinds))) item

/-- Items between parentheses, with commas between them. -/
def parenthesized {α : Type} (opening closing : Expectation) (item : Parser α) :
    Parser (List α) := do
  let _ ← expect opening
  if ← sees [.rightParen] then
    let _ ← expect closing
    pure []
  else
    let first ← item
    let rest ← many (sees [.comma]) do
      let _ ← advance
      item
    let _ ← expect closing
    pure (first :: rest)

end Parser

/-- A parser for each rule. -/
structure Grammar where
  program : Parser Node
  statement : Parser Node
  declaration : Parser Node
  function : Parser Node
  params : Parser (List String)
  param : Parser String
  expression : Parser Node
  assignment : Parser Node
  object : Parser Node
  sum : Parser Node
  product : Parser Node
  callOrMember : Parser Node
  call : Node → Parser Node
  arguments : Parser (List Node)
  member : Parser Node
  primary : Parser Node

namespace Rules

open Ember.Parser

def program (g : Grammar) : Parser Node :=
  return .program (← manyUntil [] g.statement)

def statement (g : Grammar) : Parser Node := do
  if ← sees [.letWord, .constWord] then g.declaration
  else if ← sees [.fnWord] then g.function
  else g.expression

/-- A declaration is `let x;`, `let x = value;` or `const x = value;`. -/
def declaration (g : Grammar) : Parser Node := do
  let constant := (← advance).kind == .constWord
  let name := (← expect .declaredName).text
  if ← sees [.semicolon] then
    if constant then
      reject (.initializer name)
    else
      let _ ← advance
      pure (.declaration name false none)
  else
    let _ ← expect .declarationEquals
    let value ← g.expression
    let _ ← expect .declarationEnd
    pure (.declaration name constant (some value))

/-- A function is `fn name(a, b)` and a body in braces. -/
def function (g : Grammar) : Parser Node := do
  let _ ← advance
  let name := (← expect .functionName).text
  if ← sees [.leftParen] then
    let params ← g.params
    let _ ← expect .functionBody
    let body ← manyUntil [.rightBrace] g.statement
    let _ ← expect .functionEnd
    pure (.function name params body)
  else
    reject .parameterList

def params (g : Grammar) : Parser (List String) :=
  parenthesized .parametersOpen .parametersClose g.param

/-- A parameter is written like an argument, and must turn out to be a name. -/
def param (g : Grammar) : Parser String := do
  let start ← current
  match ← g.assignment with
  | .identifier name => pure name
  | other => throw (.unexpected (.parameterName other.kind) start)

def expression (g : Grammar) : Parser Node :=
  g.assignment

/-- Assignments `target = value;` group to the right, and each ends with its own semicolon. -/
def assignment (g : Grammar) : Parser Node := do
  let left ← g.object
  if ← sees [.equals] then
    let _ ← advance
    let value ← g.assignment
    let _ ← expect .assignmentEnd
    pure (.assignment left value)
  else
    pure left

/-- A property is `key` or `key: value`, and a comma unless the closing brace follows. -/
def property (g : Grammar) : Parser Node := do
  let key := (← expect .propertyKey).text
  if ← sees [.comma] then
    let _ ← advance
    pure (.property key none)
  else if ← sees [.rightBrace] then
    pure (.property key none)
  else
    let _ ← expect .propertyColon
    let value ← g.expression
    if ← sees [.rightBrace] then
      pure (.property key (some value))
    else
      let _ ← expect .propertyEnd
      pure (.property key (some value))

def object (g : Grammar) : Parser Node := do
  if ← sees [.leftBrace] then
    let _ ← advance
    let properties ← manyUntil [.rightBrace] (property g)
    let _ ← expect .objectEnd
    pure (.object properties)
  else
    g.sum

/-- Operands with operators between them, grouped to the left. -/
def chain (operators : List String) (operand : Parser Node) : Parser Node := do
  let first ← operand
  loop (seesOperator operators) (fun left => do
    let operator := (← advance).text
    let right ← operand
    pure (.binary left right operator)) first

def sum (g : Grammar) : Parser Node :=
  chain ["+", "-"] g.product

def product (g : Grammar) : Parser Node :=
  chain ["*", "/", "%"] g.callOrMember

def callOrMember (g : Grammar) : Parser Node := do
  let member ← g.member
  if ← sees [.leftParen] then g.call member else pure member

/-- A call of `callee`, and calls of its result. -/
def call (g : Grammar) (callee : Node) : Parser Node := do
  let arguments ← g.arguments
  let result := Node.call callee arguments
  if ← sees [.leftParen] then g.call result else pure result

def arguments (g : Grammar) : Parser (List Node) :=
  parenthesized .argumentsOpen .argumentsClose g.assignment

/-- An access is `.name` or `[key]` after the object. -/
def access (g : Grammar) (owner : Node) : Parser Node := do
  if (← advance).kind == .leftBracket then
    let key ← g.expression
    let _ ← expect .computedClose
    pure (.member owner key true)
  else
    let name := (← expect .memberName).text
    pure (.member owner (.identifier name) false)

def member (g : Grammar) : Parser Node := do
  let owner ← g.primary
  loop (sees [.dot, .leftBracket]) (access g) owner

def primary (g : Grammar) : Parser Node := do
  let token ← current
  match token.kind with
  | .identifier =>
    let _ ← advance
    pure (.identifier token.text)
  | .number =>
    let _ ← advance
    match Numeral.read? token.text with
    | some value => pure (.number value)
    | none => throw (.malformedNumber token.text)
  | .string =>
    let _ ← advance
    pure (.string token.text)
  | .leftParen =>
    let _ ← advance
    let value ← g.expression
    let _ ← expect .parenClose
    pure value
  | _ => reject .operand

end Rules

namespace Grammar

/-- The rules, where every call of another rule goes to `g`. -/
def next (g : Grammar) : Grammar where
  program := Rules.program g
  statement := Rules.statement g
  declaration := Rules.declaration g
  function := Rules.function g
  params := Rules.params g
  param := Rules.param g
  expression := Rules.expression g
  assignment := Rules.assignment g
  object := Rules.object g
  sum := Rules.sum g
  product := Rules.product g
  callOrMember := Rules.callOrMember g
  call := Rules.call g
  arguments := Rules.arguments g
  member := Rules.member g
  primary := Rules.primary g

/-- Every rule fails at once. -/
def exhausted : Grammar where
  program := throw .tooDeep
  statement := throw .tooDeep
  declaration := throw .tooDeep
  function := throw .tooDeep
  params := throw .tooDeep
  param := throw .tooDeep
  expression := throw .tooDeep
  assignment := throw .tooDeep
  object := throw .tooDeep
  sum := throw .tooDeep
  product := throw .tooDeep
  callOrMember := throw .tooDeep
  call := fun _ => throw .tooDeep
  arguments := throw .tooDeep
  member := throw .tooDeep
  primary := throw .tooDeep

/-- The rules, nested at most `depth` deep. -/
def ofDepth : Nat → Grammar
  | 0 => exhausted
  | depth + 1 => next (ofDepth depth)

/-- The depth to which rules nest by default. -/
def standardDepth : Nat := 1000

def standard : Grammar := ofDepth standardDepth

/-- The program that a token list spells. -/
def parse (g : Grammar) (tokens : List Token) : Except ParseError Node :=
  match g.program (.ofTokens tokens) with
  | .ok node _ => .ok node
  | .error e _ => .error e

end Grammar

/-- Why a source text is no program. -/
inductive SourceError where
  | scan (error : ScanError)
  | parse (error : ParseError)
deriving DecidableEq

def SourceError.message : SourceError → String
  | .scan e => e.message
  | .parse e => e.message

/-- The program that a source text spells. All of it is scanned before any of it is parsed. -/
def Grammar.parseSource (g : Grammar) (keywords : Keywords) (source : String) :
    Except SourceError Node :=
  match scanTokens keywords source with
  | .error e => .error (.scan e)
  | .ok tokens =>
    match g.parse tokens with
    | .error e => .error (.parse e)
    | .ok node => .ok node

end Ember
