import Ember.Node.Basic
import Ember.Token.Basic

/-!
What the grammar expects at a place, and the errors that arise when something else stands there.
-/

namespace Ember

inductive Expectation where
  | declaredName
  | initializer (name : String)
  | declarationEquals
  | declarationEnd
  | functionName
  | parameterList
  | functionBody
  | functionEnd
  | parametersOpen
  | parametersClose
  | parameterName (found : NodeKind)
  | assignmentEnd
  | propertyKey
  | propertyColon
  | propertyEnd
  | objectEnd
  | argumentsOpen
  | argumentsClose
  | computedClose
  | memberName
  | parenClose
  | operand
  | token (kind : TokenKind) (summary : String)
deriving DecidableEq

namespace Expectation

def summary : Expectation → String
  | .declaredName => "Expected identifier name following `let` or `const`"
  | .initializer name => "Constant '" ++ name ++ "' must be initialized"
  | .declarationEquals => "Expected '=' after variable name in declaration"
  | .declarationEnd => "Variable declaration must end with ';'"
  | .functionName => "Expected function name following `fn`"
  | .parameterList => "Expected parameter list after function name"
  | .functionBody => "Expected function body following declaration"
  | .functionEnd => "Expected '\x7d' closing function body"
  | .parametersOpen => "Expected '(' opening parameter list"
  | .parametersClose => "Expected ')' closing parameter list"
  | .parameterName found => "Function parameters must be identifiers, got " ++ found.name
  | .assignmentEnd => "Expected ';' after assignment"
  | .propertyKey => "Object literal key expected"
  | .propertyColon => "Missing ':' following key in object literal"
  | .propertyEnd => "Expected ',' or '\x7d' following property"
  | .objectEnd => "Expected '\x7d' closing object literal"
  | .argumentsOpen => "Expected '(' opening argument list"
  | .argumentsClose => "Expected ')' closing argument list"
  | .computedClose => "Expected ']' closing computed member"
  | .memberName => "Dot access requires an identifier on the right"
  | .parenClose => "Unmatched parenthesis"
  | .operand => "Unexpected token in expression"
  | .token _ summary => summary

/-- The kind of token that meets the expectation; an operand may start with several. -/
def kind? : Expectation → Option TokenKind
  | .declaredName | .functionName | .parameterName _ | .propertyKey | .memberName =>
    some .identifier
  | .initializer _ | .declarationEquals => some .equals
  | .declarationEnd | .assignmentEnd => some .semicolon
  | .parameterList | .parametersOpen | .argumentsOpen => some .leftParen
  | .parametersClose | .argumentsClose | .parenClose => some .rightParen
  | .functionBody => some .leftBrace
  | .functionEnd | .objectEnd => some .rightBrace
  | .propertyColon => some .colon
  | .propertyEnd => some .comma
  | .computedClose => some .rightBracket
  | .operand => none
  | .token kind _ => some kind

/-- The expectation's name for what it wants. -/
def wanted (e : Expectation) : String :=
  match e.kind? with
  | some kind => kind.name
  | none => "expression"

end Expectation

/-- Why a token list is no program: an expectation was not met, a number token holds no numeral, or
the rules nest too deeply. -/
inductive ParseError where
  | unexpected (expectation : Expectation) (token : Token)
  | malformedNumber (text : String)
  | tooDeep
deriving DecidableEq

def ParseError.message : ParseError → String
  | .unexpected e t =>
    e.summary ++ ": expected " ++ e.wanted ++ ", got " ++ t.kind.name ++ " " ++
      Text.quoted t.text ++ " at line " ++ toString t.position.line ++ ", col " ++
      toString t.position.column
  | .malformedNumber text => "could not convert string to float: " ++ Text.quoted text
  | .tooDeep => "Expression nested too deeply"

end Ember
