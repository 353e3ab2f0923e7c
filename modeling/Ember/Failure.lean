import Ember.Node.Basic
import Ember.Value.Basic

/-!
Failures of evaluation: the causes that a program can be blamed for, with the kind of node where
they arose, nesting that is too deep, and crashes.
-/

namespace Ember

inductive Cause where
  | unresolved (name : String)
  | redeclared (name : String)
  | constant (name : String)
  | invalidTarget (kind : NodeKind)
  | notCallable (value : Value)
  | foreignResult (type : String)
  | raised (message : String)
  | notObject (value : Value)
  | invalidKey (value : Value)
  | unnamedMember
  | missingKey (key : String)
  | zeroDivision (operator : String)
  | unknownOperator (operator : String)
  | functionDeclaration (name : String)
  | strayProperty
  | unknownNode (kind : NodeKind)

def Cause.message : Cause → String
  | .unresolved name => "Cannot resolve '" ++ name ++ "': it does not exist in any enclosing scope"
  | .redeclared name => "Cannot declare '" ++ name ++ "': it already exists in this scope"
  | .constant name => "Cannot reassign '" ++ name ++ "': it was declared constant"
  | .invalidTarget kind =>
    "Invalid assignment target " ++ kind.name ++ "; expected an identifier"
  | .notCallable value => "Cannot call a non-function value: " ++ value.display
  | .foreignResult type => "Unexpected value type " ++ type
  | .raised message => message
  | .notObject value => "Cannot read a property of non-object value " ++ value.display
  | .invalidKey value => "Property key must be a string or number, got " ++ value.display
  | .unnamedMember => "Dot access requires an identifier property"
  | .missingKey key => "Key '" ++ key ++ "' not found"
  | .zeroDivision operator => "Division by zero in '" ++ operator ++ "'"
  | .unknownOperator operator => "Unknown operator '" ++ operator ++ "'"
  | .functionDeclaration name => "Function declarations cannot be evaluated (fn " ++ name ++ ")"
  | .strayProperty => "Property literals are only evaluated inside an object literal"
  | .unknownNode kind => "Unknown node: " ++ kind.name

/-- Errors that the language has no name for. They end whatever was running. -/
inductive Crash where
  /-- The remainder of an infinite dividend. -/
  | undefinedRemainder
  /-- A time that no double can hold. -/
  | clockOverflow
  /-- A host function that was given too few arguments. -/
  | missingArgument
  /-- A node in an object literal that lacks a part that properties have. -/
  | missingPart (kind : NodeKind) (part : String)
deriving DecidableEq

def Crash.message : Crash → String
  | .undefinedRemainder => "math domain error"
  | .clockOverflow => "int too large to convert to float"
  | .missingArgument => "list index out of range"
  | .missingPart kind part => "'" ++ kind.name ++ "' object has no attribute '" ++ part ++ "'"

inductive Failure where
  /-- A cause and, once it is known, the kind of node where it arose. -/
  | fault (cause : Cause) (site : Option NodeKind)
  /-- Evaluation, or the display of a value, nested too deeply. -/
  | tooDeep
  | crash (error : Crash)

def Failure.message : Failure → String
  | .fault cause none => cause.message
  | .fault cause (some kind) => cause.message ++ " (in " ++ kind.name ++ ")"
  | .tooDeep => "Maximum nesting depth exceeded during evaluation"
  | .crash error => error.message

end Ember
