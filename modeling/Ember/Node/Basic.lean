import Ember.Double.Basic

/-!
Nodes of the program tree. The grammar builds trees of a narrower shape; a tree built by hand may
put any node anywhere, and may hold placeholders that mean nothing.
-/

namespace Ember

/-- What a tree built by hand may hold where a node belongs. -/
inductive Placeholder where
  | absent
  | text (value : String)
  | number (value : Double)
  | thing
  | statement
  | expression
deriving DecidableEq

inductive Node where
  | program (body : List Node)
  | declaration (name : String) (constant : Bool) (value : Option Node)
  | function (name : String) (params : List String) (body : List Node)
  | assignment (target value : Node)
  | binary (left right : Node) (operator : String)
  | member (object property : Node) (computed : Bool)
  | call (callee : Node) (arguments : List Node)
  | identifier (name : String)
  | number (value : Double)
  | string (value : String)
  | null
  | property (key : String) (value : Option Node)
  | object (properties : List Node)
  | placeholder (held : Placeholder)

/-- The kinds of nodes, as diagnostics name them. -/
inductive NodeKind where
  | program
  | declaration
  | function
  | assignment
  | binary
  | member
  | call
  | identifier
  | number
  | string
  | null
  | property
  | object
  | placeholder (held : Placeholder)
deriving DecidableEq

def NodeKind.name : NodeKind → String
  | .program => "Program"
  | .declaration => "VariableDeclaration"
  | .function => "FunctionDeclaration"
  | .assignment => "AssignmentExpr"
  | .binary => "BinaryExpr"
  | .member => "MemberExpr"
  | .call => "CallExpr"
  | .identifier => "Identifier"
  | .number => "NumericLiteral"
  | .string => "StringLiteral"
  | .null => "NullLiteral"
  | .property => "PropertyLiteral"
  | .object => "ObjectLiteral"
  | .placeholder .absent => "NoneType"
  | .placeholder (.text _) => "str"
  | .placeholder (.number _) => "float"
  | .placeholder .thing => "object"
  | .placeholder .statement => "Stmt"
  | .placeholder .expression => "Expr"

def Node.kind : Node → NodeKind
  | .program .. => .program
  | .declaration .. => .declaration
  | .function .. => .function
  | .assignment .. => .assignment
  | .binary .. => .binary
  | .member .. => .member
  | .call .. => .call
  | .identifier .. => .identifier
  | .number .. => .number
  | .string .. => .string
  | .null => .null
  | .property .. => .property
  | .object .. => .object
  | .placeholder held => .placeholder held

end Ember
