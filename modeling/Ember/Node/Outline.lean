import Ember.Decimal.Layout
import Ember.Node.Basic

/-!
The outline of a program tree: labelled branches for nodes and their parts, and leaves for the plain
values that they hold. Its layout indents each level by two spaces.
-/

namespace Ember

inductive Outline where
  | leaf (kind text : String)
  | branch (label : String) (children : List Outline)

namespace Outline

def indent (level : Nat) : String :=
  String.ofList (List.replicate (2 * level) ' ')

mutual

/-- A branch with a single leaf is one line; any other branch is its label on a line, followed by
its children one level deeper. -/
def layoutAt (level : Nat) : Outline → String
  | .leaf _ text => indent level ++ text ++ "\n"
  | .branch label [.leaf _ text] => indent level ++ label ++ "\t" ++ text ++ "\n"
  | .branch label children => indent level ++ label ++ "\n" ++ layoutAll (level + 1) children

def layoutAll (level : Nat) : List Outline → String
  | [] => ""
  | child :: rest => layoutAt level child ++ layoutAll level rest

end

def layout (outline : Outline) : String :=
  layoutAt 0 outline

mutual

/-- How many branches stand inside each other. -/
def nesting : Outline → Nat
  | .leaf .. => 0
  | .branch _ children => childrenNesting children + 1

def childrenNesting : List Outline → Nat
  | [] => 0
  | child :: rest => max child.nesting (childrenNesting rest)

end

/-- How deep an outline nests at most to be laid out. -/
def standardDepth : Nat := 980

/-- A plain value is a leaf whose kind is its label in capitals. -/
def plain (label text : String) : Outline :=
  .leaf label.toUpper text

def flag (label : String) (value : Bool) : Outline :=
  plain label (if value then "true" else "false")

/-- A part of a node under its label, given the part's own outline. A missing part leaves nothing,
and what is not a node is a plain value. -/
def part (label : String) (node : Node) (outline : Outline) : List Outline :=
  match node with
  | .placeholder .absent => []
  | .placeholder (.text value) => [plain label value]
  | .placeholder (.number value) => [plain label value.text]
  | .placeholder .thing => [plain label node.kind.name]
  | _ => [.branch label [outline]]

/-- An item of a list of nodes, given its own outline; what is not a node counts as a name. -/
def item (node : Node) (outline : Outline) : Outline :=
  match node with
  | .placeholder .absent => .leaf "NAME" "None"
  | .placeholder (.text value) => .leaf "NAME" value
  | .placeholder (.number value) => .leaf "NAME" value.text
  | .placeholder .thing => .leaf "NAME" node.kind.name
  | _ => outline

end Outline

/-- Why the outline of a tree cannot be written. -/
inductive OutlineError where
  | notANode
  | tooDeep
deriving DecidableEq

def OutlineError.message : OutlineError → String
  | .notANode => "must be called with a dataclass type or instance"
  | .tooDeep => "maximum recursion depth exceeded"

namespace Node

mutual

def outline : Node → Outline
  | .program body => .branch "Program" [.branch "body" (outlines body)]
  | .declaration name constant none =>
    .branch "VariableDeclaration" [.plain "identifier" name, .flag "constant" constant]
  | .declaration name constant (some value) =>
    .branch "VariableDeclaration"
      (.plain "identifier" name :: .flag "constant" constant ::
        Outline.part "value" value value.outline)
  | .function name params body =>
    .branch "FunctionDeclaration"
      [.plain "name" name, .branch "params" (params.map (.leaf "NAME")),
       .branch "body" (outlines body)]
  | .assignment target value =>
    .branch "AssignmentExpr"
      (Outline.part "assignee" target target.outline ++ Outline.part "value" value value.outline)
  | .binary left right operator =>
    .branch "BinaryExpr"
      (Outline.part "left" left left.outline ++ Outline.part "right" right right.outline ++
        [.plain "operator" operator])
  | .member owner key computed =>
    .branch "MemberExpr"
      (Outline.part "object" owner owner.outline ++ Outline.part "property" key key.outline ++
        [.flag "is_computed" computed])
  | .call callee arguments =>
    .branch "CallExpr"
      (Outline.part "caller" callee callee.outline ++ [.branch "args" (outlines arguments)])
  | .identifier name => .branch "Identifier" [.plain "symbol" name]
  | .number value => .branch "NumericLiteral" [.plain "value" value.text]
  | .string value => .branch "StringLiteral" [.plain "value" value]
  | .null => .branch "NullLiteral" []
  | .property key none => .branch "PropertyLiteral" [.plain "key" key]
  | .property key (some value) =>
    .branch "PropertyLiteral" (.plain "key" key :: Outline.part "value" value value.outline)
  | .object properties => .branch "ObjectLiteral" [.branch "properties" (outlines properties)]
  | .placeholder held => .branch (NodeKind.placeholder held).name []

def outlines : List Node → List Outline
  | [] => []
  | node :: rest => .item node node.outline :: outlines rest

end

/-- The indented text of a program tree. -/
def outlineText (node : Node) : String :=
  node.outline.layout

/-- What is not a node at all, and needs no outline of its own as a part of one. -/
def isPlain : Node → Bool
  | .placeholder .statement | .placeholder .expression => false
  | .placeholder _ => true
  | _ => false

mutual

/-- Whether a tree can be outlined: it is a node, and so is every part of it that is not plain. -/
def hasOutline : Node → Bool
  | .program body => haveOutlines body
  | .declaration _ _ none => true
  | .declaration _ _ (some value) => value.isPlain || value.hasOutline
  | .function _ _ body => haveOutlines body
  | .assignment target value =>
    (target.isPlain || target.hasOutline) && (value.isPlain || value.hasOutline)
  | .binary left right _ =>
    (left.isPlain || left.hasOutline) && (right.isPlain || right.hasOutline)
  | .member owner key _ => (owner.isPlain || owner.hasOutline) && (key.isPlain || key.hasOutline)
  | .call callee arguments => (callee.isPlain || callee.hasOutline) && haveOutlines arguments
  | .identifier _ | .number _ | .string _ | .null => true
  | .property _ none => true
  | .property _ (some value) => value.isPlain || value.hasOutline
  | .object properties => haveOutlines properties
  | .placeholder _ => false

def haveOutlines : List Node → Bool
  | [] => true
  | node :: rest => (node.isPlain || node.hasOutline) && haveOutlines rest

end

/-- The outline of a tree, if it can be outlined. -/
def checkedOutline (node : Node) : Except OutlineError Outline :=
  if node.hasOutline then .ok node.outline else .error .notANode

/-- The text of a tree, if it can be outlined and its outline nests no deeper than this. -/
def dump (depth : Nat) (node : Node) : Except OutlineError String := do
  let outline ← node.checkedOutline
  if outline.nesting ≤ depth then return outline.layout else throw .tooDeep

end Node

end Ember
