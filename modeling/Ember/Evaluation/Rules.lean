import Ember.Double.Arith
import Ember.Evaluation.World

/-!
Evaluation of program trees. The rules take the evaluation of child nodes as an argument, and
nesting is bounded by the depth at which they are applied to themselves.
-/

namespace Ember

/-- Arithmetic on two numbers. Division by either zero is refused. -/
def arithmetic (operator : String) (x y : Double) : Except Failure Double :=
  match operator with
  | "+" => .ok (x.add y)
  | "-" => .ok (x.sub y)
  | "*" => .ok (x.mul y)
  | "/" => if y.isZero then .error (.fault (.zeroDivision "/") none) else .ok (x.div y)
  | "%" =>
    if y.isZero then .error (.fault (.zeroDivision "%") none)
    else
      match x.rem? y with
      | some r => .ok r
      | none => .error (.crash .undefinedRemainder)
  | _ => .error (.fault (.unknownOperator operator) none)

namespace Eval

/-- Evaluation of a child node, known by its place among the children. -/
abbrev Child := Nat → Node → Eval Value

/-- Statements in order; the last one gives the value. -/
def statements (child : Child) (i : Nat) (last : Value) : List Node → Eval Value
  | [] => pure last
  | node :: rest => do
    let value ← child i node
    statements child (i + 1) value rest

/-- Nodes in order, each with its value. -/
def values (child : Child) (i : Nat) : List Node → Eval (List Value)
  | [] => pure []
  | node :: rest => do
    let value ← child i node
    let others ← values child (i + 1) rest
    pure (value :: others)

/-- The entry that a node of an object literal gives. A property without a value reads the variable
of its name. Other nodes, which only a tree built by hand has there, give none. -/
def slot (child : Child) (scope : ScopeId) (i : Nat) (node : Node) : Eval (String × Value) := do
  match node with
  | .property key none => pure (key, ← lookup scope key)
  | .property key (some value) => pure (key, ← child i value)
  | .declaration _ _ (some value) | .assignment _ value =>
    if value.kind ≠ .placeholder .absent then
      let _ ← child i value
    throw (.crash (.missingPart node.kind "key"))
  | .declaration _ _ none => throw (.crash (.missingPart node.kind "key"))
  | .number x => pure ("", ← child i (.placeholder (.number x)))
  | .string s => pure ("", ← child i (.placeholder (.text s)))
  | _ => throw (.crash (.missingPart node.kind "value"))

/-- Entries in order; of two entries with one key the later wins. -/
def slots (child : Child) (scope : ScopeId) (i : Nat) (done : Ordered Value) :
    List Node → Eval (Ordered Value)
  | [] => pure done
  | node :: rest => do
    let (key, value) ← slot child scope i node
    slots child scope (i + 1) (done.insert key value) rest

/-- Only two numbers have a sum, a product and so on; of anything else it is null. -/
def binary (operator : String) : Value → Value → Eval Value
  | .number x, .number y =>
    match arithmetic operator x y with
    | .ok z => pure (.number z)
    | .error failure => throw failure
  | _, _ => pure .null

/-- The key that a value stands for. -/
def keyOf (depth : Nat) : Value → Eval String
  | .string s => pure s
  | .number x => pure x.text
  | other => do
    showable depth other
    blame (.invalidKey other)

/-- The key of a member access. -/
def memberKey (child : Child) (depth : Nat) (property : Node) (computed : Bool) :
    Eval String := do
  if computed then
    keyOf depth (← child 1 property)
  else
    match property with
    | .identifier name => pure name
    | _ => blame .unnamedMember

/-- Evaluates a node, given the evaluation of its children. -/
def node (host : Host) (frame : Frame) (child : Child) : Node → Eval Value
  | .program body => statements child 0 .null body
  | .declaration name constant value? => do
    let value ←
      match value? with
      | some value => child 0 value
      | none => pure .null
    declare frame.scope ⟨name, value, constant⟩
    record frame.path (.declared name)
    pure value
  | .function name _ _ => blame (.functionDeclaration name)
  | .assignment (.identifier name) source => do
    let value ← child 1 source
    assign frame.scope name value
    record frame.path (.assigned name)
    pure value
  | .assignment target _ => blame (.invalidTarget target.kind)
  | .binary left right operator => do
    let x ← child 0 left
    let y ← child 1 right
    binary operator x y
  | .member owner property computed => do
    match ← child 0 owner with
    | .object entries =>
      let key ← memberKey child frame.depth property computed
      match Ordered.get? entries key with
      | some value => pure value
      | none => blame (.missingKey key)
    | other => blame (.notObject other)
  | .call callee arguments => do
    let values ← values child 1 arguments
    let function ← child 0 callee
    function.call host frame values
  | .identifier name => lookup frame.scope name
  | .number x => pure (.number x)
  | .string s => pure (.string s)
  | .null => pure .null
  | .property _ _ => blame .strayProperty
  | .object properties => do
    let entries ← slots child frame.scope 0 [] properties
    pure (.object entries)
  | .placeholder held => blame (.unknownNode (.placeholder held))

/-- Names the kind of node where a cause arose, unless one is named already. -/
def located {α : Type} (kind : NodeKind) (x : Eval α) : Eval α := fun w =>
  match x w with
  | .error (.fault cause none) w' => .error (.fault cause (some kind)) w'
  | result => result

end Eval

/-- Evaluates a node at a place of a tree, with at most `depth` nodes inside each other. A value
that is shown nests inside the node that shows it. -/
def Node.eval (host : Host) (scope : ScopeId) : Nat → Path → Node → Eval Value
  | 0, _, _ => throw .tooDeep
  | depth + 1, path, n =>
    let child : Eval.Child := fun i m => m.eval host scope depth (i :: path)
    Eval.located n.kind (Eval.node host ⟨scope, path, depth⟩ child n)

/-- The depth to which evaluation nests by default. -/
def Node.standardDepth : Nat := 330

end Ember
