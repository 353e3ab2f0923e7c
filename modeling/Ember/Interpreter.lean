import Ember.Evaluation.Rules
import Ember.Grammar.Rules
import Ember.Native.Standard
import Ember.Node.Outline

/-!
Running of source texts: scanning and parsing first, then evaluation in a given scope or in a fresh
root scope.
-/

namespace Ember

inductive RunError where
  | source (error : SourceError)
  | evaluation (failure : Failure)
  /-- The tree of the program cannot be shown. -/
  | outline (error : OutlineError)
  /-- The value of the program nests too deeply to be shown. -/
  | display

namespace RunError

def message : RunError → String
  | .source e => e.message
  | .evaluation e => e.message
  | .outline e => e.message
  | .display => "maximum recursion depth exceeded"

/-- Errors that are reported to the user. The others end whatever was running. -/
def isReported : RunError → Bool
  | .source (.scan (.unrecognized ..)) => true
  | .source (.scan _) => false
  | .source (.parse (.malformedNumber _)) => false
  | .source (.parse _) => true
  | .evaluation (.crash _) => false
  | .evaluation _ => true
  | .outline _ | .display => false

end RunError

/-- A run that fails leaves what was done before. -/
abbrev Run := EStateM RunError World

/-- How programs are run: the host, the functions that root scopes bind, and the depths to which
parsing, evaluation and outlines nest. -/
structure Interpreter where
  host : Host
  natives : Ordered Native
  parseDepth : Nat
  evalDepth : Nat
  outlineDepth : Nat

namespace Interpreter

def standard (clock : Int) : Interpreter :=
  ⟨.standard clock, Native.standard, Grammar.standardDepth, Node.standardDepth,
    Outline.standardDepth⟩

def parse (i : Interpreter) (source : String) : Except SourceError Node :=
  (Grammar.ofDepth i.parseDepth).parseSource .standard source

/-- A scope to evaluate in: the given one, or else a fresh root scope. -/
def enter (i : Interpreter) : Option ScopeId → Eval ScopeId
  | some scope => pure scope
  | none => do
    let (scope, forest) ← Eval.ofExcept ((← get).forest.openGlobal i.natives)
    modify fun w => { w with forest }
    pure scope

def evaluate (i : Interpreter) (scope? : Option ScopeId) (node : Node) : Eval Value := do
  let scope ← i.enter scope?
  node.eval i.host scope i.evalDepth []

/-- Shows the tree of a program. -/
def outline (i : Interpreter) (program : Node) : Except RunError String :=
  (program.dump i.outlineDepth).mapError .outline

/-- Shows the value of a program. -/
def display (i : Interpreter) (value : Value) : Except RunError String :=
  if value.nesting ≤ i.evalDepth then .ok value.display else .error .display

/-- Shows the value of a program, and its tree before it where trees are shown. -/
def present (i : Interpreter) (showTree : Bool) (program : Node) (value : Value) :
    Except RunError String := do
  let tree ← if showTree then i.outline program else pure ""
  return tree ++ (← i.display value)

def run (i : Interpreter) (scope? : Option ScopeId) (source : String) : Run Value := fun w =>
  match i.parse source with
  | .error e => .error (.source e) w
  | .ok node =>
    match i.evaluate scope? node w with
    | .ok value w' => .ok value w'
    | .error e w' => .error (.evaluation e) w'

end Interpreter

end Ember
