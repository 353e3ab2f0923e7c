import Ember.Native.Action

/-!
The state that evaluation works on: the scopes, and a journal of what was done to them and written.
-/

namespace Ember

/-- The place of a node in a tree: which child of which node, the innermost step first. -/
abbrev Path := List Nat

/-- Where evaluation stands: in which scope, at which node, and how much deeper it may nest. -/
structure Frame where
  scope : ScopeId
  path : Path
  depth : Nat

inductive Deed where
  | declared (name : String)
  | assigned (name : String)
  | called (function : Native)
  | wrote (text : String)
deriving DecidableEq

/-- A deed and the node that did it. -/
structure Event where
  path : Path
  deed : Deed
deriving DecidableEq

/-- The text that an event wrote. -/
def Event.text (e : Event) : String :=
  match e.deed with
  | .wrote text => text
  | _ => ""

structure World where
  forest : Forest
  /-- Everything done so far, newest first. -/
  journal : List Event

/-- A step of evaluation. One that fails leaves what was done before. -/
abbrev Eval := EStateM Failure World

namespace World

def ofForest (forest : Forest) : World := ⟨forest, []⟩

/-- All text written so far. -/
def output (w : World) : String :=
  String.join (w.journal.reverse.map Event.text)

end World

namespace Eval

def blame {α : Type} (cause : Cause) : Eval α :=
  throw (.fault cause none)

def ofExcept {α : Type} : Except Cause α → Eval α
  | .ok a => pure a
  | .error cause => blame cause

/-- Makes sure that a value can be shown. -/
def showable (depth : Nat) (value : Value) : Eval Unit :=
  if value.nesting ≤ depth then pure () else throw .tooDeep

def record (path : Path) (deed : Deed) : Eval Unit :=
  modify fun w => { w with journal := ⟨path, deed⟩ :: w.journal }

def lookup (scope : ScopeId) (name : String) : Eval Value := do
  ofExcept ((← get).forest.lookup scope name)

def declare (scope : ScopeId) (binding : Binding) : Eval Unit := do
  let forest ← ofExcept ((← get).forest.declare scope binding)
  modify fun w => { w with forest }

def assign (scope : ScopeId) (name : String) (value : Value) : Eval Unit := do
  let forest ← ofExcept ((← get).forest.assign scope name value)
  modify fun w => { w with forest }

end Eval

/-- Carries an action out at the place of a call. -/
def Action.run (clock : Int) (frame : Frame) : Action → Eval Answer
  | .done answer => pure answer
  | .fail cause => Eval.blame cause
  | .crash error => throw (.crash error)
  | .format value next => do
    Eval.showable frame.depth value
    (next value.printed).run clock frame
  | .write text next => do
    Eval.record frame.path (.wrote text)
    next.run clock frame
  | .clock next => (next clock).run clock frame
  | .lookup name next => do
    let value ← Eval.lookup frame.scope name
    (next value).run clock frame
  | .declare binding next => do
    Eval.declare frame.scope binding
    next.run clock frame
  | .assign name value next => do
    Eval.assign frame.scope name value
    next.run clock frame

/-- Calls a value, which must be a function of the host. -/
def Value.call (host : Host) (frame : Frame) (callee : Value) (arguments : List Value) :
    Eval Value :=
  match callee with
  | .native f => do
    let answer ← (host.perform f.routine arguments).run host.clock frame
    let value ← Eval.ofExcept answer.toValue
    Eval.record frame.path (.called f)
    pure value
  | other => do
    Eval.showable frame.depth other
    Eval.blame (.notCallable other)

end Ember
