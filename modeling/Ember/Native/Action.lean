import Ember.Scope.Basic

/-!
What functions of the host do: they write text, put values into text, read the clock, and look up,
declare and assign names in the scope of the call, before they finish or fail.
-/

namespace Ember

/-- How a host function finishes: with a value, with nothing, or with something that is no value of
the language, known by the name of its type. -/
inductive Answer where
  | value (value : Value)
  | nothing
  | foreign (type : String)

/-- Nothing counts as null, and what is no value is refused. -/
def Answer.toValue : Answer → Except Cause Value
  | .value v => .ok v
  | .nothing => .ok .null
  | .foreign type => .error (.foreignResult type)

inductive Action where
  | done (answer : Answer)
  | fail (cause : Cause)
  | crash (error : Crash)
  /-- Puts a value into the text that is printed for it. -/
  | format (value : Value) (next : String → Action)
  | write (text : String) (next : Action)
  | clock (next : Int → Action)
  | lookup (name : String) (next : Value → Action)
  | declare (binding : Binding) (next : Action)
  | assign (name : String) (value : Value) (next : Action)

/-- Puts values into text, the first one first. -/
def Action.formatAll (next : List String → Action) : List Value → Action
  | [] => next []
  | value :: rest => .format value fun text => formatAll (fun texts => next (text :: texts)) rest

/-- The surroundings of a run: what each routine does with its arguments, and the time in
nanoseconds. -/
structure Host where
  perform : String → List Value → Action
  clock : Int

end Ember
