import Ember.Decimal.Layout
import Ember.Ordered

/-!
Values of programs and their display.
-/

namespace Ember

/-- A function of the host: the routine that it runs, and the name it is shown by. -/
structure Native where
  routine : String
  name : String
deriving DecidableEq

inductive Value where
  | null
  | number (value : Double)
  | boolean (value : Bool)
  | string (value : String)
  | object (slots : List (String × Value))
  | native (function : Native)

namespace Value

mutual

/-- The form in which a value is shown; strings stand in quotes without escapes. -/
def display : Value → String
  | .null => "null"
  | .number x => x.text
  | .boolean b => if b then "true" else "false"
  | .string s => "\"" ++ s ++ "\""
  | .object slots => "\x7b " ++ ", ".intercalate (displaySlots slots) ++ " \x7d"
  | .native f => "<native fn " ++ f.name ++ ">"

def displaySlots : List (String × Value) → List String
  | [] => []
  | (key, value) :: rest => (key ++ ": " ++ value.display) :: displaySlots rest

end

mutual

/-- How many objects stand inside each other. -/
def nesting : Value → Nat
  | .object slots => slotsNesting slots + 1
  | _ => 0

def slotsNesting : List (String × Value) → Nat
  | [] => 0
  | (_, value) :: rest => max value.nesting (slotsNesting rest)

end

/-- The form in which a value is printed: a string as it is, anything else as shown. -/
def printed : Value → String
  | .string s => s
  | value => value.display

end Value

end Ember
