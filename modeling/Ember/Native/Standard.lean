import Ember.Double.Round
import Ember.Native.Action

/-!
The functions that every program finds: `print` and `time`.
-/

namespace Ember

namespace Native

/-- Arguments separated by spaces, on a line of their own. -/
def print (arguments : List Value) : Action :=
  .formatAll (fun texts => .write (" ".intercalate texts ++ "\n") (.done (.value .null))) arguments

/-- Whole milliseconds, rounded down. -/
def time : Action :=
  .clock fun now =>
    match Double.ofInt (now.fdiv 1000000) with
    | .infinite _ => .crash .clockOverflow
    | x => .done (.value (.number x))

def standard : Ordered Native :=
  [("print", ⟨"print", "print"⟩), ("time", ⟨"time", "time"⟩)]

end Native

/-- A host that knows the standard routines; any other does nothing. -/
def Host.standard (clock : Int) : Host where
  perform routine arguments :=
    match routine with
    | "print" => Native.print arguments
    | "time" => Native.time
    | _ => .done .nothing
  clock

end Ember
