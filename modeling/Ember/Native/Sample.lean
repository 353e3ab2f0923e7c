import Ember.Native.Standard

/-!
Sample routines beside the standard ones. Together they use every operation that a host function
has, and finish in every way that one can.
-/

namespace Ember

namespace Native

/-- Routines whose results are no values of the language, with the types of these results. -/
def foreignTypes : Ordered String :=
  [("badfloat", "float"), ("badstr", "str"), ("badbool", "bool"), ("badlist", "list")]

/-- An object that holds its arguments under the keys `0`, `1` and so on. -/
def pack (arguments : List Value) : Value :=
  .object (arguments.zipIdx.map fun (value, i) => (toString i, value))

/-- Goes on with the name that the first argument gives and the value that is the second. -/
def withNameAndValue (next : String → Value → Action) : List Value → Action
  | [] => .crash .missingArgument
  | [first] => .format first fun _ => .crash .missingArgument
  | first :: second :: _ => .format first fun name => next name second

def sample (routine : String) (arguments : List Value) : Option Action :=
  match routine with
  | "answer" => some (.done (.value (.number (.ofInt 42))))
  | "noop" => some (.done .nothing)
  | "first" => some (.done ((arguments.head?.map .value).getD .nothing))
  | "count" => some (.done (.value (.number (.ofInt arguments.length))))
  | "pack" => some (.done (.value (pack arguments)))
  | "self" => some (.lookup "self" fun value => .done (.value value))
  | "define" =>
    some (withNameAndValue (fun name value =>
      .declare ⟨name, value, false⟩ (.done (.value value))) arguments)
  | "set" =>
    some (withNameAndValue (fun name value =>
      .assign name value (.done (.value value))) arguments)
  | "fail" => some (.fail (.raised "boom"))
  | _ => (foreignTypes.get? routine).map fun type => .done (.foreign type)

end Native

/-- A host that knows the sample routines and the standard ones. -/
def Host.sample (clock : Int) : Host where
  perform routine arguments :=
    (Native.sample routine arguments).getD ((Host.standard clock).perform routine arguments)
  clock

end Ember
