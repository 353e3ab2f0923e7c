import Ember.Interpreter

/-!
The command line. Its argument is a script, or a source text where no such script exists; without an
argument the source is read from standard input. The flag `--ast` asks for the tree of the program
instead of its value.
-/

namespace Ember.CommandLine

structure Options where
  showTree : Bool
  argument : Option String
deriving DecidableEq

/-- Reads the arguments, which must hold the source at most once; the one that is too many is an
error. -/
def Options.read (options : Options) : List String → Except String Options
  | [] => .ok options
  | "--ast" :: rest => Options.read { options with showTree := true } rest
  | argument :: rest =>
    if options.argument.isSome then .error argument
    else Options.read { options with argument := some argument } rest

/-- Ends lines with a line feed alone. -/
def unixLines : List Char → List Char
  | '\r' :: '\n' :: rest => '\n' :: unixLines rest
  | '\r' :: rest => '\n' :: unixLines rest
  | c :: rest => c :: unixLines rest
  | [] => []

/-- How a command ends: well, with a text for the user, with an error that is not reported, or with
a script that is not text. -/
inductive Ending where
  | done
  | exit (message : String)
  | escaped (error : RunError)
  | undecodable

/-- What a command prints, and how it ends. -/
structure Report where
  out : String
  ending : Ending

/-- Where the source comes from. -/
inductive Loaded where
  | source (text : String)
  | undecodable
  | missing

/-- Loads the source, given the content of each script and of standard input. -/
def load (script? : String → Option ByteArray) (stdin : String) : Option String → Loaded
  | none | some "-" => if stdin = "" then .missing else .source stdin
  | some argument =>
    match script? argument with
    | none => .source argument
    | some bytes =>
      match String.fromUTF8? bytes with
      | none => .undecodable
      | some text => .source (String.ofList (unixLines text.toList))

/-- Reports an error to the user, or lets it escape. -/
def Ending.ofError (e : RunError) : Ending :=
  if e.isReported then .exit ("Error: " ++ e.message) else .escaped e

def execute (i : Interpreter) (showTree : Bool) (source : String) : Report :=
  if showTree then
    match i.parse source with
    | .ok program =>
      match i.outline program with
      | .ok shown => ⟨shown, .done⟩
      | .error e => ⟨"", .ofError e⟩
    | .error e => ⟨"", .ofError (.source e)⟩
  else
    match i.run none source (.ofForest .empty) with
    | .ok value w =>
      match i.display value with
      | .ok shown => ⟨w.output ++ shown ++ "\n", .done⟩
      | .error e => ⟨w.output, .ofError e⟩
    | .error e w => ⟨w.output, .ofError e⟩

/-- Carries a command out. -/
def run (i : Interpreter) (script? : String → Option ByteArray) (stdin : String)
    (arguments : List String) : Report :=
  match Options.read ⟨false, none⟩ arguments with
  | .error extra => ⟨"", .exit ("Unexpected argument: " ++ extra)⟩
  | .ok options =>
    match load script? stdin options.argument with
    | .missing => ⟨"", .exit "No Ember source on stdin"⟩
    | .undecodable => ⟨"", .undecodable⟩
    | .source text => execute i options.showTree text

end Ember.CommandLine
