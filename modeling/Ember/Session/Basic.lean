import Ember.Interpreter
import Ember.Session.Command

/-!
Interactive sessions. Each line typed is answered with text on two channels, until an exit line, the
end of input, or an error that is not reported.
-/

namespace Ember

/-- The root scope of a session. -/
def Scope.standard : Scope where
  enclosing := []
  bindings :=
    [⟨"true", .boolean true, true⟩, ⟨"false", .boolean false, true⟩, ⟨"null", .null, true⟩,
     ⟨"print", .native ⟨"print", "print"⟩, true⟩, ⟨"time", .native ⟨"time", "time"⟩, true⟩]

theorem Scope.global_standard : Scope.global Native.standard = .ok Scope.standard := rfl

structure Session where
  forest : Forest
  /-- Whether the tree of each program is shown. -/
  showTree : Bool
  /-- The setting for tracebacks. -/
  trace : Option String

/-- Text on the two output channels. -/
structure Printed where
  out : String
  err : String
deriving DecidableEq

namespace Session

/-- The scope that lines are evaluated in. -/
def root : ScopeId := 0

/-- A forest with a fresh root scope. -/
def freshForest : Forest := ⟨[.standard]⟩

def start (trace : Option String) : Session :=
  ⟨freshForest, false, trace⟩

def onOff (flag : Bool) : String :=
  if flag then "on" else "off"

/-- Obeys a command. What clears the screen is given as `clearing`. -/
def obey (clearing : String) (s : Session) : Command → Session × Printed
  | .clear => (s, ⟨clearing, ""⟩)
  | .tree argument =>
    match toggle? argument s.showTree with
    | some flag => ({ s with showTree := flag }, ⟨"AST output: " ++ onOff flag ++ "\n", ""⟩)
    | none => (s, ⟨"", "Usage: /ast [on|off]\n"⟩)
  | .traceback argument =>
    match toggle? argument (traceEnabled s.trace) with
    | some flag =>
      ({ s with trace := if flag then some "1" else none },
        ⟨"Python traceback: " ++ onOff flag ++ "\n", ""⟩)
    | none => (s, ⟨"", "Usage: /py-traceback [on|off]\n"⟩)
  | .reset => ({ s with forest := freshForest }, ⟨"Environment reset.\n", ""⟩)
  | .unknown word => (s, ⟨"", "Unknown command: " ++ word ++ "\n"⟩)

/-- Runs a line: the session after it, what the program printed, and what to show for it. -/
def evaluate (clock : Int) (s : Session) (text : String) :
    Session × String × Except RunError String :=
  let i := Interpreter.standard clock
  match i.parse text with
  | .error e => (s, "", .error (.source e))
  | .ok program =>
    match i.evaluate (some root) program (.ofForest s.forest) with
    | .ok value w =>
      ({ s with forest := w.forest }, w.output, i.present s.showTree program value)
    | .error e w => ({ s with forest := w.forest }, w.output, .error (.evaluation e))

def isExitLine (text : String) : Bool :=
  Text.strip text == "exit"

def isBlankLine (text : String) : Bool :=
  Text.strip text == ""

/-- How an error is reported. -/
def report (s : Session) (e : RunError) : String :=
  "Error: " ++ e.message ++ "\n" ++ (if traceEnabled s.trace then "\nPython traceback:\n" else "")

/-- What may come from the keyboard. -/
inductive Input where
  | line (text : String)
  | interrupt
  | endOfInput
deriving DecidableEq

inductive Status where
  | running
  | finished
  | crashed (error : RunError)

/-- Answers one input. -/
def respond (clock : Int) (clearing : String) (s : Session) : Input → Session × Printed × Status
  | .endOfInput => (s, ⟨"\n", ""⟩, .finished)
  | .interrupt => (s, ⟨"KeyboardInterrupt\n", ""⟩, .running)
  | .line text =>
    if isExitLine text then (s, ⟨"", ""⟩, .finished)
    else if isBlankLine text then (s, ⟨"", ""⟩, .running)
    else
      match Command.read? text with
      | some command =>
        let (s', printed) := s.obey clearing command
        (s', printed, .running)
      | none =>
        match s.evaluate clock text with
        | (s', out, .ok shown) => (s', ⟨out ++ shown ++ "\n", ""⟩, .running)
        | (s', out, .error e) =>
          if e.isReported then (s', ⟨out, s'.report e⟩, .running)
          else (s', ⟨out, ""⟩, .crashed e)

/-- What a session printed, how many inputs it never read, and how it ended. -/
structure Transcript where
  printed : List Printed
  unread : Nat
  final : Session
  crash : Option RunError

/-- Answers inputs in order; when they run out, the input has ended. -/
def converse (clock : Int) (clearing : String) (s : Session) : List Input → Transcript
  | [] =>
    let (s', printed, _) := s.respond clock clearing .endOfInput
    ⟨[printed], 0, s', none⟩
  | input :: rest =>
    match s.respond clock clearing input with
    | (s', printed, .running) =>
      let later := converse clock clearing s' rest
      { later with printed := printed :: later.printed }
    | (s', printed, .finished) => ⟨[printed], rest.length, s', none⟩
    | (s', printed, .crashed e) => ⟨[printed], rest.length, s', some e⟩

def banner : String :=
  "ember repl: type 'exit' or Ctrl-D to quit, / for commands\n"

/-- A whole session, the banner first. -/
def transcript (clock : Int) (clearing : String) (trace : Option String) (inputs : List Input) :
    Transcript :=
  let talk := (start trace).converse clock clearing inputs
  { talk with printed := ⟨banner, ""⟩ :: talk.printed }

end Session

end Ember
