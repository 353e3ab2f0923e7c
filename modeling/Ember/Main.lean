import Std.Time.DateTime.Timestamp
import Ember.CommandLine
import Ember.Session.Basic

/-!
The program itself. Called under a name that ends in `repl` it is an interactive session; otherwise
it carries out its command line.
-/

namespace Ember.Main

/-- Nanoseconds since the epoch. -/
def now : IO Int := do
  return (← Std.Time.Timestamp.now).toNanosecondsSinceUnixEpoch.val

/-- Carries out a command line and gives the exit code. -/
def command (arguments : List String) : IO UInt32 := do
  let argument? :=
    match CommandLine.Options.read ⟨false, none⟩ arguments with
    | .ok options => options.argument
    | .error _ => some ""
  let script? ←
    match argument? with
    | none | some "-" => pure none
    | some path => try some <$> IO.FS.readBinFile path catch _ => pure none
  let stdin ←
    match argument? with
    | none | some "-" => (← IO.getStdin).readToEnd
    | some _ => pure ""
  let report := CommandLine.run (.standard (← now)) (fun _ => script?) stdin arguments
  IO.print report.out
  match report.ending with
  | .done => return 0
  | .exit message => IO.eprintln message
  | .escaped e => IO.eprintln e.message
  | .undecodable => IO.eprintln "The script is not UTF-8 text"
  return 1

/-- Clears a terminal and moves its cursor to the upper left. -/
def clearing : String :=
  "\x1b[2J\x1b[0;0H"

/-- Prompts for lines and answers them until the session ends. -/
partial def interact (session : Session) : IO UInt32 := do
  IO.print "> "
  (← IO.getStdout).flush
  let line ← (← IO.getStdin).getLine
  let input := if line.isEmpty then .endOfInput else .line (line.dropEndWhile (· == '\n')).toString
  let (session, printed, status) := session.respond (← now) clearing input
  IO.print printed.out
  IO.eprint printed.err
  match status with
  | .running => interact session
  | .finished => return 0
  | .crashed e =>
    IO.eprintln e.message
    return 1

end Ember.Main

def main (arguments : List String) : IO UInt32 := do
  let name := (← IO.appPath).fileName.getD ""
  if name.endsWith "repl" then
    IO.print Ember.Session.banner
    Ember.Main.interact (.start (← IO.getEnv "EMBER_DEBUG_PY_TRACE"))
  else
    Ember.Main.command arguments
