import Ember.Text.Blank

/-!
Commands of an interactive session. They start with a slash; the word after it names the command and
the rest of the line is its argument.
-/

namespace Ember

inductive Command where
  | clear
  | tree (argument : String)
  | traceback (argument : String)
  | reset
  | unknown (word : String)
deriving DecidableEq

namespace Command

/-- Reads a line as a command, if it is one. -/
def read? (line : String) : Option Command :=
  let text := Text.strip line
  match text.toList with
  | '/' :: _ =>
    let (word, argument) := Text.splitWord text
    some <|
      match word with
      | "/clear" => .clear
      | "/ast" => .tree argument
      | "/py-traceback" => .traceback argument
      | "/reset" => .reset
      | _ => .unknown word
  | _ => none

/-- The commands by name, with what they do. -/
def descriptions : List (String × String) :=
  [("/ast", "Toggle printing the parsed AST"),
   ("/clear", "Clear the terminal screen"),
   ("/py-traceback", "Toggle Python traceback on errors"),
   ("/reset", "Reset the REPL environment")]

end Command

/-- A suggestion to put a command in place of the last characters typed. -/
structure Completion where
  command : String
  replaced : Nat
  description : String
deriving DecidableEq

/-- A cursor that stands beyond the end of the text typed. -/
structure CursorError where
  cursor : Int
  length : Nat
deriving DecidableEq

def CursorError.message (e : CursorError) : String :=
  "cursor_position=" ++ toString e.cursor ++ ", len_text=" ++ toString e.length

/-- The text before a cursor. A negative cursor counts back from the end. -/
def beforeCursor (text : String) (cursor : Int) : Except CursorError String :=
  let place := if cursor < 0 then cursor + text.length else cursor
  if text.length < cursor then .error ⟨cursor, text.length⟩
  else .ok (String.ofList (text.toList.take place.toNat))

/-- Suggestions for what was typed so far: the commands that it is the start of. -/
def completions (typed : String) : List Completion :=
  match typed.toList with
  | '/' :: _ =>
    (Command.descriptions.filter fun (name, _) => typed.toList.isPrefixOf name.toList).map
      fun (name, description) => ⟨name, typed.length, description⟩
  | _ => []

namespace Text

/-- ASCII letters in lower case. -/
def lower (s : String) : String :=
  String.ofList (s.toList.map Char.toLower)

end Text

/-- The setting that an argument asks for: a word for on or off, or nothing to change the current
one. -/
def toggle? (argument : String) (current : Bool) : Option Bool :=
  if ["on", "1", "true", "yes"].contains (Text.lower argument) then some true
  else if ["off", "0", "false", "no"].contains (Text.lower argument) then some false
  else if argument = "" then some !current
  else none

/-- Whether a setting, which may be unset, asks for tracebacks. -/
def traceEnabled (setting? : Option String) : Bool :=
  ["1", "true", "yes", "on"].contains (Text.lower (Text.strip (setting?.getD "")))

end Ember
