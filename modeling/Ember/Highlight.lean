import Ember.Token.Scanner

/-!
Highlighting of a line: fragments with styles, one for each token and for each gap between tokens.
What cannot be scanned is one fragment in the style of errors.
-/

namespace Ember

inductive Style where
  | plain
  | keyword
  | number
  | string
  | error
deriving DecidableEq

namespace Style

/-- The terminal attributes of a style. -/
def attributes : Style → String
  | .plain => ""
  | .keyword => "bold ansicyan"
  | .number => "ansimagenta"
  | .string => "ansigreen"
  | .error => "bold ansired"

def ofCategory : TokenCategory → Style
  | .keyword => .keyword
  | .number => .number
  | .string => .string
  | _ => .plain

end Style

structure Fragment where
  style : Style
  text : List Char
deriving DecidableEq

namespace Highlight

/-- Where a token starts in its line, counted from zero. -/
def startOf (t : Token) : Nat := (t.position.column - 1).toNat

/-- The width of a token in its line; a string extends to the next quote or the end of the line. -/
def width (line : List Char) (t : Token) : Nat :=
  if t.kind = .string then
    let body := line.drop (startOf t + 1)
    let inner := body.takeWhile (· != '"')
    if inner.length < body.length then inner.length + 2 else line.length - startOf t
  else
    t.text.length

/-- The characters of a line from one place up to another. -/
def slice (line : List Char) (start stop : Nat) : List Char :=
  (line.take stop).drop start

/-- Fragments for the tokens that start from a place on, and for the rest of the line. -/
def fragments (line : List Char) (place : Nat) : List Token → List Fragment
  | [] => if place < line.length then [⟨.plain, line.drop place⟩] else []
  | t :: rest =>
    let start := startOf t
    let stop := start + width line t
    let gap := if place < start then [⟨.plain, slice line place start⟩] else []
    gap ++ ⟨.ofCategory t.kind.category, slice line start stop⟩ :: fragments line stop rest

/-- The place in the line where scanning failed, counted from zero. -/
def failurePlace : ScanError → Nat
  | .unrecognized _ position => (position.column - 1).toNat
  | .pastEnd | .unindexable => 0

def line (text : List Char) : List Fragment :=
  match scanTokens .standard (String.ofList text) with
  | .ok tokens => fragments text 0 (tokens.takeWhile (·.kind != .endOfInput))
  | .error e =>
    let place := failurePlace e
    if _h : 0 < place ∧ place < text.length then
      line (text.take place) ++ [⟨.error, text.drop place⟩]
    else
      [⟨.error, text.drop place⟩]
termination_by text.length
decreasing_by
  simp only [List.length_take]
  omega

/-- Why a text has no line of a number: it counts back too far, or no index can hold it. -/
inductive LineError where
  | outOfRange
  | unindexable
deriving DecidableEq

def LineError.message : LineError → String
  | .outOfRange => "list index out of range"
  | .unindexable => "cannot fit 'int' into an index-sized integer"

/-- The fragments of one line of a text. A negative number counts back from the last line, and a
number beyond the last line gives no fragments. -/
def lineOf (text : String) (number : Int) : Except LineError (List Fragment) :=
  let lines := text.splitOn "\n"
  let place := if number < 0 then number + lines.length else number
  if number < lowestIndex then .error .unindexable
  else if place < 0 then .error .outOfRange
  else
    match lines[place.toNat]? with
    | some found => .ok (line found.toList)
    | none => .ok []

end Highlight

end Ember
