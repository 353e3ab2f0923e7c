import Ember.Token.Basic

/-!
Scanning of source text into tokens. A lexeme is a single blank, a single mark, a maximal run of
digits or of letters, or a string between double quotes; a string that is not closed runs to the end
of the text.
-/

namespace Ember

-- Powers are the ones of the core library, whichever other instances are in scope.
attribute [local instance (high)] instPowNat

/-- Words that stand for tokens of their own kind. -/
abbrev Keywords := List (String × TokenKind)

namespace Keywords

def standard : Keywords := [("let", .letWord), ("const", .constWord), ("fn", .fnWord)]

/-- The kind of a word: an identifier, unless the table names it. -/
def kindOf (keywords : Keywords) (word : String) : TokenKind :=
  (keywords.lookup word).getD .identifier

end Keywords

/-- A stretch of source text, with the kind and text of the token it gives; blanks give none. -/
structure Lexeme where
  source : List Char
  token? : Option (TokenKind × String)
deriving DecidableEq

namespace Lexeme

def isSpace (c : Char) : Bool :=
  c == ' ' || c == '\t' || c == '\n' || c == '\r' || c == '\x08'

/-- Marks are tokens of one character. -/
def mark? (c : Char) : Option TokenKind :=
  match c with
  | '(' => some .leftParen
  | ')' => some .rightParen
  | '{' => some .leftBrace
  | '}' => some .rightBrace
  | '[' => some .leftBracket
  | ']' => some .rightBracket
  | '+' | '-' | '*' | '/' | '%' => some .operator
  | '=' => some .equals
  | ';' => some .semicolon
  | ':' => some .colon
  | ',' => some .comma
  | '.' => some .dot
  | _ => none

/-- The longest run of digits at the start of a text; it may be empty. -/
def number (text : List Char) : Lexeme :=
  let digits := text.takeWhile Char.isDigit
  ⟨digits, some (.number, String.ofList digits)⟩

/-- The longest run of letters at the start of a text; it may be empty. -/
def word (keywords : Keywords) (text : List Char) : Lexeme :=
  let letters := text.takeWhile Char.isAlpha
  let name := String.ofList letters
  ⟨letters, some (keywords.kindOf name, name)⟩

/-- A string whose first character, the opening quote, stands before `text`. -/
def string (quote : Char) (text : List Char) : Lexeme :=
  let body := text.takeWhile (· != '"')
  let closing := (text.drop body.length).take 1
  ⟨quote :: (body ++ closing), some (.string, String.ofList body)⟩

/-- The lexeme that starts with `c`, if any does. -/
def first? (keywords : Keywords) (c : Char) (text : List Char) : Option Lexeme :=
  if isSpace c then
    some ⟨[c], none⟩
  else
    match mark? c with
    | some kind => some ⟨[c], some (kind, String.ofList [c])⟩
    | none =>
      if c == '"' then some (string c text)
      else if c.isDigit then some (number (c :: text))
      else if c.isAlpha then some (word keywords (c :: text))
      else none

end Lexeme

/-- Why scanning stopped: a character that starts no lexeme, a read outside the text, or a distance
that no index can hold. -/
inductive ScanError where
  | unrecognized (char : Char) (position : Position)
  | pastEnd
  | unindexable
deriving DecidableEq

def ScanError.message : ScanError → String
  | .unrecognized c p =>
    "Unrecognized character " ++ Text.quoted (String.ofList [c]) ++ " (code " ++
      toString c.toNat ++ ") at line " ++ toString p.line ++ ", col " ++ toString p.column
  | .pastEnd => "string index out of range"
  | .unindexable => "cannot fit 'int' into an index-sized integer"

/-- The lowest number that is an index. -/
def lowestIndex : Int := -2 ^ (63 : Nat)

/-- A scanner part of the way through a text: what was passed, newest first, what is left, and the
tokens found so far. -/
structure Scanner where
  keywords : Keywords
  passed : List Char
  rest : List Char
  position : Position
  tokens : Array Token
deriving DecidableEq

/-- Operations on a scanner. One that fails leaves the scanner where it stopped. -/
abbrev Scan := EStateM ScanError Scanner

namespace Scanner

def ofSource (keywords : Keywords) (source : String) : Scanner :=
  ⟨keywords, [], source.toList, .start, #[]⟩

/-- How many characters were passed. -/
def offset (s : Scanner) : Nat := s.passed.length

/-- The whole text. -/
def source (s : Scanner) : List Char := s.passed.reverse ++ s.rest

/-- Passes over a lexeme at the start of the rest and keeps its token. -/
def pass (s : Scanner) (lexeme : Lexeme) : Scanner where
  keywords := s.keywords
  passed := lexeme.source.reverse ++ s.passed
  rest := s.rest.drop lexeme.source.length
  position := s.position.after lexeme.source
  tokens :=
    match lexeme.token? with
    | some (kind, text) => s.tokens.push ⟨kind, text, s.position⟩
    | none => s.tokens

end Scanner

namespace Scan

/-- The character at a distance from the current one. Past the end it is the null character; a
place before the start counts back from the end. -/
def peek (distance : Int) : Scan Char := fun s =>
  let text := s.source
  let index := s.offset + distance
  let place := if index < 0 then index + text.length else index
  if index < lowestIndex then .error .unindexable s
  else if place < 0 then .error .pastEnd s
  else .ok (text[place.toNat]?.getD '\x00') s

/-- Passes over one character. -/
def advance : Scan Char := fun s =>
  match s.rest with
  | [] => .error .pastEnd s
  | c :: _ => .ok c (s.pass ⟨[c], none⟩)

/-- Takes the current character for an opening quote. -/
def string : Scan Unit := fun s =>
  match s.rest with
  | [] => .error .pastEnd s
  | c :: text => .ok () (s.pass (Lexeme.string c text))

def number : Scan Unit := fun s =>
  .ok () (s.pass (Lexeme.number s.rest))

def word : Scan Unit := fun s =>
  .ok () (s.pass (Lexeme.word s.keywords s.rest))

/-- Passes over one lexeme. -/
def lexeme : Scan Unit := fun s =>
  match s.rest with
  | [] => .error (.unrecognized '\x00' s.position) s
  | c :: text =>
    match Lexeme.first? s.keywords c text with
    | some found => .ok () (s.pass found)
    | none => .error (.unrecognized c s.position) s

/-- Passes over lexemes to the end of the text, at most the given number. -/
def lexemes : Nat → Scan Unit
  | 0 => pure ()
  | count + 1 => do
    if (← get).rest.isEmpty then
      pure ()
    else
      lexeme
      lexemes count

/-- Scans all that is left and adds the token that ends the list; the result is its length. Every
lexeme takes a character, so as many lexemes as characters are enough. -/
def all : Scan Nat := do
  lexemes (← get).rest.length
  modify fun s => { s with tokens := s.tokens.push (.endOfInput s.position) }
  return (← get).tokens.size

end Scan

/-- The tokens of a source text. -/
def scanTokens (keywords : Keywords) (source : String) : Except ScanError (List Token) :=
  match Scan.all (.ofSource keywords source) with
  | .ok _ s => .ok s.tokens.toList
  | .error e _ => .error e

end Ember
