import Ember.Text.Quoted

/-!
Tokens: a kind, the text they hold and where they start.
-/

namespace Ember

inductive TokenKind where
  | number
  | string
  | identifier
  | letWord
  | constWord
  | fnWord
  | operator
  | equals
  | leftParen
  | rightParen
  | leftBrace
  | rightBrace
  | leftBracket
  | rightBracket
  | semicolon
  | colon
  | comma
  | dot
  | endOfInput
deriving DecidableEq

/-- What a kind of token is for. -/
inductive TokenCategory where
  | number
  | string
  | identifier
  | keyword
  | operator
  | punctuation
  | endOfInput
deriving DecidableEq

namespace TokenKind

def all : List TokenKind :=
  [.number, .string, .identifier, .letWord, .constWord, .fnWord, .operator, .equals, .leftParen,
   .rightParen, .leftBrace, .rightBrace, .leftBracket, .rightBracket, .semicolon, .colon, .comma,
   .dot, .endOfInput]

def name : TokenKind → String
  | .number => "NUMBER"
  | .string => "STRING"
  | .identifier => "IDENT"
  | .letWord => "LET"
  | .constWord => "CONST"
  | .fnWord => "FN"
  | .operator => "BINOP"
  | .equals => "EQUALS"
  | .leftParen => "LPAR"
  | .rightParen => "RPAR"
  | .leftBrace => "LBRACE"
  | .rightBrace => "RBRACE"
  | .leftBracket => "LSQB"
  | .rightBracket => "RSQB"
  | .semicolon => "SEMI"
  | .colon => "COLON"
  | .comma => "COMMA"
  | .dot => "DOT"
  | .endOfInput => "EOF"

def ofName? (name : String) : Option TokenKind :=
  all.find? fun kind => kind.name == name

def category : TokenKind → TokenCategory
  | .number => .number
  | .string => .string
  | .identifier => .identifier
  | .letWord | .constWord | .fnWord => .keyword
  | .operator | .equals => .operator
  | .endOfInput => .endOfInput
  | _ => .punctuation

end TokenKind

def TokenCategory.name : TokenCategory → String
  | .number => "number"
  | .string => "string"
  | .identifier => "identifier"
  | .keyword => "keyword"
  | .operator => "operator"
  | .punctuation => "punctuation"
  | .endOfInput => "eof"

/-- A place in a source text, where both numbers count from one. Tokens made by hand may stand
anywhere. -/
structure Position where
  line : Int
  column : Int
deriving DecidableEq

namespace Position

def start : Position := ⟨1, 1⟩

/-- The place after one character. -/
def next (p : Position) (c : Char) : Position :=
  if c = '\n' then ⟨p.line + 1, 1⟩ else ⟨p.line, p.column + 1⟩

/-- The place after some text. -/
def after (p : Position) (text : List Char) : Position :=
  text.foldl next p

@[simp] theorem after_nil (p : Position) : p.after [] = p := rfl

@[simp] theorem after_cons (p : Position) (c : Char) (text : List Char) :
    p.after (c :: text) = (p.next c).after text := rfl

theorem after_append (p : Position) (s t : List Char) :
    p.after (s ++ t) = (p.after s).after t := by
  simp only [after, List.foldl_append]

end Position

structure Token where
  kind : TokenKind
  text : String
  position : Position
deriving DecidableEq

namespace Token

/-- The token that ends every token list. -/
def endOfInput (position : Position) : Token := ⟨.endOfInput, "EOF", position⟩

/-- The diagnostic form of a token. -/
def display (t : Token) : String :=
  "Tok(" ++ t.kind.name ++ ", " ++ Text.quoted t.text ++ ", " ++ toString t.position.line ++ ":" ++
    toString t.position.column ++ ")"

end Token

end Ember
