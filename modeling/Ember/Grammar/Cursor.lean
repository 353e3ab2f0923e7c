import Ember.Token.Basic

/-!
A cursor over a token list. Past the last token stands an end of input at that token's place, so a
list without its end token reads like one with it.
-/

namespace Ember

structure Cursor where
  /-- Tokens not yet taken. -/
  pending : List Token
  /-- How many were taken. -/
  taken : Nat
  /-- Where the last one taken stands. -/
  last : Position
deriving DecidableEq

namespace Cursor

def ofTokens (tokens : List Token) : Cursor := ⟨tokens, 0, ⟨0, 0⟩⟩

def current (c : Cursor) : Token :=
  match c.pending with
  | [] => .endOfInput c.last
  | token :: _ => token

def advance (c : Cursor) : Cursor :=
  match c.pending with
  | [] => c
  | token :: rest => ⟨rest, c.taken + 1, token.position⟩

def remaining (c : Cursor) : Nat := c.pending.length

/-- The place in the list of the current token; past the end, that of the last token. -/
def index (c : Cursor) : Nat :=
  if c.pending.isEmpty then c.taken - 1 else c.taken

end Cursor

end Ember
