import Ember.Decimal.Basic
import Ember.Text.Blank
import Ember.Text.Digit

/-!
Numerals: the texts that denote a number. A numeral has an optional sign and is either decimal, with
an optional point and exponent, or names an infinity or the NaN. Blanks around it are ignored,
digits may be of any script, and single underscores may stand between digits.
-/

namespace Ember.Numeral

/-- Blanks that may surround a numeral, once those beyond ASCII have been mapped to the space. -/
def isPadding (c : Char) : Bool :=
  c == ' ' || (0x09 ≤ c.toNat && c.toNat ≤ 0x0d)

/-- The ASCII character that stands for `c` in a numeral. -/
def normalize? (c : Char) : Option Char :=
  if c.toNat < 0x80 then some c
  else if Text.isBlank c then some ' '
  else (Text.digitValue? c).map Nat.digitChar

/-- Removes underscores, each of which must stand between two digits. -/
def dropUnderscores (previous : Char) : List Char → Option (List Char)
  | [] => if previous = '_' then none else some []
  | c :: rest =>
    if c = '_' then
      if previous.isDigit then dropUnderscores c rest else none
    else if previous = '_' && !c.isDigit then none
    else (dropUnderscores c rest).map (c :: ·)

/-- A sign, if there is one, and the rest. -/
def takeSign : List Char → Bool × List Char
  | '-' :: rest => (true, rest)
  | '+' :: rest => (false, rest)
  | cs => (false, cs)

/-- The exponent part of a decimal numeral; nothing stands for zero. -/
def exponent? : List Char → Option Int
  | [] => some 0
  | c :: rest =>
    if c = 'e' ∨ c = 'E' then
      let (negative, digits) := takeSign rest
      if digits.isEmpty || !digits.all Char.isDigit then none
      else
        let n : Int := Nat.ofDigitChars 10 digits 0
        some (if negative then -n else n)
    else
      none

/-- The fraction digits after a point, if there is one, and the rest. -/
def takeFraction : List Char → List Char × List Char
  | '.' :: rest => (rest.takeWhile Char.isDigit, rest.dropWhile Char.isDigit)
  | cs => ([], cs)

/-- A decimal numeral without its sign. -/
def decimal? (cs : List Char) : Option Decimal :=
  let whole := cs.takeWhile Char.isDigit
  let (fraction, rest) := takeFraction (cs.dropWhile Char.isDigit)
  if whole.isEmpty && fraction.isEmpty then none
  else
    (exponent? rest).map fun e =>
      ⟨Nat.ofDigitChars 10 (whole ++ fraction) 0, e - fraction.length⟩

/-- A numeral of ASCII characters without padding and underscores. -/
def plain? (cs : List Char) : Option Double :=
  let (negative, body) := takeSign cs
  match decimal? body with
  | some d => some (d.toDouble negative)
  | none =>
    let word := String.ofList (body.map Char.toLower)
    if word = "inf" ∨ word = "infinity" then some (.infinite negative)
    else if word = "nan" then some .nan
    else none

/-- The number that a text denotes, if it is a numeral. -/
def read? (text : String) : Option Double := do
  let cs ← text.toList.mapM normalize?
  let cs ← dropUnderscores ' ' (Text.trimBy isPadding cs)
  plain? cs

end Ember.Numeral
