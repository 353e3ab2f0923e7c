import Ember.Decimal.Shortest

/-!
The text of a number. Integers are written with all their digits; other numbers with the fewest
that read back, positionally while the leading digit stands between the places `10 ^ -4` and
`10 ^ 15` and with an exponent otherwise.
-/

namespace Ember

/-- Exponents are written with a sign and at least two digits. -/
def Decimal.exponentText (e : Int) : List Char :=
  let digits := Nat.toDigits 10 e.natAbs
  (if e < 0 then '-' else '+') :: (List.replicate (2 - digits.length) '0' ++ digits)

def Decimal.layout (d : Decimal) : List Char :=
  let digits := Nat.toDigits 10 d.digits
  let lead := d.order - 1
  if -4 ≤ lead ∧ lead < 16 then
    if lead < 0 then
      '0' :: '.' :: (List.replicate (-d.order).toNat '0' ++ digits)
    else if d.exponent < 0 then
      digits.take d.order.toNat ++ '.' :: digits.drop d.order.toNat
    else
      digits ++ List.replicate d.exponent.toNat '0' ++ ['.', '0']
  else
    let fraction := digits.drop 1
    digits.take 1 ++ (if fraction.isEmpty then [] else '.' :: fraction) ++
      'e' :: Decimal.exponentText lead

namespace Double

private def sign (negative : Bool) (text : List Char) : List Char :=
  if negative then '-' :: text else text

/-- The digits of an integer; negative zero has no sign. -/
def integerText (z : Int) : List Char :=
  sign (decide (z < 0)) (Nat.toDigits 10 z.natAbs)

/-- How a number is shown, and the key that it stands for in an object. -/
def text (x : Double) : String :=
  String.ofList <|
    match x with
    | .nan => ['n', 'a', 'n']
    | .infinite negative => sign negative ['i', 'n', 'f']
    | .finite negative m =>
      match toInt? (.finite negative m) with
      | some z => integerText z
      | none => sign negative m.shortest.layout

end Double

end Ember
