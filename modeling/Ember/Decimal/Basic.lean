import Ember.Double.Round

/-!
Decimal numbers and the doubles nearest to them.
-/

namespace Ember

-- Powers are the ones of the core library, whichever other instances are in scope.
attribute [local instance (high)] instPowNat

/-- The number `digits * 10 ^ exponent`. -/
structure Decimal where
  digits : Nat
  exponent : Int
deriving DecidableEq

/-- How many decimal digits a number is written with. -/
def digitCount (n : Nat) : Nat := (Nat.toDigits 10 n).length

namespace Decimal

/-- Places before the point, negative for zeros after it: the number is below ten to this power. -/
def order (d : Decimal) : Int := digitCount d.digits + d.exponent

/-- The nearest double. Numbers of at least `10 ^ 309` and below `10 ^ -324` are settled by their
order alone, so that no power is larger than the number needs. -/
def toDouble (negative : Bool) (d : Decimal) : Double :=
  if d.digits = 0 then .finite negative .zero
  else if 309 < d.order then .infinite negative
  else if d.order < -323 then .finite negative .zero
  else Double.round negative (d.digits * Double.unitsPerOne * 10 ^ d.exponent.toNat)
    (10 ^ (-d.exponent).toNat)

/-- The same number without zeros at the end of its digits. -/
def trim (d : Decimal) : Decimal :=
  let zeros := ((Nat.toDigits 10 d.digits).reverse.takeWhile (· == '0')).length
  if d.digits = 0 then d
  else ⟨d.digits / 10 ^ zeros, d.exponent + zeros⟩

end Decimal

end Ember
