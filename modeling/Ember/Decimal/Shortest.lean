import Ember.Decimal.Basic

/-!
The shortest decimal that reads back as a given magnitude, and of several the nearest to it.
-/

namespace Ember

-- Powers are the ones of the core library, whichever other instances are in scope.
attribute [local instance (high)] instPowNat

namespace Magnitude

/-- A decimal reads back when the magnitude is its nearest double. -/
def ReadsBack (m : Magnitude) (d : Decimal) : Prop :=
  d.toDouble false = .finite false m

instance (m : Magnitude) (d : Decimal) : Decidable (m.ReadsBack d) :=
  inferInstanceAs (Decidable (_ = _))

/-- All digits of the magnitude: a unit is `5 ^ 1074 / 10 ^ 1074`. -/
def exactDecimal (m : Magnitude) : Decimal :=
  ⟨m.units * 5 ^ Double.places, -(Double.places : Int)⟩

/-- The exponent of the leading digit of a positive magnitude. -/
def leadingExponent (m : Magnitude) : Int :=
  (digitCount (m.units * 10 ^ (324 : Nat) / Double.unitsPerOne) : Int) - 325

/-- The magnitude divided by `10 ^ exponent`, as a fraction. -/
def scaled (m : Magnitude) (exponent : Int) : Nat × Nat :=
  (m.units * 10 ^ (-exponent).toNat, Double.unitsPerOne * 10 ^ exponent.toNat)

/-- Of the two neighbours of the magnitude among the multiples of `10 ^ exponent`, the nearer one
that reads back; at equal distance the even one. -/
def neighbour? (m : Magnitude) (exponent : Int) : Option Decimal :=
  let (n, d) := m.scaled exponent
  let low : Decimal := ⟨n / d, exponent⟩
  let high : Decimal := ⟨n / d + 1, exponent⟩
  let first := if nearestQuotient n d = n / d then low else high
  let second := if nearestQuotient n d = n / d then high else low
  [first, second].find? fun c => decide (m.ReadsBack c)

/-- The first of the grids of one to seventeen digits with a neighbour that reads back decides. -/
def shortest (m : Magnitude) : Decimal :=
  let found := (List.range 17).findSome? fun (k : Nat) =>
    m.neighbour? (m.leadingExponent - k)
  (found.getD m.exactDecimal).trim

end Magnitude

end Ember
