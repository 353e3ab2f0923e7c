import Ember.Double.Basic

/-!
The 64-bit interchange form of a double: a sign bit, eleven exponent bits and 52 fraction bits.
-/

namespace Ember

-- Powers are the ones of the core library, whichever other instances are in scope.
attribute [local instance (high)] instPowNat

/-- Exponent and fraction bits of a magnitude, as one number. -/
def Magnitude.code (m : Magnitude) : Nat :=
  if m.units < 2 ^ (52 : Nat) then
    m.units
  else
    let shift := m.units.log2 - 52
    (shift + 1) * 2 ^ (52 : Nat) + (m.units / 2 ^ shift - 2 ^ (52 : Nat))

namespace Double

private theorem fraction_lt (w : Nat) : w % 2 ^ (52 : Nat) < 2 ^ (52 : Nat) :=
  Nat.mod_lt _ (Nat.two_pow_pos _)

/-- Reads a word; every word with all exponent bits set and a non-zero fraction is the NaN. -/
def ofBits (word : UInt64) : Double :=
  let negative := decide (2 ^ (63 : Nat) ≤ word.toNat)
  let exponent := word.toNat / 2 ^ (52 : Nat) % 2 ^ (11 : Nat)
  let fraction := word.toNat % 2 ^ (52 : Nat)
  have hf : fraction < 2 ^ (52 : Nat) := fraction_lt _
  if h : exponent < 2047 then
    if exponent = 0 then
      .finite negative (.ofSmall fraction (by omega))
    else
      .finite negative (.ofShifted (2 ^ (52 : Nat) + fraction) (exponent - 1) (by omega) (by omega))
  else if fraction = 0 then
    .infinite negative
  else
    .nan

private def signCode (negative : Bool) : Nat :=
  if negative then 2 ^ (63 : Nat) else 0

/-- Writes a word; the NaN is written as the quiet one without a sign. -/
def toBits : Double → UInt64
  | .nan => UInt64.ofNat (2047 * 2 ^ (52 : Nat) + 2 ^ (51 : Nat))
  | .infinite negative => UInt64.ofNat (signCode negative + 2047 * 2 ^ (52 : Nat))
  | .finite negative m => UInt64.ofNat (signCode negative + m.code)

end Double

end Ember
