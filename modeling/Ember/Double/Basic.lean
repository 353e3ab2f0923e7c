/-!
Binary floating-point numbers of 64 bits, kept exactly: every finite one is a whole number of units
of `2 ^ -1074`, the smallest positive double.
-/

namespace Ember

-- Powers are the ones of the core library, whichever other instances are in scope.
attribute [local instance (high)] instPowNat

/-- Binary places of the unit after the point. -/
def Double.places : Nat := 1074

/-- The number one, in units. -/
def Double.unitsPerOne : Nat := 2 ^ places

/-- Units between a double of `n` units and its upper neighbour: 53 significant bits are kept. -/
def Double.spacing (n : Nat) : Nat := 2 ^ (n.log2 - 52)

/-- Bits of the largest finite magnitude, counted in units. -/
def Double.width : Nat := 2098

/-- Finite magnitudes stay below this many units. -/
def Double.limit : Nat := 2 ^ width

/-- The size of a finite double, in units. -/
structure Magnitude where
  units : Nat
  spaced : Double.spacing units ∣ units
  bounded : units < Double.limit
deriving DecidableEq

/-- A double; all NaNs are one. -/
inductive Double where
  | nan
  | infinite (negative : Bool)
  | finite (negative : Bool) (magnitude : Magnitude)
deriving DecidableEq

@[ext] theorem Magnitude.ext {a b : Magnitude} (h : a.units = b.units) : a = b := by
  cases a; cases b; cases h; rfl

namespace Double

theorem spacing_pos (n : Nat) : 0 < spacing n :=
  Nat.two_pow_pos _

theorem two_pow_le_limit {k : Nat} (h : k ≤ width) : 2 ^ k ≤ limit :=
  Nat.pow_le_pow_right (by decide) h

/-- A multiple of `2 ^ t` below `2 ^ (t + 53)` needs no more than 53 bits. -/
theorem spacing_dvd_of_lt {n t : Nat} (hd : 2 ^ t ∣ n) (hn : n < 2 ^ (t + 53)) :
    spacing n ∣ n := by
  by_cases h0 : n = 0
  · subst h0
    exact Nat.dvd_zero _
  · have hlog : n.log2 < t + 53 := (Nat.log2_lt h0).2 hn
    exact Nat.dvd_trans (Nat.pow_dvd_pow 2 (by omega)) hd

theorem spacing_dvd_of_small {n : Nat} (hn : n < 2 ^ (53 : Nat)) : spacing n ∣ n :=
  spacing_dvd_of_lt (t := 0) (Nat.one_dvd n) (by simpa using hn)

end Double

/-- A magnitude of fewer than `2 ^ 53` units. -/
def Magnitude.ofSmall (n : Nat) (h : n < 2 ^ (53 : Nat)) : Magnitude where
  units := n
  spaced := Double.spacing_dvd_of_small h
  bounded := Nat.lt_of_lt_of_le h (Double.two_pow_le_limit (by decide))

def Magnitude.zero : Magnitude := .ofSmall 0 (by decide)

/-- A significand of 53 bits moved up by `shift` places. -/
def Magnitude.ofShifted (significand shift : Nat) (hm : significand < 2 ^ (53 : Nat))
    (hs : shift ≤ 2045) : Magnitude where
  units := significand * 2 ^ shift
  spaced := by
    refine Double.spacing_dvd_of_lt (t := shift) (Nat.dvd_mul_left _ _) ?_
    rw [Nat.add_comm, Nat.pow_add]
    exact Nat.mul_lt_mul_of_pos_right hm (Nat.two_pow_pos _)
  bounded := by
    have h : 2 ^ 53 * 2 ^ shift ≤ Double.limit := by
      rw [← Nat.pow_add]
      exact Double.two_pow_le_limit (by unfold Double.width; omega)
    exact Nat.lt_of_lt_of_le (Nat.mul_lt_mul_of_pos_right hm (Nat.two_pow_pos _)) h

namespace Double

def zero : Double := .finite false .zero

def isNegative : Double → Bool
  | .nan => false
  | .infinite negative => negative
  | .finite negative _ => negative

/-- Both zeros, the negative one included. -/
def isZero : Double → Bool
  | .finite _ m => m.units == 0
  | _ => false

/-- The number as an integer, when it is one. -/
def toInt? : Double → Option Int
  | .finite negative m =>
    if m.units % unitsPerOne = 0 then
      let n : Int := (m.units / unitsPerOne : Nat)
      some (if negative then -n else n)
    else
      none
  | _ => none

end Double

end Ember
