import Ember.Double.Round

/-!
Arithmetic on doubles: the exact result in units, rounded once. The remainder needs no rounding,
since a remainder of two representable magnitudes is representable.
-/

namespace Ember

-- Powers are the ones of the core library, whichever other instances are in scope.
attribute [local instance (high)] instPowNat

/-- The signed number of units. -/
def Magnitude.signed (negative : Bool) (m : Magnitude) : Int :=
  if negative then -(m.units : Int) else m.units

/-- A magnitude is a significand of at most 53 bits, moved up some places. -/
theorem Magnitude.exists_significand (m : Magnitude) :
    ∃ k t : Nat, k < 2 ^ (53 : Nat) ∧ m.units = k * 2 ^ t := by
  obtain ⟨k, hk⟩ := m.spaced
  refine ⟨k, m.units.log2 - 52, ?_, ?_⟩
  · refine Nat.lt_of_not_le fun hge => ?_
    have hpos := Double.spacing_pos m.units
    have hlt : m.units < 2 ^ (m.units.log2 + 1) := Nat.lt_log2_self
    have hle : 2 ^ (m.units.log2 + 1) ≤ 2 ^ 53 * 2 ^ (m.units.log2 - 52) := by
      rw [← Nat.pow_add]
      exact Nat.pow_le_pow_right (by decide) (by omega)
    have hmul : 2 ^ 53 * 2 ^ (m.units.log2 - 52) ≤ 2 ^ (m.units.log2 - 52) * k := by
      rw [Nat.mul_comm]
      exact Nat.mul_le_mul_left _ hge
    have hk' : m.units = 2 ^ (m.units.log2 - 52) * k := hk
    omega
  · rw [Nat.mul_comm]
    exact hk

theorem Magnitude.spacing_dvd_mod (a b : Magnitude) :
    Double.spacing (a.units % b.units) ∣ a.units % b.units := by
  obtain ⟨j, s, hj, ha⟩ := a.exists_significand
  obtain ⟨k, t, hk, hb⟩ := b.exists_significand
  by_cases hb0 : b.units = 0
  · rw [hb0, Nat.mod_zero]
    exact a.spaced
  have hlt : a.units % b.units < b.units := Nat.mod_lt _ (by omega)
  have hle : a.units % b.units ≤ a.units := Nat.mod_le _ _
  have hbound : ∀ {c u : Nat}, c < 2 ^ 53 → c * 2 ^ u < 2 ^ (u + 53) := by
    intro c u hc
    rw [Nat.add_comm, Nat.pow_add]
    exact Nat.mul_lt_mul_of_pos_right hc (Nat.two_pow_pos _)
  have hda : 2 ^ s ∣ a.units := ha ▸ Nat.dvd_mul_left _ _
  have hdb : 2 ^ t ∣ b.units := hb ▸ Nat.dvd_mul_left _ _
  rcases Nat.le_total s t with hst | hts
  · refine Double.spacing_dvd_of_lt (t := s) ?_ ?_
    · exact (Nat.dvd_mod_iff (Nat.dvd_trans (Nat.pow_dvd_pow 2 hst) hdb)).2 hda
    · exact Nat.lt_of_le_of_lt hle (ha ▸ hbound hj)
  · refine Double.spacing_dvd_of_lt (t := t) ?_ ?_
    · exact (Nat.dvd_mod_iff hdb).2 (Nat.dvd_trans (Nat.pow_dvd_pow 2 hts) hda)
    · exact Nat.lt_trans hlt (hb ▸ hbound hk)

/-- The remainder of the division of two magnitudes. -/
def Magnitude.rem (a b : Magnitude) : Magnitude where
  units := a.units % b.units
  spaced := a.spacing_dvd_mod b
  bounded := Nat.lt_of_le_of_lt (Nat.mod_le _ _) a.bounded

namespace Double

def neg : Double → Double
  | .nan => .nan
  | .infinite negative => .infinite !negative
  | .finite negative m => .finite (!negative) m

/-- A sum that is exactly zero is negative only if both terms are. -/
def add : Double → Double → Double
  | .nan, _ => .nan
  | _, .nan => .nan
  | .infinite s, .infinite t => if s = t then .infinite s else .nan
  | .infinite s, .finite .. => .infinite s
  | .finite .., .infinite t => .infinite t
  | .finite s a, .finite t b =>
    let sum := a.signed s + b.signed t
    if sum = 0 then .finite (s && t) .zero
    else round (decide (sum < 0)) sum.natAbs 1

def sub (x y : Double) : Double :=
  x.add y.neg

def mul : Double → Double → Double
  | .nan, _ => .nan
  | _, .nan => .nan
  | .infinite s, .infinite t => .infinite (s ^^ t)
  | .infinite s, .finite t b => if b.units = 0 then .nan else .infinite (s ^^ t)
  | .finite s a, .infinite t => if a.units = 0 then .nan else .infinite (s ^^ t)
  | .finite s a, .finite t b => round (s ^^ t) (a.units * b.units) unitsPerOne

/-- A zero divisor gives an infinity, and zero by zero the NaN. -/
def div : Double → Double → Double
  | .nan, _ => .nan
  | _, .nan => .nan
  | .infinite _, .infinite _ => .nan
  | .infinite s, .finite t _ => .infinite (s ^^ t)
  | .finite s _, .infinite t => .finite (s ^^ t) .zero
  | .finite s a, .finite t b =>
    if b.units = 0 then
      if a.units = 0 then .nan else .infinite (s ^^ t)
    else
      round (s ^^ t) (a.units * unitsPerOne) b.units

/-- The remainder of truncating division, with the sign of the dividend. An infinite dividend or a
zero divisor has none, unless the other operand is the NaN. -/
def rem? : Double → Double → Option Double
  | .nan, _ => some .nan
  | _, .nan => some .nan
  | .infinite _, _ => none
  | .finite s a, .infinite _ => some (.finite s a)
  | .finite s a, .finite _ b => if b.units = 0 then none else some (.finite s (a.rem b))

end Double

end Ember
