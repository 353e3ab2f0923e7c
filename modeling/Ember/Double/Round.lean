import Ember.Double.Basic

/-!
Rounding of an exact quotient to the nearest double. A quotient halfway between two doubles goes
to the one with the even significand, and one too large for a finite double becomes infinite.
-/

namespace Ember

/-- The whole number nearest to `n / d`; a half goes to the even neighbour. -/
def nearestQuotient (n d : Nat) : Nat :=
  let q := n / d
  let r := n % d
  if d < 2 * r then q + 1
  else if 2 * r = d ∧ q % 2 = 1 then q + 1
  else q

theorem nearestQuotient_le {n d k : Nat} (h : n < k * d) : nearestQuotient n d ≤ k := by
  have hlt : n / d < k := Nat.div_lt_of_lt_mul (by rwa [Nat.mul_comm] at h)
  unfold nearestQuotient
  simp only
  split
  · exact hlt
  · split
    · exact hlt
    · exact Nat.le_of_lt hlt

namespace Double

/-- The multiple of the spacing at `n / d` units that is nearest to it. -/
def nearestUnits (n d : Nat) : Nat :=
  let step := spacing (n / d)
  nearestQuotient n (d * step) * step

theorem spacing_dvd_nearestUnits (n : Nat) {d : Nat} (hd : 0 < d) :
    spacing (nearestUnits n d) ∣ nearestUnits n d := by
  have hlog : n / d < 2 ^ ((n / d).log2 + 1) := Nat.lt_log2_self
  have hn : n < 2 ^ 53 * (d * spacing (n / d)) := by
    have h1 : n < 2 ^ ((n / d).log2 + 1) * d := (Nat.div_lt_iff_lt_mul hd).1 hlog
    have h2 : 2 ^ ((n / d).log2 + 1) ≤ 2 ^ 53 * spacing (n / d) := by
      rw [spacing, ← Nat.pow_add]
      exact Nat.pow_le_pow_right (by decide) (by omega)
    have h3 : 2 ^ ((n / d).log2 + 1) * d ≤ 2 ^ 53 * spacing (n / d) * d :=
      Nat.mul_le_mul_right d h2
    have h4 : 2 ^ 53 * (d * spacing (n / d)) = 2 ^ 53 * spacing (n / d) * d := by
      rw [Nat.mul_comm d, Nat.mul_assoc]
    omega
  have hq := nearestQuotient_le hn
  generalize ht : (n / d).log2 - 52 = t at *
  have hs : spacing (n / d) = 2 ^ t := by rw [spacing, ht]
  unfold nearestUnits
  simp only [hs] at hq ⊢
  generalize nearestQuotient n (d * 2 ^ t) = q at *
  by_cases hq' : q = 2 ^ 53
  · subst hq'
    refine spacing_dvd_of_lt (t := t + 1) ?_ ?_
    · rw [← Nat.pow_add]
      exact Nat.pow_dvd_pow 2 (by omega)
    · rw [← Nat.pow_add]
      exact Nat.pow_lt_pow_right (by decide) (by omega)
  · refine spacing_dvd_of_lt (t := t) (Nat.dvd_mul_left _ _) ?_
    rw [Nat.add_comm, Nat.pow_add]
    exact Nat.mul_lt_mul_of_pos_right (by omega) (Nat.two_pow_pos _)

/-- The double nearest to `n / d` units, with the given sign. A zero `d` counts as one. -/
def round (negative : Bool) (n d : Nat) : Double :=
  if h : nearestUnits n (max d 1) < limit then
    .finite negative
      ⟨nearestUnits n (max d 1), spacing_dvd_nearestUnits n (by omega), h⟩
  else
    .infinite negative

/-- The double nearest to an integer; the zero it gives is positive. -/
def ofInt (z : Int) : Double :=
  round (decide (z < 0)) (z.natAbs * unitsPerOne) 1

end Double

end Ember
