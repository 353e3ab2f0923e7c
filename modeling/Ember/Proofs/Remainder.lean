import Ember.Evaluation.Rules
import Mathlib

/-!
The remainder of a division. It is exact over the rationals, whatever the exponents of its operands,
and has the sign bit of the dividend; it is refused only by the two zeros.
-/

namespace Ember

set_option autoImplicit true

/-- A rational number without its fraction, so cut towards zero. -/
def truncate (q : ℚ) : ℤ := if q < 0 then ⌈q⌉ else ⌊q⌋

theorem truncate_neg (q : ℚ) : truncate (-q) = -truncate q := by
  unfold truncate
  rcases lt_trichotomy q 0 with h | rfl | h
  · rw [if_neg (by linarith), if_pos h, Int.floor_neg]
  · simp
  · rw [if_pos (by linarith), if_neg (by linarith), Int.ceil_neg]

theorem truncate_natCast_div (m n : ℕ) : truncate ((m : ℚ) / n) = (m : ℤ).tdiv n := by
  have h : ¬(m : ℚ) / n < 0 := by
    rw [not_lt]
    positivity
  rw [truncate, if_neg h, Rat.floor_natCast_div_natCast]
  exact (Int.tdiv_eq_ediv_of_nonneg (Int.natCast_nonneg m)).symm

theorem truncate_intCast_div (i j : ℤ) : truncate ((i : ℚ) / j) = i.tdiv j := by
  obtain ⟨m, rfl | rfl⟩ := i.eq_nat_or_neg <;> obtain ⟨n, rfl | rfl⟩ := j.eq_nat_or_neg
  all_goals
    simp only [Int.cast_neg, Int.cast_natCast, neg_div, div_neg, truncate_neg, neg_neg,
      truncate_natCast_div, Int.neg_tdiv, Int.tdiv_neg]

namespace Magnitude

theorem natAbs_signed (s : Bool) (m : Magnitude) : (m.signed s).natAbs = m.units := by
  cases s <;> simp [signed]

theorem signed_inj {a b : Magnitude} (h : a.signed s = b.signed s) : a = b := by
  apply Magnitude.ext
  rw [← natAbs_signed s a, h, natAbs_signed]

theorem signed_rem (s t : Bool) (a b : Magnitude) :
    (a.rem b).signed s = (a.signed s).tmod (b.signed t) := by
  have h := Int.ofNat_tmod a.units b.units
  cases s <;> cases t <;> simpa [signed, rem, Int.neg_tmod, Int.tmod_neg] using h

end Magnitude

namespace Double

variable {x y : Double} {p q : ℚ}

def toRat? : Double → Option ℚ
  | .finite s m => some ((m.signed s : ℚ) / unitsPerOne)
  | _ => none

theorem unitsPerOne_pos : (0 : ℚ) < unitsPerOne := Nat.cast_pos.2 (Nat.two_pow_pos _)

theorem toRat?_eq_some (h : x.toRat? = some p) :
    ∃ s m, x = .finite s m ∧ p = (m.signed s : ℚ) / unitsPerOne := by
  cases x with
  | finite s m => exact ⟨s, m, rfl, (Option.some.inj h).symm⟩
  | nan | infinite => cases h

theorem eq_of_toRat? (hx : x.toRat? = some p) (hy : y.toRat? = some p)
    (h : x.isNegative = y.isNegative) : x = y := by
  obtain ⟨s, a, rfl, rfl⟩ := toRat?_eq_some hx
  obtain ⟨t, b, rfl, hp⟩ := toRat?_eq_some hy
  obtain rfl : s = t := h
  have hs : (a.signed s : ℚ) = b.signed s := (div_left_inj' unitsPerOne_pos.ne').1 hp
  rw [Magnitude.signed_inj (Int.cast_injective hs)]

theorem isZero_iff : y.isZero = true ↔ y = .zero ∨ y = neg .zero := by
  cases y with
  | nan | infinite => simp [isZero, zero, neg]
  | finite s m =>
    have hm : m = .zero ↔ m.units = 0 := ⟨fun h => h ▸ rfl, fun h => Magnitude.ext h⟩
    cases s <;> simp [isZero, zero, neg, hm]

theorem isZero_of_toRat? (h : y.toRat? = some q) (hq : q ≠ 0) : y.isZero = false := by
  obtain ⟨t, b, rfl, rfl⟩ := toRat?_eq_some h
  have hb : b.units ≠ 0 := by
    intro h0
    have hs : b.signed t = 0 := Int.natAbs_eq_zero.1 ((b.natAbs_signed t).trans h0)
    exact hq (by rw [hs, Int.cast_zero, zero_div])
  exact beq_false_of_ne hb

/-- What is left of the dividend after whole divisors are taken off it. -/
theorem exists_rem?_eq (hx : x.toRat? = some p) (hy : y.toRat? = some q) (hq : q ≠ 0) :
    ∃ r, x.rem? y = some r ∧ r.toRat? = some (p - truncate (p / q) * q) ∧
      r.isNegative = x.isNegative ∧ |p - truncate (p / q) * q| < |q| := by
  have hzero := isZero_of_toRat? hy hq
  obtain ⟨s, a, rfl, rfl⟩ := toRat?_eq_some hx
  obtain ⟨t, b, rfl, rfl⟩ := toRat?_eq_some hy
  have hb : b.units ≠ 0 := ne_of_beq_false hzero
  have hu := unitsPerOne_pos
  have hvalue : (a.signed s : ℚ) / unitsPerOne -
      truncate ((a.signed s : ℚ) / unitsPerOne / ((b.signed t : ℚ) / unitsPerOne)) *
        ((b.signed t : ℚ) / unitsPerOne) = ((a.rem b).signed s : ℚ) / unitsPerOne := by
    rw [div_div_div_cancel_right₀ hu.ne', truncate_intCast_div, a.signed_rem s t b, Int.tmod_def]
    push_cast
    ring
  rw [hvalue]
  refine ⟨.finite s (a.rem b), if_neg hb, rfl, rfl, ?_⟩
  rw [abs_div, abs_div]
  apply div_lt_div_of_pos_right _ (abs_pos.2 hu.ne')
  rw [← Int.cast_abs, ← Int.cast_abs, Int.abs_eq_natAbs, Int.abs_eq_natAbs,
    Magnitude.natAbs_signed, Magnitude.natAbs_signed]
  exact_mod_cast Nat.mod_lt a.units (Nat.pos_of_ne_zero hb)

end Double

theorem arithmetic_eq_zeroDivision_iff (h : operator ∈ ["/", "%"]) (x y : Double) :
    arithmetic operator x y = .error (.fault (.zeroDivision name) site) ↔
      (y = .zero ∨ y = .neg .zero) ∧ name = operator ∧ site = none := by
  rw [← Double.isZero_iff]
  simp only [List.mem_cons, List.not_mem_nil, or_false] at h
  by_cases hy : y.isZero = true
  · rcases h with rfl | rfl <;> simp [arithmetic, hy, eq_comm]
  · rcases h with rfl | rfl
    · simp [arithmetic, hy]
    · cases hr : x.rem? y <;> simp [arithmetic, hy, hr]

/-- The remainder of a finite number by a finite one that is not zero is the double that is left of
it, exactly, once whole divisors are taken off towards zero; it is smaller than the divisor and has
the sign bit of the dividend, be it zero or not. By an infinity a finite number stays as it is. Only
the zeros are refused as divisors, by division as well. -/
theorem remainder_exact (x y : Double) :
    (∀ p q, x.toRat? = some p → y.toRat? = some q → q ≠ 0 →
      |p - truncate (p / q) * q| < |q| ∧
      ∃ r, arithmetic "%" x y = .ok r ∧
        ∀ r', r' = r ↔
          r'.toRat? = some (p - truncate (p / q) * q) ∧ r'.isNegative = x.isNegative) ∧
    (∀ p s, x.toRat? = some p → y = .infinite s → arithmetic "%" x y = .ok x) ∧
    ∀ operator ∈ ["/", "%"], ∀ name site,
      arithmetic operator x y = .error (.fault (.zeroDivision name) site) ↔
        (y = .zero ∨ y = .neg .zero) ∧ name = operator ∧ site = none := by
  refine ⟨?_, ?_, fun operator h name site => arithmetic_eq_zeroDivision_iff h x y⟩
  · intro p q hx hy hq
    obtain ⟨r, hr, hvalue, hsign, hlt⟩ := Double.exists_rem?_eq hx hy hq
    have hzero := Double.isZero_of_toRat? hy hq
    refine ⟨hlt, r, by simp [arithmetic, hzero, hr], fun r' => ⟨?_, ?_⟩⟩
    · rintro rfl
      exact ⟨hvalue, hsign⟩
    · rintro ⟨hvalue', hsign'⟩
      exact Double.eq_of_toRat? hvalue' hvalue (hsign'.trans hsign.symm)
  · rintro p s hx rfl
    obtain ⟨t, a, rfl, -⟩ := Double.toRat?_eq_some hx
    rfl

/-- Of `-2 ^ 1023` by the third of all positive doubles, two units are left. -/
theorem remainder_exact_extremes :
    let x : Double := .finite true (.ofShifted (2 ^ 52) 2045 (by decide) (by decide))
    let y : Double := .finite false (.ofSmall 3 (by decide))
    let r : Double := .finite true (.ofSmall 2 (by decide))
    ∃ p q, x.toRat? = some p ∧ y.toRat? = some q ∧ q ≠ 0 ∧ arithmetic "%" x y = .ok r ∧
      r.toRat? = some (p - truncate (p / q) * q) ∧ |p - truncate (p / q) * q| < |q| := by
  intro x y r
  have hq : ((Magnitude.ofSmall 3 (by decide)).signed false : ℚ) / Double.unitsPerOne ≠ 0 :=
    div_ne_zero (by decide) Double.unitsPerOne_pos.ne'
  obtain ⟨hlt, r', hr, hr'⟩ := (remainder_exact x y).1 _ _ rfl rfl hq
  have hm : (Magnitude.ofShifted (2 ^ 52) 2045 (by decide) (by decide)).rem
      (.ofSmall 3 (by decide)) = .ofSmall 2 (by decide) := Magnitude.ext (by decide +kernel)
  have hok : arithmetic "%" x y = .ok r := congrArg (fun m => Except.ok (Double.finite true m)) hm
  obtain rfl : r = r' := Except.ok.inj (hok.symm.trans hr)
  exact ⟨_, _, rfl, rfl, hq, hok, ((hr' r).1 rfl).1, hlt⟩

end Ember
