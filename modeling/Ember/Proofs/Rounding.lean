import Ember.Decimal.Layout
import Ember.Proofs.Digits

/-!
Rounding of whole numbers. A whole number of units that a double has is kept as it is, and one that
is far from the limit stays finite; so the digits of an integral double denote that double.
-/

namespace Ember

set_option autoImplicit true

-- Powers are the ones of the core library, whichever other instances are in scope.
attribute [local instance (high)] instPowNat

theorem nearestQuotient_mul (q : Nat) {d : Nat} (hd : 0 < d) : nearestQuotient (q * d) d = q := by
  simp [nearestQuotient, Nat.mul_div_cancel q hd]
  omega

namespace Double

theorem nearestUnits_one (n : Nat) :
    nearestUnits n 1 = nearestQuotient n (spacing n) * spacing n := by
  simp only [nearestUnits, Nat.div_one, Nat.one_mul]

theorem nearestUnits_units (m : Magnitude) : nearestUnits m.units 1 = m.units := by
  obtain ⟨k, hk⟩ := m.spaced
  rw [Nat.mul_comm] at hk
  have hq : nearestQuotient m.units (spacing m.units) = k := by
    conv => lhs; arg 1; rw [hk]
    exact nearestQuotient_mul k (spacing_pos _)
  rw [nearestUnits_one, hq, ← hk]

theorem round_units (negative : Bool) (m : Magnitude) :
    round negative m.units 1 = .finite negative m := by
  have hn : nearestUnits m.units (max 1 1) = m.units := nearestUnits_units m
  have hl : nearestUnits m.units (max 1 1) < limit := by
    rw [hn]
    exact m.bounded
  rw [round, dif_pos hl]
  congr 1
  exact Magnitude.ext hn

theorem nearestUnits_le {n k : Nat} (h : n < 2 ^ k) : nearestUnits n 1 ≤ 2 ^ k := by
  have hs : spacing n ∣ 2 ^ k := by
    apply Nat.pow_dvd_pow
    by_cases hn : n = 0
    · simp [hn]
    · have hlog := (Nat.log2_lt hn).2 h
      omega
  obtain ⟨q, hq⟩ := hs
  have hle : nearestQuotient n (spacing n) ≤ q :=
    nearestQuotient_le (by rwa [Nat.mul_comm, ← hq])
  rw [nearestUnits_one, hq, Nat.mul_comm]
  exact Nat.mul_le_mul_left _ hle

theorem exists_round_eq (negative : Bool) {n k : Nat} (h : n < 2 ^ k) (hk : k < width) :
    ∃ m, round negative n 1 = .finite negative m := by
  have hl : nearestUnits n (max 1 1) < limit :=
    Nat.lt_of_le_of_lt (nearestUnits_le h) (Nat.pow_lt_pow_right (by decide) hk)
  exact ⟨_, dif_pos hl⟩

theorem exists_ofInt_eq {z : Int} {k : Nat} (h : z.natAbs < 2 ^ k) (hk : k + places < width) :
    ∃ m, ofInt z = .finite (decide (z < 0)) m := by
  refine exists_round_eq _ (k := k + places) ?_ hk
  rw [Nat.pow_add]
  exact Nat.mul_lt_mul_of_pos_right h (Nat.two_pow_pos _)

theorem lt_of_units {n : Nat} {m : Magnitude} (h : m.units = n * unitsPerOne) : n < 10 ^ (309 : Nat) := by
  have hbound : n * unitsPerOne < 2 ^ (width - places) * unitsPerOne := by
    rw [← h, unitsPerOne, ← Nat.pow_add, Nat.sub_add_cancel (by decide)]
    exact m.bounded
  calc n < 2 ^ (width - places) := Nat.lt_of_mul_lt_mul_right hbound
    _ < 10 ^ (309 : Nat) := by decide +kernel

theorem text_of_units {m : Magnitude} (h : m.units = n * unitsPerOne) :
    text (.finite false m) = String.ofList (Nat.toDigits 10 n) := by
  have hpos : 0 < unitsPerOne := Nat.two_pow_pos _
  have hint : toInt? (.finite false m) = some (n : Int) := by
    simp [toInt?, h, Nat.mul_div_cancel n hpos]
  unfold text
  simp only [hint, integerText]
  have hneg : decide ((n : Int) < 0) = false := by simp
  rw [hneg, Int.natAbs_natCast]
  rfl

theorem toDouble_of_units {m : Magnitude} (h : m.units = n * unitsPerOne) :
    Decimal.toDouble false ⟨n, 0⟩ = .finite false m := by
  unfold Decimal.toDouble
  by_cases hn : n = 0
  · subst hn
    rw [if_pos rfl]
    congr 1
    exact Magnitude.ext (by rw [h, Nat.zero_mul]; rfl)
  · have hcount : digitCount n ≤ 309 :=
      (Nat.length_toDigits_le_iff (by decide) (by decide)).2 (lt_of_units h)
    have horder : Decimal.order ⟨n, 0⟩ = digitCount n := by simp [Decimal.order]
    rw [if_neg hn, if_neg (by omega), if_neg (by omega)]
    simpa [← h] using round_units false m

end Double

namespace Numeral

/-- An integral number is shown by digits that denote it. -/
theorem value_text {m : Magnitude} (h : Double.unitsPerOne ∣ m.units) :
    IsDigits (Double.text (.finite false m)) ∧
      value (Double.text (.finite false m)) = .finite false m := by
  obtain ⟨n, hn⟩ := h
  rw [Nat.mul_comm] at hn
  have hd : IsDigits (String.ofList (Nat.toDigits 10 n)) := by
    rw [IsDigits, String.toList_ofList]
    exact ⟨Nat.toDigits_ne_nil, fun c hc => Nat.isDigit_of_mem_toDigits (by decide) (by decide) hc⟩
  rw [Double.text_of_units hn]
  refine ⟨hd, ?_⟩
  rw [value, read?_digits hd, String.toList_ofList, Nat.ofDigitChars_ten_toDigits,
    Double.toDouble_of_units hn, Option.getD_some]

end Numeral

end Ember
