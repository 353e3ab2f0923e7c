import Ember.Double.Arith
import Ember.Proofs.Rounding
import Mathlib

/-!
The double that a decimal denotes depends on the number alone, not on how many zeros its digits end
with. So the shortest decimal of a magnitude reads back as it.
-/

namespace Ember

set_option autoImplicit true

-- Powers are the ones of the core library, whichever other instances are in scope.
attribute [local instance (high)] instPowNat

theorem nearestQuotient_scale (n d : Nat) {c : Nat} (hc : 0 < c) :
    nearestQuotient (c * n) (c * d) = nearestQuotient n d := by
  have hr : 2 * (c * (n % d)) = c * (2 * (n % d)) := Nat.mul_left_comm _ _ _
  simp only [nearestQuotient, Nat.mul_div_mul_left n d hc, Nat.mul_mod_mul_left, hr,
    Nat.mul_lt_mul_left hc, Nat.mul_right_inj hc.ne']

namespace Double

theorem nearestUnits_scale (n d : Nat) {c : Nat} (hc : 0 < c) :
    nearestUnits (c * n) (c * d) = nearestUnits n d := by
  simp only [nearestUnits, Nat.mul_div_mul_left n d hc, Nat.mul_assoc c d,
    nearestQuotient_scale n _ hc]

theorem round_scale (s : Bool) (n : Nat) {c d : Nat} (hc : 0 < c) (hd : 0 < d) :
    round s (c * n) (c * d) = round s n d := by
  have hcd : max (c * d) 1 = c * max d 1 := by
    rw [Nat.max_eq_left hd, Nat.max_eq_left (Nat.mul_pos hc hd)]
  simp only [round, hcd, nearestUnits_scale n _ hc]

theorem round_congr (s : Bool) {n d n' d' : Nat} (hd : 0 < d) (hd' : 0 < d')
    (h : n * d' = n' * d) : round s n d = round s n' d' := by
  calc round s n d = round s (d' * n) (d' * d) := (round_scale s n hd' hd).symm
    _ = round s (d * n') (d * d') := by rw [Nat.mul_comm d' n, h, Nat.mul_comm n', Nat.mul_comm d']
    _ = round s n' d' := round_scale s n' hd hd'

theorem round_true (n d : Nat) : round true n d = neg (round false n d) := by
  unfold round
  split <;> rfl

end Double

theorem digitCount_le_iff {n k : Nat} (hk : 0 < k) : digitCount n ≤ k ↔ n < 10 ^ k :=
  Nat.length_toDigits_le_iff (by decide) hk

theorem digitCount_ten_mul {n : Nat} (hn : n ≠ 0) : digitCount (n * 10) = digitCount n + 1 := by
  rw [digitCount, Nat.toDigits_of_base_le (by decide) (by omega), Nat.mul_div_cancel n (by decide),
    List.length_append]
  rfl

theorem digitCount_shift {n : Nat} (hn : n ≠ 0) (k : Nat) :
    digitCount (n * 10 ^ k) = digitCount n + k := by
  induction k with
  | zero => simp
  | succ k ih =>
    have h : n * 10 ^ k ≠ 0 := Nat.mul_ne_zero hn (Nat.pow_pos (by decide)).ne'
    rw [Nat.pow_succ, ← Nat.mul_assoc, digitCount_ten_mul h, ih, Nat.add_assoc]

theorem pow_dvd_of_trailing (n : Nat) :
    10 ^ ((Nat.toDigits 10 n).reverse.takeWhile (· == '0')).length ∣ n := by
  generalize hk : ((Nat.toDigits 10 n).reverse.takeWhile (· == '0')).length = k
  have hzeros : (Nat.toDigits 10 n).reverse.takeWhile (· == '0') = List.replicate k '0' := by
    rw [← hk, List.eq_replicate_length]
    exact fun c hc => by simpa using List.mem_takeWhile_imp hc
  have hsplit := (Nat.toDigits 10 n).reverse.takeWhile_append_dropWhile (p := (· == '0'))
  rw [hzeros, ← List.reverse_inj, List.reverse_reverse, List.reverse_append,
    List.reverse_replicate] at hsplit
  have hvalue := Nat.ofDigitChars_ten_toDigits (n := n)
  rw [← hsplit, Nat.ofDigitChars_append, Nat.ofDigitChars_replicate_zero] at hvalue
  exact ⟨_, hvalue.symm⟩

namespace Decimal

/-- Zeros at the end of the digits make up for a lower exponent. -/
theorem toDouble_shift (s : Bool) (n k : Nat) (e : Int) :
    toDouble s ⟨n * 10 ^ k, e - k⟩ = toDouble s ⟨n, e⟩ := by
  have hten : 0 < 10 ^ k := Nat.pow_pos (by decide)
  by_cases hn : n = 0
  · simp [toDouble, hn]
  · have hnk : n * 10 ^ k ≠ 0 := Nat.mul_ne_zero hn hten.ne'
    have horder : order ⟨n * 10 ^ k, e - k⟩ = order ⟨n, e⟩ := by
      simp only [order, digitCount_shift hn]
      omega
    have hround : Double.round s (n * 10 ^ k * Double.unitsPerOne * 10 ^ (e - k).toNat)
        (10 ^ (-(e - k)).toNat) =
        Double.round s (n * Double.unitsPerOne * 10 ^ e.toNat) (10 ^ (-e).toNat) := by
      apply Double.round_congr s (Nat.pow_pos (by decide)) (Nat.pow_pos (by decide))
      have hpow : 10 ^ k * 10 ^ (e - k).toNat * 10 ^ (-e).toNat =
          10 ^ e.toNat * 10 ^ (-(e - k)).toNat := by
        rw [← Nat.pow_add, ← Nat.pow_add, ← Nat.pow_add]
        congr 1
        omega
      calc n * 10 ^ k * Double.unitsPerOne * 10 ^ (e - k).toNat * 10 ^ (-e).toNat
        _ = n * Double.unitsPerOne * (10 ^ k * 10 ^ (e - k).toNat * 10 ^ (-e).toNat) := by ring
        _ = n * Double.unitsPerOne * 10 ^ e.toNat * 10 ^ (-(e - k)).toNat := by rw [hpow]; ring
    simp only [toDouble, hn, hnk, horder, hround]

theorem toDouble_trim (s : Bool) (d : Decimal) : d.trim.toDouble s = d.toDouble s := by
  unfold trim
  split
  · rfl
  · generalize hk : ((Nat.toDigits 10 d.digits).reverse.takeWhile (· == '0')).length = k
    have hd : d.digits / 10 ^ k * 10 ^ k = d.digits :=
      Nat.div_mul_cancel (hk ▸ pow_dvd_of_trailing d.digits)
    have h := toDouble_shift s (d.digits / 10 ^ k) k (d.exponent + k)
    rw [hd, Int.add_sub_cancel] at h
    exact h.symm

theorem toDouble_true (d : Decimal) : d.toDouble true = (d.toDouble false).neg := by
  unfold toDouble
  split_ifs
  · rfl
  · rfl
  · rfl
  · exact Double.round_true _ _

end Decimal

namespace Magnitude

theorem toDouble_of_readsBack {m : Magnitude} {d : Decimal} (h : m.ReadsBack d) (s : Bool) :
    d.toDouble s = .finite s m := by
  cases s with
  | false => exact h
  | true => rw [Decimal.toDouble_true, show d.toDouble false = .finite false m from h]; rfl

/-- The digits of a magnitude that is not zero are so few that their order does not settle it. -/
theorem order_exactDecimal {m : Magnitude} (hm : m.units ≠ 0) :
    -323 ≤ m.exactDecimal.order ∧ m.exactDecimal.order ≤ 309 := by
  have hlow : 10 ^ 750 ≤ m.units * 5 ^ Double.places :=
    calc 10 ^ 750 ≤ 5 ^ Double.places := by decide +kernel
      _ ≤ m.units * 5 ^ Double.places := Nat.le_mul_of_pos_left _ (Nat.pos_of_ne_zero hm)
  have hhigh : m.units * 5 ^ Double.places < 10 ^ 1383 :=
    calc m.units * 5 ^ Double.places < Double.limit * 5 ^ Double.places :=
        Nat.mul_lt_mul_of_pos_right m.bounded (Nat.pow_pos (by decide))
      _ ≤ 10 ^ 1383 := by decide +kernel
  have hmore := mt (digitCount_le_iff (by decide)).1 (Nat.not_lt.2 hlow)
  have hless := (digitCount_le_iff (by decide)).2 hhigh
  clear hlow hhigh
  simp only [Decimal.order, exactDecimal]
  generalize digitCount (m.units * 5 ^ Double.places) = count at *
  rw [Double.places]
  omega

theorem readsBack_exactDecimal (m : Magnitude) : m.ReadsBack m.exactDecimal := by
  by_cases hm : m.units = 0
  · have hdigits : m.exactDecimal.digits = 0 := by rw [exactDecimal, hm, Nat.zero_mul]
    have hzero : Magnitude.zero = m := Magnitude.ext hm.symm
    rw [ReadsBack, Decimal.toDouble, if_pos hdigits, hzero]
  · obtain ⟨hlow, hhigh⟩ := order_exactDecimal hm
    have hdigits : m.exactDecimal.digits ≠ 0 :=
      Nat.mul_ne_zero hm (Nat.pow_pos (by decide)).ne'
    rw [ReadsBack, Decimal.toDouble, if_neg hdigits, if_neg (by omega), if_neg (by omega),
      ← Double.round_units false m]
    apply Double.round_congr false (Nat.pow_pos (by decide)) (by decide)
    have hten : 5 ^ Double.places * Double.unitsPerOne = 10 ^ Double.places := by
      rw [Double.unitsPerOne, ← Nat.mul_pow]
    calc m.units * 5 ^ Double.places * Double.unitsPerOne * 10 ^ 0 * 1
      _ = m.units * (5 ^ Double.places * Double.unitsPerOne) := by ring
      _ = m.units * 10 ^ Double.places := by rw [hten]

theorem readsBack_of_neighbour? {m : Magnitude} {e : Int} (h : m.neighbour? e = some d) :
    m.ReadsBack d := by
  have hd := List.find?_some (p := fun c => decide (m.ReadsBack c)) h
  exact of_decide_eq_true hd

theorem readsBack_shortest (m : Magnitude) : m.ReadsBack m.shortest := by
  rw [ReadsBack, shortest, Decimal.toDouble_trim]
  cases hf : (List.range 17).findSome? fun (k : Nat) => m.neighbour? (m.leadingExponent - k) with
  | none => exact m.readsBack_exactDecimal
  | some d =>
    obtain ⟨k, -, hk⟩ := List.exists_of_findSome?_eq_some hf
    exact readsBack_of_neighbour? hk

end Magnitude

end Ember
