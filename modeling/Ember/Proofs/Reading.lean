import Ember.Proofs.Scaling

/-!
The text of a number reads back. Whichever way its digits are laid out, they are read as a decimal
that denotes the number; only the sign of a zero is not in its text.
-/

namespace Ember

set_option autoImplicit true

namespace Numeral

variable {whole fraction rest : List Char}

theorem takeFraction_point (hf : ∀ c ∈ fraction, c.isDigit) (hr : ∀ c ∈ rest.head?, ¬c.isDigit) :
    takeFraction ('.' :: (fraction ++ rest)) = (fraction, rest) := by
  have ht : rest.takeWhile Char.isDigit = [] ∧ rest.dropWhile Char.isDigit = rest := by
    cases rest with
    | nil => simp
    | cons c rest => simp [hr c rfl]
  rw [takeFraction, List.takeWhile_append_of_pos hf, List.dropWhile_append_of_pos hf, ht.1, ht.2,
    List.append_nil]

theorem decimal?_point (whole fraction rest : List Char) (hn : whole ≠ [])
    (hw : ∀ c ∈ whole, c.isDigit) (hf : ∀ c ∈ fraction, c.isDigit)
    (hr : ∀ c ∈ rest.head?, ¬c.isDigit) :
    decimal? (whole ++ '.' :: (fraction ++ rest)) = (exponent? rest).map fun e =>
      ⟨Nat.ofDigitChars 10 (whole ++ fraction) 0, e - fraction.length⟩ := by
  have ht : (whole ++ '.' :: (fraction ++ rest)).takeWhile Char.isDigit = whole := by
    rw [List.takeWhile_append_of_pos hw]
    simp
  have hd : (whole ++ '.' :: (fraction ++ rest)).dropWhile Char.isDigit =
      '.' :: (fraction ++ rest) := by
    rw [List.dropWhile_append_of_pos hw]
    simp
  simp [decimal?, ht, hd, takeFraction_point hf hr, hn]

theorem decimal?_exponent (whole rest : List Char) (hn : whole ≠ [])
    (hw : ∀ c ∈ whole, c.isDigit) :
    decimal? (whole ++ 'e' :: rest) = (exponent? ('e' :: rest)).map fun e =>
      ⟨Nat.ofDigitChars 10 whole 0, e⟩ := by
  have ht : (whole ++ 'e' :: rest).takeWhile Char.isDigit = whole := by
    rw [List.takeWhile_append_of_pos hw]
    simp
  have hd : (whole ++ 'e' :: rest).dropWhile Char.isDigit = 'e' :: rest := by
    rw [List.dropWhile_append_of_pos hw]
    simp
  simp [decimal?, ht, hd, takeFraction, hn]

theorem ofDigitChars_zeros (k : Nat) (cs : List Char) :
    Nat.ofDigitChars 10 (List.replicate k '0' ++ cs) 0 = Nat.ofDigitChars 10 cs 0 := by
  rw [Nat.ofDigitChars_append, Nat.ofDigitChars_replicate_zero, Nat.mul_zero]

theorem isDigit_toDigits (n : Nat) : ∀ c ∈ Nat.toDigits 10 n, c.isDigit :=
  fun _ hc => Nat.isDigit_of_mem_toDigits (by decide) (by decide) hc

theorem isDigit_replicate (k : Nat) : ∀ c ∈ List.replicate k '0', c.isDigit :=
  fun _ hc => List.eq_of_mem_replicate hc ▸ rfl

theorem isDigit_append {cs cs' : List Char} (h : ∀ c ∈ cs, c.isDigit) (h' : ∀ c ∈ cs', c.isDigit) :
    ∀ c ∈ cs ++ cs', c.isDigit :=
  List.forall_mem_append.2 ⟨h, h'⟩

theorem exponent?_exponentText (e : Int) : exponent? ('e' :: Decimal.exponentText e) = some e := by
  let digits := List.replicate (2 - (Nat.toDigits 10 e.natAbs).length) '0' ++
    Nat.toDigits 10 e.natAbs
  have hd : digits.all Char.isDigit :=
    List.all_eq_true.2 (isDigit_append (isDigit_replicate _) (isDigit_toDigits _))
  have hn : digits.isEmpty = false := by simp [digits, Nat.toDigits_ne_nil]
  have hvalue : Nat.ofDigitChars 10 digits 0 = e.natAbs := by
    rw [ofDigitChars_zeros, Nat.ofDigitChars_ten_toDigits]
  have hsign : takeSign (Decimal.exponentText e) = (decide (e < 0), digits) := by
    unfold Decimal.exponentText
    by_cases he : e < 0 <;> simp [takeSign, he, digits]
  rw [exponent?, if_pos (.inl rfl), hsign]
  simp only [hn, hd, hvalue]
  rcases lt_or_ge e 0 with he | he
  · simp [he, abs_of_neg he]
  · simp [not_lt.2 he, abs_of_nonneg he]

end Numeral

namespace Decimal

open Numeral

variable {d : Decimal}

theorem ofDigitChars_toDigits (d : Decimal) :
    Nat.ofDigitChars 10 (Nat.toDigits 10 d.digits) 0 = d.digits :=
  Nat.ofDigitChars_ten_toDigits

theorem order_eq (d : Decimal) :
    d.order = (Nat.toDigits 10 d.digits).length + d.exponent := rfl

theorem mk_digits (h : e = d.exponent) : (⟨d.digits, e⟩ : Decimal) = d :=
  h ▸ rfl

theorem decimal?_below (h : d.order ≤ 0) :
    decimal? ('0' :: '.' :: (List.replicate (-d.order).toNat '0' ++ Nat.toDigits 10 d.digits)) =
      some d := by
  have hf := isDigit_append (isDigit_replicate (-d.order).toNat) (isDigit_toDigits d.digits)
  have hread := decimal?_point ['0'] _ [] (by simp) (by simp) hf (by simp)
  have hvalue : Nat.ofDigitChars 10
      (['0'] ++ (List.replicate (-d.order).toNat '0' ++ Nat.toDigits 10 d.digits)) 0 =
        d.digits := by
    rw [← List.replicate_one, ofDigitChars_zeros, ofDigitChars_zeros, ofDigitChars_toDigits]
  rw [hvalue, List.append_nil, List.length_append, List.length_replicate] at hread
  have ho := d.order_eq
  refine hread.trans (congrArg some (mk_digits ?_))
  push_cast
  omega

theorem decimal?_between (h : 0 < d.order) (he : d.exponent < 0) :
    decimal? ((Nat.toDigits 10 d.digits).take d.order.toNat ++
      '.' :: (Nat.toDigits 10 d.digits).drop d.order.toNat) = some d := by
  have hd := isDigit_toDigits d.digits
  have ho := d.order_eq
  have hread := decimal?_point ((Nat.toDigits 10 d.digits).take d.order.toNat)
    ((Nat.toDigits 10 d.digits).drop d.order.toNat) []
    (by simp [Nat.toDigits_ne_nil]; omega) (fun c hc => hd c (List.mem_of_mem_take hc))
    (fun c hc => hd c (List.mem_of_mem_drop hc)) (by simp)
  rw [List.take_append_drop, ofDigitChars_toDigits, List.append_nil, List.length_drop] at hread
  refine hread.trans (congrArg some (mk_digits ?_))
  omega

/-- Digits that end in zeros, with a zero after the point, are the same number. -/
theorem decimal?_above (he : 0 ≤ d.exponent) :
    ∃ d', decimal? (Nat.toDigits 10 d.digits ++ List.replicate d.exponent.toNat '0' ++ ['.', '0']) =
      some d' ∧ ∀ s, d'.toDouble s = d.toDouble s := by
  have hw := isDigit_append (isDigit_toDigits d.digits) (isDigit_replicate d.exponent.toNat)
  have hread := decimal?_point _ ['0'] [] (by simp [Nat.toDigits_ne_nil]) hw (by simp)
    (by simp)
  have hvalue : Nat.ofDigitChars 10
      (Nat.toDigits 10 d.digits ++ List.replicate d.exponent.toNat '0' ++ ['0']) 0 =
        d.digits * 10 ^ (d.exponent.toNat + 1) := by
    rw [List.append_assoc, ← List.replicate_succ', Nat.ofDigitChars_append,
      ofDigitChars_toDigits, Nat.ofDigitChars_replicate_zero, Nat.mul_comm]
  rw [hvalue] at hread
  refine ⟨⟨d.digits * 10 ^ (d.exponent.toNat + 1), d.exponent - (d.exponent.toNat + 1 : Nat)⟩,
    hread.trans ?_, fun s => toDouble_shift s d.digits _ d.exponent⟩
  simp [exponent?]
  omega

theorem decimal?_scientific (d : Decimal) :
    decimal? ((Nat.toDigits 10 d.digits).take 1 ++
      (if ((Nat.toDigits 10 d.digits).drop 1).isEmpty then []
        else '.' :: (Nat.toDigits 10 d.digits).drop 1) ++
      'e' :: exponentText (d.order - 1)) = some d := by
  have hd := isDigit_toDigits d.digits
  have ho := d.order_eq
  have hvalue := d.ofDigitChars_toDigits
  obtain ⟨c, cs, hcs⟩ := List.exists_cons_of_ne_nil (Nat.toDigits_ne_nil (b := 10) (n := d.digits))
  rw [hcs] at hd ho hvalue ⊢
  obtain ⟨hc, hf⟩ := List.forall_mem_cons.1 hd
  have hexponent := exponent?_exponentText (d.order - 1)
  rw [List.length_cons] at ho
  simp only [List.take_succ_cons, List.take_zero, List.drop_succ_cons, List.drop_zero]
  cases cs with
  | nil =>
    have hread := decimal?_exponent [c] (exponentText (d.order - 1)) (by simp)
      (by simpa using hc)
    rw [hexponent, hvalue] at hread
    refine hread.trans (congrArg some (mk_digits ?_))
    simp only [List.length_nil] at ho
    omega
  | cons c' cs =>
    have hread := decimal?_point [c] _ ('e' :: exponentText (d.order - 1)) (by simp)
      (by simpa using hc) hf (by simp)
    rw [hexponent, List.singleton_append, List.singleton_append, hvalue] at hread
    refine Eq.trans (congrArg decimal? (by simp)) (hread.trans (congrArg some (mk_digits ?_)))
    omega

theorem decimal?_layout (d : Decimal) :
    ∃ d', decimal? d.layout = some d' ∧ ∀ s, d'.toDouble s = d.toDouble s := by
  unfold layout
  dsimp only
  split
  · split
    · exact ⟨d, decimal?_below (by omega), fun _ => rfl⟩
    · split
      · exact ⟨d, decimal?_between (by omega) (by assumption), fun _ => rfl⟩
      · exact decimal?_above (by omega)
  · exact ⟨d, d.decimal?_scientific, fun _ => rfl⟩

theorem isPlain_toDigits (n : Nat) : ∀ c ∈ Nat.toDigits 10 n, IsPlain c :=
  fun c hc => isPlain_of_digit (isDigit_toDigits n c hc)

theorem isPlain_zeros (k : Nat) : ∀ c ∈ List.replicate k '0', IsPlain c :=
  fun c hc => isPlain_of_digit (isDigit_replicate k c hc)

theorem isPlain_exponentText (e : Int) : ∀ c ∈ exponentText e, IsPlain c := by
  unfold exponentText
  rw [List.forall_mem_cons, List.forall_mem_append]
  refine ⟨?_, isPlain_zeros _, isPlain_toDigits _⟩
  split <;> decide

theorem isPlain_layout (d : Decimal) : ∀ c ∈ d.layout, IsPlain c := by
  have hd := isPlain_toDigits d.digits
  have ht (k : Nat) : ∀ c ∈ (Nat.toDigits 10 d.digits).take k, IsPlain c :=
    fun c hc => hd c (List.mem_of_mem_take hc)
  have hf (k : Nat) : ∀ c ∈ (Nat.toDigits 10 d.digits).drop k, IsPlain c :=
    fun c hc => hd c (List.mem_of_mem_drop hc)
  have hp : IsPlain '.' := by decide
  have h0 : IsPlain '0' := by decide
  unfold layout
  dsimp only
  split
  · split
    · simp only [List.forall_mem_cons, List.forall_mem_append]
      exact ⟨h0, hp, isPlain_zeros _, hd⟩
    · split
      · simp only [List.forall_mem_cons, List.forall_mem_append]
        exact ⟨ht _, hp, hf _⟩
      · simp only [List.forall_mem_cons, List.forall_mem_append]
        exact ⟨⟨hd, isPlain_zeros _⟩, hp, h0, List.forall_mem_nil _⟩
  · simp only [List.forall_mem_cons, List.forall_mem_append]
    refine ⟨⟨ht 1, ?_⟩, by decide, isPlain_exponentText _⟩
    split
    · exact List.forall_mem_nil _
    · exact List.forall_mem_cons.2 ⟨hp, hf 1⟩

end Decimal

namespace Numeral

theorem plain?_negative (h : decimal? cs = some d) :
    plain? ('-' :: cs) = some (d.toDouble true) := by
  simp only [plain?, takeSign, h]

theorem plain?_positive (h : decimal? cs = some d) : plain? cs = some (d.toDouble false) := by
  have hsign : takeSign cs = (false, cs) := by
    unfold takeSign
    split
    · simp [decimal?, takeFraction] at h
    · simp [decimal?, takeFraction] at h
    · rfl
  simp only [plain?, hsign, h]

end Numeral

namespace Double

open Numeral

/-- The same number without the sign of a zero. -/
def unsignedZero (x : Double) : Double := if x.isZero then .zero else x

theorem toList_integerText (s : Bool) (n : Nat) :
    integerText (if s then -(n : Int) else n) =
      if s = true ∧ n ≠ 0 then '-' :: Nat.toDigits 10 n else Nat.toDigits 10 n := by
  cases s with
  | false =>
    have h : decide ((n : Int) < 0) = false := by simp
    simp only [integerText, Bool.false_eq_true, if_false, h, false_and, Int.natAbs_natCast]
    rfl
  | true =>
    have h : decide (-(n : Int) < 0) = decide (n ≠ 0) := decide_eq_decide.2 (by omega)
    simp only [integerText, if_true, h, true_and, Int.natAbs_neg, Int.natAbs_natCast]
    by_cases hn : n ≠ 0
    · rw [if_pos hn, decide_eq_true hn]
      rfl
    · rw [if_neg hn, decide_eq_false hn]
      rfl

/-- The text of a finite number is that of a decimal that denotes its magnitude, after a sign if the
number is negative. -/
theorem exists_decimal_text (s : Bool) (m : Magnitude) :
    ∃ cs d, (text (.finite s m)).toList = (if s = true ∧ m.units ≠ 0 then '-' :: cs else cs) ∧
      (∀ c ∈ cs, IsPlain c) ∧ decimal? cs = some d ∧ m.ReadsBack d := by
  by_cases hm : m.units % unitsPerOne = 0
  · have hn : m.units = m.units / unitsPerOne * unitsPerOne :=
      (Nat.div_mul_cancel (Nat.dvd_of_mod_eq_zero hm)).symm
    have hint : toInt? (.finite s m) = some
        (if s then -((m.units / unitsPerOne : Nat) : Int) else (m.units / unitsPerOne : Nat)) :=
      if_pos hm
    have hzero : m.units / unitsPerOne ≠ 0 ↔ m.units ≠ 0 := by
      have hpos : unitsPerOne ≠ 0 := (Nat.two_pow_pos _).ne'
      conv => rhs; rw [hn, Nat.mul_ne_zero_iff]
      exact (and_iff_left hpos).symm
    have hread := decimal?_digits Nat.toDigits_ne_nil (isDigit_toDigits (m.units / unitsPerOne))
    rw [Nat.ofDigitChars_ten_toDigits] at hread
    refine ⟨_, _, ?_, Decimal.isPlain_toDigits _, hread, toDouble_of_units hn⟩
    unfold text
    simp only [hint, String.toList_ofList, toList_integerText, hzero]
  · have hint : toInt? (.finite s m) = none := if_neg hm
    have hzero : m.units ≠ 0 := fun h => hm (by rw [h, Nat.zero_mod])
    obtain ⟨d, hread, hd⟩ := m.shortest.decimal?_layout
    refine ⟨_, d, ?_, m.shortest.isPlain_layout, hread, (hd false).trans m.readsBack_shortest⟩
    unfold text
    simp only [hint, String.toList_ofList]
    change (if s = true then '-' :: m.shortest.layout else m.shortest.layout) = _
    simp only [hzero, ne_eq, not_false_eq_true, and_true]

theorem isPlain_text (x : Double) : ∀ c ∈ x.text.toList, IsPlain c := by
  have hletters : ∀ c ∈ ['-', 'i', 'n', 'f', 'a'], IsPlain c := by
    simp only [List.forall_mem_cons]
    exact ⟨by decide, by decide, by decide, by decide, by decide, List.forall_mem_nil _⟩
  have hwords (cs : List Char) (h : cs ⊆ ['-', 'i', 'n', 'f', 'a']) :
      ∀ c ∈ (String.ofList cs).toList, IsPlain c := by
    rw [String.toList_ofList]
    exact fun c hc => hletters c (h hc)
  cases x with
  | nan => exact hwords ['n', 'a', 'n'] (by decide)
  | infinite s =>
    cases s with
    | false => exact hwords ['i', 'n', 'f'] (by decide)
    | true => exact hwords ['-', 'i', 'n', 'f'] (by decide)
  | finite s m =>
    obtain ⟨cs, d, htext, hcs, -⟩ := exists_decimal_text s m
    rw [htext]
    split
    · exact List.forall_mem_cons.2 ⟨by decide, hcs⟩
    · exact hcs

/-- The text of a number denotes it, but for the sign of a zero. -/
theorem read?_text (x : Double) : read? x.text = some x.unsignedZero := by
  rw [read?_plain x.isPlain_text]
  cases x with
  | nan => rfl
  | infinite s => cases s <;> rfl
  | finite s m =>
    obtain ⟨cs, d, htext, -, hread, hd⟩ := exists_decimal_text s m
    rw [htext]
    split
    · next h =>
      rw [plain?_negative hread, Magnitude.toDouble_of_readsBack hd, unsignedZero]
      simp [isZero, h]
    · next h =>
      rw [plain?_positive hread, Magnitude.toDouble_of_readsBack hd, unsignedZero]
      by_cases hm : m.units = 0
      · have hzero : m = .zero := Magnitude.ext hm
        rw [if_pos (show isZero (.finite s m) = true from beq_of_eq hm), zero, hzero]
      · cases s with
        | false => rw [if_neg (by simpa [isZero] using hm)]
        | true => exact absurd ⟨rfl, hm⟩ h

end Double

end Ember
