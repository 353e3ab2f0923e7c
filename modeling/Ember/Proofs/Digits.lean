import Ember.Decimal.Numeral
import Mathlib.Data.List.TakeWhile

/-!
Numerals that are runs of digits: they all denote a number, the one nearest to their value.
-/

namespace Ember.Numeral

set_option autoImplicit true

def IsDigits (text : String) : Prop := text.toList ≠ [] ∧ ∀ c ∈ text.toList, c.isDigit

def value (text : String) : Double := (read? text).getD .nan

variable {cs : List Char}

theorem toNat_of_digit {c : Char} (h : c.isDigit) : 48 ≤ c.toNat ∧ c.toNat ≤ 57 := by
  simp only [Char.isDigit, Bool.and_eq_true, decide_eq_true_eq, UInt32.le_iff_toNat_le] at h
  exact h

theorem isPadding_of_digit {c : Char} (h : c.isDigit) : isPadding c = false := by
  have hn := toNat_of_digit h
  have hs : c ≠ ' ' := by
    rintro rfl
    exact absurd h (by decide)
  simp only [isPadding, Bool.or_eq_false_iff, beq_eq_false_iff_ne, Bool.and_eq_false_iff,
    decide_eq_false_iff_not]
  exact ⟨hs, .inr (by omega)⟩

/-- Characters that a numeral keeps as they are: ASCII, and neither padding nor an underscore. -/
def IsPlain (c : Char) : Prop := c.toNat < 0x80 ∧ isPadding c = false ∧ c ≠ '_'

instance : DecidablePred IsPlain := fun _ => inferInstanceAs (Decidable (_ ∧ _))

theorem isPlain_of_digit {c : Char} (h : c.isDigit) : IsPlain c := by
  refine ⟨?_, isPadding_of_digit h, ?_⟩
  · have hn := toNat_of_digit h
    omega
  · rintro rfl
    exact absurd h (by decide)

theorem mapM_normalize?_plain (h : ∀ c ∈ cs, IsPlain c) : cs.mapM normalize? = some cs := by
  induction cs with
  | nil => rfl
  | cons c cs ih =>
    have hc : normalize? c = some c := if_pos (h c (by simp)).1
    have hcs := ih fun d hd => h d (by simp [hd])
    simp [hc, hcs]

theorem dropWhile_isPadding_plain (h : ∀ c ∈ cs, IsPlain c) : cs.dropWhile isPadding = cs := by
  cases cs with
  | nil => rfl
  | cons c cs => simp [(h c (by simp)).2.1]

theorem trimBy_isPadding_plain (h : ∀ c ∈ cs, IsPlain c) : Text.trimBy isPadding cs = cs := by
  rw [Text.trimBy, dropWhile_isPadding_plain h, dropWhile_isPadding_plain (by simpa using h),
    List.reverse_reverse]

theorem dropUnderscores_plain (h : ∀ c ∈ cs, IsPlain c) (hp : previous ≠ '_') :
    dropUnderscores previous cs = some cs := by
  induction cs generalizing previous with
  | nil => simp [dropUnderscores, hp]
  | cons c cs ih =>
    have hc : c ≠ '_' := (h c (by simp)).2.2
    have hcs := ih (fun d hd => h d (by simp [hd])) hc
    simp [dropUnderscores, hc, hp, hcs]

theorem read?_plain (h : ∀ c ∈ text.toList, IsPlain c) : read? text = plain? text.toList := by
  rw [read?, mapM_normalize?_plain h, Option.bind_eq_bind, Option.bind_some,
    trimBy_isPadding_plain h, dropUnderscores_plain h (by decide), Option.bind_some]

theorem takeSign_digits (h : ∀ c ∈ cs, c.isDigit) : takeSign cs = (false, cs) := by
  unfold takeSign
  split
  · exact absurd (h '-' (by simp)) (by decide)
  · exact absurd (h '+' (by simp)) (by decide)
  · rfl

theorem decimal?_digits (hn : cs ≠ []) (h : ∀ c ∈ cs, c.isDigit) :
    decimal? cs = some ⟨Nat.ofDigitChars 10 cs 0, 0⟩ := by
  have ht : cs.takeWhile Char.isDigit = cs := List.takeWhile_eq_self_iff.2 h
  have hd : cs.dropWhile Char.isDigit = [] := List.dropWhile_eq_nil_iff.2 h
  simp [decimal?, ht, hd, takeFraction, exponent?, hn]

theorem read?_digits (h : IsDigits text) :
    read? text = some (Decimal.toDouble false ⟨Nat.ofDigitChars 10 text.toList 0, 0⟩) := by
  obtain ⟨hn, hd⟩ := h
  rw [read?_plain fun c hc => isPlain_of_digit (hd c hc), plain?, takeSign_digits hd]
  simp [decimal?_digits hn hd]

theorem read?_eq_value (h : IsDigits text) : read? text = some (value text) := by
  rw [value, read?_digits h, Option.getD_some]

end Ember.Numeral
