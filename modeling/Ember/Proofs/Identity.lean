import Ember.Evaluation.Rules
import Ember.Native.Standard
import Ember.Node.Outline
import Ember.Proofs.Reading
import Ember.Proofs.Remainder

/-!
Numbers are known by their texts: two of them have one text if they are equal, or both the NaN, and
only then. So as keys of an object they name one slot.
-/

namespace Ember

set_option autoImplicit true

namespace Double

variable {x y : Double}

/-- Equality of numbers: the two zeros are equal, and the NaN is not even equal to itself. -/
def Equal : Double → Double → Prop
  | .infinite s, .infinite t => s = t
  | .finite s a, .finite t b => a.signed s = b.signed t
  | _, _ => False

def Same (x y : Double) : Prop := x.Equal y ∨ x = .nan ∧ y = .nan

@[simp] theorem unsignedZero_nan : unsignedZero .nan = .nan := rfl

@[simp] theorem unsignedZero_infinite (s : Bool) : unsignedZero (.infinite s) = .infinite s := rfl

@[simp] theorem unsignedZero_finite (s : Bool) (m : Magnitude) :
    unsignedZero (.finite s m) = .finite (s && m.units ≠ 0) m := by
  by_cases hm : m.units = 0
  · obtain rfl : m = .zero := Magnitude.ext hm
    cases s <;> rfl
  · simp [unsignedZero, isZero, hm]

theorem signed_eq_iff {s t : Bool} {a b : Magnitude} :
    a.signed s = b.signed t ↔ (s && a.units ≠ 0) = (t && b.units ≠ 0) ∧ a.units = b.units := by
  cases s <;> cases t <;> simp [Magnitude.signed] <;> omega

theorem same_iff : x.Same y ↔ x.unsignedZero = y.unsignedZero := by
  cases x with
  | nan => cases y <;> simp [Same, Equal]
  | infinite s => cases y <;> simp [Same, Equal]
  | finite s a =>
    cases y with
    | nan | infinite t => simp [Same, Equal]
    | finite t b =>
      rw [unsignedZero_finite, unsignedZero_finite, Double.finite.injEq, Magnitude.ext_iff,
        ← signed_eq_iff]
      simp [Same, Equal]

theorem unsignedZero_cases (x : Double) :
    x.unsignedZero = x ∨ x = .neg .zero ∧ x.unsignedZero = .zero := by
  unfold unsignedZero
  split
  · next h =>
    rcases isZero_iff.1 h with rfl | rfl
    · exact .inl rfl
    · exact .inr ⟨rfl, rfl⟩
  · exact .inl rfl

theorem text_unsignedZero (x : Double) : x.unsignedZero.text = x.text := by
  rcases x.unsignedZero_cases with h | ⟨rfl, h⟩
  · rw [h]
  · rw [h]
    decide +kernel

theorem toInt?_unsignedZero (x : Double) : x.unsignedZero.toInt? = x.toInt? := by
  rcases x.unsignedZero_cases with h | ⟨rfl, h⟩
  · rw [h]
  · rw [h]
    decide +kernel

theorem text_eq_iff : x.text = y.text ↔ x.Same y := by
  rw [same_iff]
  constructor
  · intro h
    have hx := x.read?_text
    rw [h, y.read?_text] at hx
    exact (Option.some.inj hx).symm
  · intro h
    rw [← x.text_unsignedZero, h, y.text_unsignedZero]

end Double

theorem Node.eval_index {owner key : Node} {entries : Ordered Value} {x : Double}
    (ho : owner.eval host scope depth (0 :: path) w = .ok (.object entries) w₁)
    (hk : key.eval host scope depth (1 :: path) w₁ = .ok (.number x) w₂) :
    (Node.member owner key true).eval host scope (depth + 1) path w =
      match entries.get? x.text with
      | some value => .ok value w₂
      | none => .error (.fault (.missingKey x.text) (some .member)) w₂ := by
  simp only [eval, Eval.located, Eval.node, Eval.memberKey, Eval.keyOf, bind, EStateM.bind, pure,
    EStateM.pure, ho, hk, if_true]
  cases entries.get? x.text <;> rfl

/-- The key that a number stands for, its display and its leaf in an outline are one text, and two
numbers have it in common if they are equal or both the NaN, and only then: the zeros share theirs,
and an integer shares it with nothing that is none. So by two numbers one slot of any object is read
if they are the same, and only then. -/
theorem number_identified (x y : Double) :
    (x.text = y.text ↔ x.Equal y ∨ x = .nan ∧ y = .nan) ∧
    (x.isZero → y.isZero → x.text = y.text) ∧
    (x.toInt?.isSome → y.toInt? = none → x.text ≠ y.text) ∧
    (∀ depth w, Eval.keyOf depth (.number x) w = .ok (Value.number x).display w) ∧
    (Node.number x).outline =
      .branch "NumericLiteral" [.plain "value" (Value.number x).display] ∧
    (∀ host scope depth path (owner key : Node) w w₁ w₂ (entries : Ordered Value),
      owner.eval host scope depth (0 :: path) w = .ok (.object entries) w₁ →
      key.eval host scope depth (1 :: path) w₁ = .ok (.number x) w₂ →
        (Node.member owner key true).eval host scope (depth + 1) path w =
          match entries.get? x.text with
          | some value => .ok value w₂
          | none => .error (.fault (.missingKey x.text) (some .member)) w₂) ∧
    ((∀ entries : Ordered Value, entries.get? x.text = entries.get? y.text) ↔
      x.Equal y ∨ x = .nan ∧ y = .nan) := by
  have htext : x.text = y.text ↔ x.Equal y ∨ x = .nan ∧ y = .nan := Double.text_eq_iff
  refine ⟨htext, ?_, ?_, fun _ _ => rfl, rfl, fun _ _ _ _ _ _ _ _ _ _ => Node.eval_index, ?_⟩
  · intro hx hy
    rw [Double.text_eq_iff, Double.same_iff, Double.unsignedZero, Double.unsignedZero, if_pos hx,
      if_pos hy]
  · intro hx hy h
    have hint := congrArg Double.toInt? (Double.same_iff.1 (Double.text_eq_iff.1 h))
    rw [Double.toInt?_unsignedZero, Double.toInt?_unsignedZero, hy] at hint
    rw [hint] at hx
    cases hx
  · rw [← htext]
    constructor
    · intro h
      have hslot := h (Ordered.insert [] x.text .null)
      rw [Ordered.get?_insert_self] at hslot
      by_contra hne
      rw [Ordered.get?_insert_of_ne _ _ (Ne.symm hne)] at hslot
      cases hslot
    · intro h entries
      rw [h]

/-- The negative zero reads the slot whose key is the digit, and the NaN has another key. -/
theorem number_identified_zero :
    let w := World.ofForest .empty
    let owner := Node.object [.property "0" (some (.string "a"))]
    let key := Node.number (.neg .zero)
    owner.eval (.standard 0) 0 2 [0] w = .ok (.object [("0", .string "a")]) w ∧
      key.eval (.standard 0) 0 2 [1] w = .ok (.number (.neg .zero)) w ∧
      (Double.neg .zero).text = "0" ∧ (Double.neg .zero).text ≠ Double.nan.text ∧
      (Node.member owner key true).eval (.standard 0) 0 3 [] w = .ok (.string "a") w := by
  intro w owner key
  have ho : owner.eval (.standard 0) 0 2 [0] w = .ok (.object [("0", .string "a")]) w := rfl
  have hk : key.eval (.standard 0) 0 2 [1] w = .ok (.number (.neg .zero)) w := rfl
  obtain ⟨-, hzeros, -, -, -, hread, -⟩ := number_identified (.neg .zero) .zero
  have htext : (Double.neg .zero).text = "0" := (hzeros rfl rfl).trans (by decide +kernel)
  have hnan := (number_identified (.neg .zero) .nan).2.2.1 (by decide +kernel) rfl
  refine ⟨ho, hk, htext, hnan, ?_⟩
  rw [hread _ _ _ _ _ _ _ _ _ _ ho hk, htext]
  rfl

end Ember
