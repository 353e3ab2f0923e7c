import Ember.Proofs.Literals

/-!
What is shown of a program that was run. Programs that were parsed have outlines, so that nothing but
nesting keeps their trees and values from being shown.
-/

namespace Ember

set_option autoImplicit true

namespace Node

theorem haveOutlines_of {nodes : List Node} (h : ∀ n ∈ nodes, n.hasOutline) :
    haveOutlines nodes := by
  induction nodes with
  | nil => rfl
  | cons n nodes ih =>
    obtain ⟨hn, hnodes⟩ := List.forall_mem_cons.1 h
    simp [haveOutlines, hn, ih hnodes]

theorem WellFormed.hasOutline {n : Node} (h : n.WellFormed role) : n.hasOutline := by
  induction h with
  | program _ ih | function _ _ _ ih | object _ ih => exact haveOutlines_of ih
  | uninitialized | identifier | number | string | shorthand => rfl
  | initialized _ _ ih | keyed _ _ ih => simp [Node.hasOutline, ih]
  | evaluated _ ih => exact ih
  | assignment _ _ ih ih' | binary _ _ _ ih ih' | computed _ _ ih ih' =>
    simp [Node.hasOutline, ih, ih']
  | named _ _ ih => simp [Node.hasOutline, ih]
  | call _ _ ihc iha => simp [Node.hasOutline, ihc, haveOutlines_of iha]

theorem dump_of_hasOutline {n : Node} (h : n.hasOutline) (depth : Nat) :
    n.dump depth =
      if n.outline.nesting ≤ depth then .ok n.outlineText else .error .tooDeep := by
  rw [dump, checkedOutline, if_pos h]
  rfl

theorem dump_eq_ok_iff {n : Node} (h : n.hasOutline) :
    n.dump depth = .ok text ↔ n.outline.nesting ≤ depth ∧ n.outlineText = text := by
  rw [dump_of_hasOutline h]
  split <;> simp_all

end Node

namespace Interpreter

variable {i : Interpreter} {program : Node} {value : Value}

theorem outline_of_parse (hp : i.parse source = .ok program) :
    i.outline program =
      if program.outline.nesting ≤ i.outlineDepth then .ok program.outlineText
      else .error (.outline .tooDeep) := by
  obtain ⟨hw, -⟩ := Grammar.parseSource_eq_ok .chosen hp
  rw [outline, Node.dump_of_hasOutline hw.hasOutline]
  split <;> rfl

theorem outline_eq_error (hp : i.parse source = .ok program) (h : i.outline program = .error e) :
    e = .outline .tooDeep := by
  rw [outline_of_parse hp] at h
  split at h
  · cases h
  · exact (Except.error.inj h).symm

theorem display_eq_error (h : i.display value = .error e) : e = .display := by
  unfold display at h
  split at h
  · cases h
  · exact (Except.error.inj h).symm

theorem present_eq_error (hp : i.parse source = .ok program)
    (h : i.present showTree program value = .error e) :
    e = .outline .tooDeep ∨ e = .display := by
  have hdisplay {tree : String} (h : (i.display value >>= fun shown => pure (tree ++ shown)) =
      .error e) : e = .display := by
    cases hd : i.display value with
    | ok shown => rw [hd] at h; cases h
    | error e' => rw [hd] at h; cases h; exact display_eq_error hd
  cases showTree with
  | false => exact .inr (hdisplay h)
  | true =>
    cases ho : i.outline program with
    | ok tree =>
      simp only [present, if_true, ho] at h
      exact .inr (hdisplay h)
    | error e' =>
      simp only [present, if_true, ho] at h
      cases h
      exact .inl (outline_eq_error hp ho)

theorem display_of_present (h : i.present showTree program value = .ok shown) :
    ∃ text, i.display value = .ok text := by
  cases hd : i.display value with
  | ok text => exact ⟨text, rfl⟩
  | error e =>
    unfold present at h
    split at h
    · cases ho : i.outline program with
      | ok tree => rw [ho, hd] at h; cases h
      | error e' => rw [ho] at h; cases h
    · rw [hd] at h
      cases h

/-- To show the tree as well, or no longer, can only fail for the tree. -/
theorem present_of_present (hp : i.parse source = .ok program)
    (h : i.present showTree program value = .ok shown) (flag : Bool) :
    (∃ shown, i.present flag program value = .ok shown) ∨
      i.present flag program value = .error (.outline .tooDeep) := by
  obtain ⟨text, hd⟩ := display_of_present h
  cases flag with
  | false =>
    simp only [present, hd]
    exact .inl ⟨_, rfl⟩
  | true =>
    cases ho : i.outline program with
    | ok tree =>
      simp only [present, ho, hd]
      exact .inl ⟨_, rfl⟩
    | error e =>
      obtain rfl := outline_eq_error hp ho
      simp only [present, ho]
      exact .inr rfl

end Interpreter

namespace Value

theorem part_literal (label : String) (value : Value) (outline : Outline) :
    Outline.part label value.literal outline = [.branch label [outline]] := by
  cases value <;> rfl

theorem slotsNesting_le {slots : List (String × Value)}
    (h : ∀ e ∈ slots, 4 * e.2.nesting ≤ e.2.literal.outline.nesting + 2) :
    4 * slotsNesting slots ≤ Outline.childrenNesting (Node.outlines (properties slots)) := by
  induction slots with
  | nil => exact Nat.zero_le _
  | cons entry rest ih =>
    obtain ⟨key, value⟩ := entry
    have hvalue : 4 * value.nesting ≤ value.literal.outline.nesting + 2 := h _ List.mem_cons_self
    have hrest := ih fun e he => h e (List.mem_cons_of_mem _ he)
    simp only [slotsNesting, properties, Node.outlines, Outline.item, Node.outline,
      part_literal, Outline.childrenNesting, Outline.nesting, Outline.plain]
    omega

theorem Readable.nesting_literal {v : Value} (h : v.Readable) :
    4 * v.nesting ≤ v.literal.outline.nesting + 2 := by
  induction h with
  | null | boolean | number | string => exact Nat.zero_le _
  | object _ _ _ ih =>
    have hslots := slotsNesting_le ih
    simp only [nesting, literal, Node.outline, Outline.nesting, Outline.childrenNesting]
    omega

theorem Readable.nesting_program {v : Value} (h : v.Readable) :
    4 * v.nesting ≤ (Node.program [v.literal]).outline.nesting := by
  have hitem : Outline.item v.literal v.literal.outline = v.literal.outline := by
    cases v <;> rfl
  have hn := h.nesting_literal
  simp only [Node.outline, Node.outlines, hitem, Outline.nesting, Outline.childrenNesting]
  omega

def nested : Nat → Value
  | 0 => .object []
  | n + 1 => .object [("a", nested n)]

theorem readable_nested (n : Nat) : (nested n).Readable := by
  induction n with
  | zero => exact .object nofun .nil nofun
  | succ n ih =>
    have hname : IsName "a" := ⟨by decide, List.all_eq_true.1 rfl, by decide⟩
    exact .object (by simpa using hname) (by simp) (by simpa using ih)

theorem nesting_nested (n : Nat) : (nested n).nesting = n + 1 := by
  induction n with
  | zero => rfl
  | succ n ih => simp [nested, nesting, slotsNesting, ih]

end Value

end Ember
