import Ember.Proofs.Constancy
import Ember.Proofs.Resolution
import Ember.Proofs.Schedule

/-!
Scopes and their parents. A scope that was opened inside another one has that one for its parent,
and around it stands what stands around the parent; names are looked for on the way from parent to
parent. All that a session does to scopes keeps them so.
-/

namespace Ember

set_option autoImplicit true

namespace Forest

def parent? (f : Forest) (id : ScopeId) : Option ScopeId :=
  (f.scope id).enclosing.head?

/-- Around a scope stand its parent, which is in the forest, and what stands around the parent. -/
def Linked (f : Forest) : Prop :=
  ∀ id parent, f.parent? id = some parent →
    parent < f.scopes.length ∧ (f.scope id).enclosing = f.lineage parent

/-- The nearest scope that binds a name, on the way from parent to parent. -/
inductive Nearest (f : Forest) (name : String) : ScopeId → ScopeId → Prop where
  | own {id : ScopeId} : (f.scope id).owns name = true → Nearest f name id id
  | outer {id : ScopeId} : (f.scope id).owns name = false → f.parent? id = some parent →
    Nearest f name parent owner → Nearest f name id owner

variable {f g : Forest} {id owner parent : ScopeId} {name : String}

theorem resolve_of_owns (h : (f.scope id).owns name = true) : f.resolve id name = .ok id := by
  simp [resolve, lineage, h]

theorem resolve_eq_parent (hl : f.Linked) (ho : (f.scope id).owns name = false)
    (hp : f.parent? id = some parent) : f.resolve id name = f.resolve parent name := by
  rw [resolve, lineage, List.find?_cons_of_neg (by simp [ho]), (hl id parent hp).2, ← resolve]

theorem resolve_of_root (ho : (f.scope id).owns name = false) (hp : f.parent? id = none) :
    f.resolve id name = .error (.unresolved name) := by
  have he : (f.scope id).enclosing = [] := List.head?_eq_none_iff.1 hp
  simp [resolve, lineage, he, ho]

/-- Names resolve to the nearest scope that binds them. -/
theorem resolve_eq_ok_iff_nearest (hl : f.Linked) :
    f.resolve id name = .ok owner ↔ f.Nearest name id owner := by
  constructor
  · intro h
    -- a parent has fewer scopes around it
    induction hn : (f.scope id).enclosing.length using Nat.strongRecOn generalizing id with
    | ind n ih =>
      cases ho : (f.scope id).owns name with
      | true =>
        rw [resolve_of_owns ho] at h
        cases h
        exact .own ho
      | false =>
        cases hp : f.parent? id with
        | none =>
          rw [resolve_of_root ho hp] at h
          cases h
        | some parent =>
          rw [resolve_eq_parent hl ho hp] at h
          have hlength := congrArg List.length (hl id parent hp).2
          rw [lineage, List.length_cons] at hlength
          exact .outer ho hp (ih _ (by omega) h rfl)
  · intro h
    induction h with
    | own ho => exact resolve_of_owns ho
    | outer ho hp _ ih => rw [resolve_eq_parent hl ho hp, ih]

theorem Nearest.unique {owner' : ScopeId} (hl : f.Linked) (h : f.Nearest name id owner)
    (h' : f.Nearest name id owner') : owner = owner' := by
  have hr := (resolve_eq_ok_iff_nearest hl).2 h
  rw [(resolve_eq_ok_iff_nearest hl).2 h'] at hr
  exact (Except.ok.inj hr).symm

theorem linked_set (hl : f.Linked) {s : Scope} (hs : s.enclosing = (f.scope id).enclosing) :
    (⟨f.scopes.set id s⟩ : Forest).Linked := by
  have he (i : ScopeId) :
      ((⟨f.scopes.set id s⟩ : Forest).scope i).enclosing = (f.scope i).enclosing :=
    (List.cons.inj (lineage_set hs i)).2
  intro i parent hp
  rw [parent?, he] at hp
  rw [he, lineage_set hs, List.length_set]
  exact hl i parent hp

theorem linked_declare (hl : f.Linked) (h : f.declare id b = .ok g) : g.Linked := by
  obtain ⟨s, hs, rfl⟩ := declare_eq_ok h
  obtain ⟨-, rfl⟩ := Scope.declare_eq_ok hs
  exact linked_set hl rfl

theorem linked_assign (hl : f.Linked) (h : f.assign id name value = .ok g) : g.Linked := by
  rcases f.assign_cases id name value with ⟨-, he⟩ | ⟨b, -, -, he⟩ | ⟨b, owner, -, -, -, he⟩
  · rw [he] at h
    cases h
  · rw [he] at h
    cases h
  · rw [he] at h
    cases h
    exact linked_set hl rfl

theorem scope_push (f : Forest) (s : Scope) (i : ScopeId) :
    (f.push s).2.scope i = if i = f.scopes.length then s else f.scope i := by
  rcases Nat.lt_trichotomy i f.scopes.length with h | h | h
  · simp [push, scope, List.getElem?_append_left h, Nat.ne_of_lt h]
  · simp [push, scope, h]
  · have hnone : f.scopes[i]? = none := List.getElem?_eq_none (Nat.le_of_lt h)
    have hnone' : (f.scopes ++ [s])[i]? = none :=
      List.getElem?_eq_none (by simpa using Nat.succ_le_of_lt h)
    simp [push, scope, hnone, hnone', Nat.ne_of_gt h]

theorem linked_push (hl : f.Linked) {s : Scope}
    (hs : ∀ parent, s.enclosing.head? = some parent →
      parent < f.scopes.length ∧ s.enclosing = f.lineage parent) : (f.push s).2.Linked := by
  intro id parent hp
  have hold : parent < f.scopes.length ∧
      ((f.push s).2.scope id).enclosing = f.lineage parent := by
    rw [parent?] at hp
    rw [scope_push] at hp ⊢
    split at hp
    · next hi =>
      rw [if_pos hi]
      exact hs parent hp
    · next hi =>
      rw [if_neg hi]
      exact hl id parent hp
  obtain ⟨hlt, he⟩ := hold
  refine ⟨Nat.lt_of_lt_of_le hlt (by simp [push]), ?_⟩
  rw [he, lineage, lineage, scope_push, if_neg (Nat.ne_of_lt hlt)]

end Forest

theorem Scope.enclosing_foldlM {bs : List Binding} {s s' : Scope}
    (h : bs.foldlM declare s = .ok s') : s'.enclosing = s.enclosing := by
  induction bs generalizing s with
  | nil => rw [Except.ok.inj h]
  | cons b bs ih =>
    rw [List.foldlM_cons] at h
    cases hs : s.declare b with
    | error cause =>
      rw [hs] at h
      cases h
    | ok t =>
      rw [hs] at h
      rw [ih h, (declare_eq_ok hs).2]

namespace Eval

def Keeps (P : Forest → Prop) (x : Eval α) : Prop := ∀ w, P w.forest → P (x.after w).forest

variable {P : Forest → Prop}

theorem keeps_pure (a : α) : Keeps P (pure a) := fun _ hw => hw

theorem keeps_bind {x : Eval α} {k : α → Eval β} (hx : x.Keeps P) (hk : ∀ a, (k a).Keeps P) :
    (x >>= k).Keeps P := by
  intro w hw
  have hx := hx w hw
  simp only [after, bind, EStateM.bind] at *
  cases h : x w with
  | ok a w' =>
    rw [h] at hx
    exact hk a w' hx
  | error e w' =>
    rw [h] at hx
    exact hx

theorem keeps_ofExcept (x : Except Cause α) : (ofExcept x).Keeps P := by
  cases x <;> exact fun _ hw => hw

theorem keeps_congruence (hd : ∀ f id b g, P f → f.declare id b = .ok g → P g)
    (ha : ∀ f id name value g, P f → f.assign id name value = .ok g → P g) (frame : Frame) :
    Congruence (fun x _ => x.Keeps P) Set.univ frame frame where
  pure _ _ hw := hw
  throw _ _ hw := hw
  bind := keeps_bind
  showable value := by
    unfold showable
    split <;> exact fun _ hw => hw
  record _ _ hw := hw
  lookup name _ := keeps_bind (fun _ hw => hw) fun _ => keeps_ofExcept _
  declare b _ w hw := by
    rw [after, declare_apply]
    cases h : w.forest.declare frame.scope b with
    | ok g => exact hd _ _ _ _ hw h
    | error cause => exact hw
  assign name _ value w hw := by
    rw [after, assign_apply]
    cases h : w.forest.assign frame.scope name value with
    | ok g => exact ha _ _ _ _ _ hw h
    | error cause => exact hw

theorem linked_congruence (frame : Frame) :
    Congruence (fun x _ => x.Keeps Forest.Linked) Set.univ frame frame :=
  keeps_congruence (fun _ _ _ _ => Forest.linked_declare) (fun _ _ _ _ _ => Forest.linked_assign)
    frame

theorem linked_openGlobal (natives : Ordered Native) :
    (openGlobal natives).Keeps Forest.Linked := by
  intro w hw
  cases h : Scope.global natives with
  | ok s =>
    rw [after, openGlobal_of_ok h]
    apply Forest.linked_push hw
    intro parent hp
    rw [Scope.enclosing_foldlM h] at hp
    cases hp
  | error cause =>
    simp only [after, openGlobal, bind, EStateM.bind, get, getThe, MonadStateOf.get, EStateM.get,
      Forest.openGlobal, h]
    exact hw

end Eval

open Eval

theorem Node.linked_eval (host : Host) (scope : ScopeId) (depth : Nat) (path : Path) (n : Node) :
    (n.eval host scope depth path).Keeps Forest.Linked := by
  induction depth generalizing path n with
  | zero => exact fun _ hw => hw
  | succ depth ih =>
    intro w
    rw [eval, after_located]
    let child : Child := fun i => eval host scope depth (i :: path)
    exact @Congruence.node _ _ _ _ child child (linked_congruence _) host host.within_univ
      (fun i m _ => ih (i :: path) m) n n.within_univ w

theorem Interpreter.linked_evaluate (i : Interpreter) (scope? : Option ScopeId) (node : Node) :
    (i.evaluate scope? node).Keeps Forest.Linked := by
  have he : (i.enter scope?).Keeps Forest.Linked := by
    cases scope? with
    | some scope => exact keeps_pure _
    | none => exact linked_openGlobal i.natives
  exact keeps_bind he fun _ => node.linked_eval _ _ _ _

namespace Operation

/-- The scope that a child is opened in is there. -/
def Founded (f : Forest) : Operation → Prop
  | .openChild (some parent) => parent < f.scopes.length
  | _ => True

/-- Each operation of a session is founded when its turn comes. -/
def Orderly : List Operation → World → Prop
  | [], _ => True
  | operation :: rest, w => operation.Founded w.forest ∧ Orderly rest (operation.perform.after w)

theorem linked_perform {operation : Operation} (hl : w.forest.Linked)
    (hf : operation.Founded w.forest) : (operation.perform.after w).forest.Linked := by
  cases operation with
  | openChild parent? =>
    apply Forest.linked_push hl
    cases parent? with
    | none => exact nofun
    | some parent =>
      intro i hi
      cases hi
      exact ⟨hf, rfl⟩
  | openGlobal natives => exact keeps_bind (linked_openGlobal _) (fun _ => keeps_pure _) w hl
  | declare scope b =>
    exact (linked_congruence ⟨scope, [], 0⟩).declare b (Set.mem_univ _) w hl
  | assign scope name value =>
    exact (linked_congruence ⟨scope, [], 0⟩).assign name (Set.mem_univ _) value w hl
  | lookup scope name =>
    have hlookup := (linked_congruence ⟨scope, [], 0⟩).lookup name (Set.mem_univ _)
    exact keeps_bind hlookup (fun _ => keeps_pure _) w hl
  | resolve scope name =>
    refine keeps_bind (fun _ hw => hw) (fun _ => ?_) w hl
    exact keeps_bind (keeps_ofExcept _) fun _ => keeps_pure _
  | call host frame callee arguments =>
    have hcall := (linked_congruence frame).call host.within_univ callee arguments
    exact keeps_bind hcall (fun _ => keeps_pure _) w hl
  | evaluate i scope? node =>
    exact keeps_bind (i.linked_evaluate _ _) (fun _ => keeps_pure _) w hl

theorem linked_run {operations : List Operation} (hl : w.forest.Linked)
    (ho : Orderly operations w) : (run operations w).forest.Linked := by
  induction operations generalizing w with
  | nil => exact hl
  | cons operation rest ih => exact ih (linked_perform hl ho.1) ho.2

theorem linked_reached {operations : List Operation}
    (ho : Orderly operations (.ofForest .empty)) : (reached operations).Linked := by
  have hempty : (World.ofForest .empty).forest.Linked := nofun
  exact linked_run hempty ho

end Operation

end Ember
