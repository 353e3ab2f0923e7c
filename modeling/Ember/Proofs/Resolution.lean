import Ember.Proofs.Growth

/-!
The nearest binding of a name, which is what the operations on a scope go by, and what declarations
and assignments make of it.
-/

namespace Ember

set_option autoImplicit true

namespace Scope

variable {s s' : Scope}

theorem find?_declare (h : s.declare b = .ok s') (name : String) :
    s'.find? name = if b.name = name then some b else s.find? name := by
  obtain ⟨hb, rfl⟩ := declare_eq_ok h
  rw [find?, List.find?_append]
  split
  · next hn =>
    subst hn
    have hnone : s.bindings.find? (fun c => c.name == b.name) = none := by
      simpa [names] using hb
    simp [hnone]
  · next hn => simp [find?, hn]

theorem name_eq_of_find? (h : s.find? name = some b) : b.name = name := by
  simpa using List.find?_some h

theorem find?_update (s : Scope) (name : String) (value : Value) (other : String) :
    (s.update name value).find? other =
      if name = other then (s.find? other).map ({ · with value }) else s.find? other := by
  have hp : ((fun b : Binding => b.name == other) ∘ fun b =>
      if b.name = name then { b with value } else b) = fun b => b.name == other := by
    funext b
    simp only [Function.comp_apply]
    split <;> rfl
  rw [find?, update, List.find?_map, hp]
  change Option.map _ (s.find? other) = _
  cases hb : s.find? other with
  | none => split <;> rfl
  | some b =>
    have hn := name_eq_of_find? hb
    by_cases h : name = other
    · simp [hn, h]
    · simp [hn, h, Ne.symm h]

end Scope

namespace Forest

variable {f g : Forest} {id owner : ScopeId}

def nearest? (f : Forest) (id : ScopeId) (name : String) : Option Binding :=
  (f.lineage id).findSome? fun i => (f.scope i).find? name

def isConstant (f : Forest) (id : ScopeId) (name : String) : Bool :=
  match f.resolve id name with
  | .ok owner => ((f.scope owner).find? name).any (·.constant)
  | .error _ => false

theorem resolve_eq_ok_iff :
    f.resolve id name = .ok owner ↔
      (f.lineage id).find? (fun i => (f.scope i).owns name) = some owner := by
  unfold resolve
  split
  · next h => simp [h]
  · next h => simp [h]

/-- A name that does not resolve has no nearest binding; otherwise it is the one in the scope that
the name resolves to. -/
theorem resolve_cases (f : Forest) (id : ScopeId) (name : String) :
    (f.resolve id name = .error (.unresolved name) ∧ f.nearest? id name = none) ∨
      ∃ owner b, f.resolve id name = .ok owner ∧ (f.scope owner).find? name = some b ∧
        f.nearest? id name = some b := by
  unfold resolve nearest?
  induction f.lineage id with
  | nil => exact .inl ⟨rfl, rfl⟩
  | cons i rest ih =>
    cases hb : (f.scope i).find? name with
    | none =>
      have ho : (f.scope i).owns name = false := by simp [Scope.owns, hb]
      simpa [ho, hb] using ih
    | some b =>
      have ho : (f.scope i).owns name = true := by simp [Scope.owns, hb]
      exact .inr ⟨i, b, by simp [ho], hb, by simp [hb]⟩

theorem nearest?_eq_of_resolve (h : f.resolve id name = .ok owner) :
    f.nearest? id name = (f.scope owner).find? name := by
  rcases f.resolve_cases id name with ⟨hr, -⟩ | ⟨i, b, hr, hb, hn⟩
  · rw [hr] at h
    cases h
  · rw [hr] at h
    rw [hn, ← Except.ok.inj h, hb]

theorem lookup_eq (f : Forest) (id : ScopeId) (name : String) :
    f.lookup id name = match f.nearest? id name with
      | some b => .ok b.value
      | none => .error (.unresolved name) :=
  rfl

theorem isConstant_eq (f : Forest) (id : ScopeId) (name : String) :
    f.isConstant id name = (f.nearest? id name).any (·.constant) := by
  unfold isConstant
  rcases f.resolve_cases id name with ⟨hr, hn⟩ | ⟨owner, b, hr, hb, hn⟩
  · rw [hr, hn]
    rfl
  · rw [hr, hn, ← hb]

theorem assign_cases (f : Forest) (id : ScopeId) (name : String) (value : Value) :
    (f.nearest? id name = none ∧ f.assign id name value = .error (.unresolved name)) ∨
      (∃ b, f.nearest? id name = some b ∧ b.constant = true ∧
        f.assign id name value = .error (.constant name)) ∨
      ∃ b owner, f.nearest? id name = some b ∧ b.constant = false ∧
        f.resolve id name = .ok owner ∧
        f.assign id name value =
          .ok ⟨f.scopes.set owner ((f.scope owner).update name value)⟩ := by
  unfold assign
  rcases f.resolve_cases id name with ⟨hr, hn⟩ | ⟨owner, b, hr, hb, hn⟩
  · exact .inl ⟨hn, by rw [hr]⟩
  · obtain ⟨name', value', constant⟩ := b
    right
    cases constant with
    | true => exact .inl ⟨_, hn, rfl, by simp only [hr, hb]⟩
    | false => exact .inr ⟨_, owner, hn, rfl, hr, by simp only [hr, hb]⟩

theorem scope_set (f : Forest) (id : ScopeId) (s : Scope) (i : ScopeId) :
    (⟨f.scopes.set id s⟩ : Forest).scope i =
      if i = id ∧ id < f.scopes.length then s else f.scope i := by
  simp only [Forest.scope, List.getElem?_set]
  by_cases hi : id = i
  · subst hi
    by_cases hid : id < f.scopes.length <;> simp [hid]
  · simp [hi, Ne.symm hi]

theorem lineage_set {s : Scope} (h : s.enclosing = (f.scope id).enclosing) (i : ScopeId) :
    (⟨f.scopes.set id s⟩ : Forest).lineage i = f.lineage i := by
  rw [lineage, lineage, scope_set]
  split
  · next hi => rw [h, hi.1]
  · rfl

theorem lt_of_find? (h : (f.scope id).find? name = some b) : id < f.scopes.length := by
  by_contra hid
  have hs : f.scopes[id]? = none := List.getElem?_eq_none (Nat.le_of_not_lt hid)
  simp [scope, hs, Scope.empty, Scope.find?] at h

theorem declare_eq_ok (h : f.declare id b = .ok g) :
    ∃ s, (f.scope id).declare b = .ok s ∧ g = ⟨f.scopes.set id s⟩ := by
  unfold declare at h
  cases hs : (f.scope id).declare b with
  | error cause =>
    rw [hs] at h
    cases h
  | ok s =>
    rw [hs] at h
    exact ⟨s, rfl, (Except.ok.inj h).symm⟩

/-- A name that was declared is bound by its declaration; all others are bound as before. -/
theorem nearest?_declare (hid : id < f.scopes.length) (h : f.declare id b = .ok g) (name : String) :
    g.nearest? id name = if b.name = name then some b else f.nearest? id name := by
  obtain ⟨s, hs, rfl⟩ := declare_eq_ok h
  obtain ⟨-, hs'⟩ := Scope.declare_eq_ok hs
  rw [nearest?, lineage_set (by rw [hs'])]
  simp only [scope_set, hid, and_true]
  split
  · next hn => simp [lineage, Scope.find?_declare hs, hn]
  · next hn =>
    have hsame : (fun i => (if i = id then s else f.scope i).find? name) =
        fun i => (f.scope i).find? name := by
      funext i
      split
      · next hi => rw [hi, Scope.find?_declare hs, if_neg hn]
      · rfl
    rw [hsame, nearest?]

theorem owns_declare (hid : id < f.scopes.length) (h : f.declare id b = .ok g) (name : String) :
    (g.scope id).owns name = (decide (b.name = name) || (f.scope id).owns name) := by
  obtain ⟨s, hs, rfl⟩ := declare_eq_ok h
  rw [scope_set, if_pos ⟨rfl, hid⟩, Scope.owns, Scope.find?_declare hs]
  split
  · next hn => simp [hn]
  · next hn => simp [hn, Scope.owns]

/-- The first scope that binds a name decides, even if its binding is changed. -/
theorem findSome?_of_find? {l : List ScopeId} {h h' : ScopeId → Option Binding}
    (hl : l.find? (fun i => (h i).isSome) = some owner) (hs : ∀ i, i ≠ owner → h' i = h i)
    (ho : (h' owner).isSome) : l.findSome? h' = h' owner := by
  induction l with
  | nil => cases hl
  | cons i rest ih =>
    by_cases hi : i = owner
    · subst hi
      obtain ⟨b, hb⟩ := Option.isSome_iff_exists.1 ho
      simp [hb]
    · cases hb : h i with
      | none => simpa [hs i hi, hb] using ih (by simpa [hb] using hl)
      | some b =>
        rw [List.find?_cons_of_pos (by simp [hb])] at hl
        exact absurd (Option.some.inj hl) hi

theorem nearest?_assign (h : f.resolve id name = .ok owner) (value : Value) (other : String) :
    (⟨f.scopes.set owner ((f.scope owner).update name value)⟩ : Forest).nearest? id other =
      if name = other then (f.nearest? id other).map ({ · with value }) else f.nearest? id other := by
  rcases f.resolve_cases id name with ⟨hr, -⟩ | ⟨i, b, hr, hb, hn⟩
  · rw [hr] at h
    cases h
  obtain rfl : i = owner := Except.ok.inj (hr.symm.trans h)
  have hlt := lt_of_find? hb
  rw [nearest?, lineage_set (s := (f.scope i).update name value) rfl]
  simp only [scope_set, hlt, and_true]
  split
  · next hname =>
    subst hname
    rw [hn]
    rw [findSome?_of_find? (resolve_eq_ok_iff.1 hr)]
    · simp [Scope.find?_update, hb]
    · intro j hj
      rw [if_neg hj]
    · simp [Scope.find?_update, hb]
  · next hname =>
    have hsame : (fun j => (if j = i then (f.scope i).update name value else f.scope j).find? other) =
        fun j => (f.scope j).find? other := by
      funext j
      split
      · next hj => rw [hj, Scope.find?_update, if_neg hname]
      · rfl
    rw [hsame, nearest?]

theorem owns_update (s : Scope) (name : String) (value : Value) (other : String) :
    (s.update name value).owns other = s.owns other := by
  rw [Scope.owns, Scope.find?_update]
  split <;> simp [Scope.owns]

theorem owns_assign (f : Forest) (owner : ScopeId) (name : String) (value : Value) (i : ScopeId)
    (other : String) :
    ((⟨f.scopes.set owner ((f.scope owner).update name value)⟩ : Forest).scope i).owns other =
      (f.scope i).owns other := by
  rw [scope_set]
  split
  · next hi => rw [owns_update, hi.1]
  · rfl

end Forest

end Ember
