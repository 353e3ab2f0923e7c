import Ember.Proofs.Parents

/-!
Declarations and assignments, seen from every scope of a forest. Scopes may share the scopes around
them, so that what is done from one of them shows in others: in those that find the name in the
scope where it was bound, and in no other. An operation that fails shows nowhere.
-/

namespace Ember

set_option autoImplicit true

namespace Forest

def BindsConstant (f : Forest) (id : ScopeId) (name : String) : Prop :=
  ∃ b, (f.scope id).find? name = some b ∧ b.constant = true

/-- Lookups of a name give a value in some scopes. All other lookups are as before, also those that
fail. -/
def Rebound (name : String) (value : Value) (sees : ScopeId → Prop) (f g : Forest) : Prop :=
  ∀ x m, (m = name ∧ sees x → g.lookup x m = .ok value) ∧
    (¬(m = name ∧ sees x) → g.lookup x m = f.lookup x m)

variable {f g : Forest} {id owner x : ScopeId} {name m : String}

/-- Forests whose scopes stand alike, and bind alike but for one name in one scope. -/
structure DiffersAt (owner : ScopeId) (name : String) (f g : Forest) : Prop where
  lineage_eq : ∀ i, g.lineage i = f.lineage i
  find?_eq : ∀ i m, ¬(m = name ∧ i = owner) → (g.scope i).find? m = (f.scope i).find? m

theorem DiffersAt.symm (h : DiffersAt owner name f g) : DiffersAt owner name g f where
  lineage_eq i := (h.lineage_eq i).symm
  find?_eq i m hm := (h.find?_eq i m hm).symm

/-- Where the search stops at another place, or nowhere, what is found at a place does not matter.
-/
theorem findSome?_of_find?_ne {l : List ScopeId} {h h' : ScopeId → Option Binding}
    (hl : l.find? (fun i => (h i).isSome) ≠ some owner) (ho : (h owner).isSome)
    (hs : ∀ i, i ≠ owner → h' i = h i) : l.findSome? h' = l.findSome? h := by
  induction l with
  | nil => rfl
  | cons i rest ih =>
    have hi : i ≠ owner := by
      rintro rfl
      simp [ho] at hl
    rw [List.findSome?_cons, List.findSome?_cons, hs i hi]
    cases hb : h i with
    | some b => rfl
    | none =>
      rw [List.find?_cons_of_neg (by simp [hb])] at hl
      exact ih hl

/-- What a scope binds does not show in the scopes that find the name elsewhere. -/
theorem DiffersAt.lookup_eq (h : DiffersAt owner name f g)
    (ho : (f.scope owner).owns name = true)
    (hx : ¬(m = name ∧ f.resolve x name = .ok owner)) : g.lookup x m = f.lookup x m := by
  have hn : g.nearest? x m = f.nearest? x m := by
    rw [nearest?, nearest?, h.lineage_eq]
    by_cases hm : m = name
    · subst hm
      rw [resolve_eq_ok_iff] at hx
      exact findSome?_of_find?_ne (fun he => hx ⟨rfl, he⟩) ho fun i hi =>
        h.find?_eq i m fun hc => hi hc.2
    · congr 1
      funext i
      exact h.find?_eq i m fun hc => hm hc.1
  rw [Forest.lookup_eq, Forest.lookup_eq, hn]

theorem lookup_of_resolve (hr : f.resolve x name = .ok owner)
    (hb : (f.scope owner).find? name = some b) : f.lookup x name = .ok b.value := by
  rw [lookup_eq, nearest?_eq_of_resolve hr, hb]

theorem differsAt_update (f : Forest) (owner : ScopeId) (name : String) (value : Value) :
    DiffersAt owner name f ⟨f.scopes.set owner ((f.scope owner).update name value)⟩ where
  lineage_eq i := lineage_set (s := (f.scope owner).update name value) rfl i
  find?_eq i m hm := by
    rw [scope_set]
    split
    · next hi =>
      rw [Scope.find?_update, if_neg fun hname => hm ⟨hname.symm, hi.1⟩, hi.1]
    · rfl

theorem differsAt_declare (h : f.declare id b = .ok g) : DiffersAt id b.name f g := by
  obtain ⟨s, hs, rfl⟩ := declare_eq_ok h
  obtain ⟨-, hs'⟩ := Scope.declare_eq_ok hs
  refine ⟨fun i => lineage_set (by rw [hs']) i, fun i m hm => ?_⟩
  rw [scope_set]
  split
  · next hi =>
    rw [Scope.find?_declare hs, if_neg fun hname => hm ⟨hname.symm, hi.1⟩, hi.1]
  · rfl

theorem rebound_update (hl : f.Linked) (h : f.Nearest name id owner) (value : Value) :
    Rebound name value (f.Nearest name · owner) f
      ⟨f.scopes.set owner ((f.scope owner).update name value)⟩ := by
  have hr := (resolve_eq_ok_iff_nearest hl).2 h
  obtain ⟨b, hb⟩ : ∃ b, (f.scope owner).find? name = some b := by
    rcases f.resolve_cases id name with ⟨hr', -⟩ | ⟨i, b, hr', hb, -⟩
    · rw [hr'] at hr
      cases hr
    · rw [hr'] at hr
      cases hr
      exact ⟨b, hb⟩
  intro x m
  simp only [← resolve_eq_ok_iff_nearest hl]
  constructor
  · rintro ⟨rfl, hx⟩
    rw [lookup_eq, nearest?_assign hx, if_pos rfl, nearest?_eq_of_resolve hx, hb]
    rfl
  · exact (f.differsAt_update owner name value).lookup_eq (by simp [Scope.owns, hb])

theorem rebound_declare (hl : f.Linked) (hid : id < f.scopes.length)
    (h : f.declare id b = .ok g) : Rebound b.name b.value (g.Nearest b.name · id) f g := by
  have hd := differsAt_declare h
  have hb : (g.scope id).find? b.name = some b := by
    obtain ⟨s, hs, rfl⟩ := declare_eq_ok h
    rw [scope_set, if_pos ⟨rfl, hid⟩, Scope.find?_declare hs, if_pos rfl]
  intro x m
  simp only [← resolve_eq_ok_iff_nearest (linked_declare hl h)]
  constructor
  · rintro ⟨rfl, hx⟩
    exact lookup_of_resolve hx hb
  · exact fun hx => (hd.symm.lookup_eq (by simp [Scope.owns, hb]) hx).symm

theorem assign_nearest_cases (hl : f.Linked) (id : ScopeId) (name : String) (value : Value) :
    ((¬∃ owner, f.Nearest name id owner) ∧ f.assign id name value = .error (.unresolved name)) ∨
      ∃ owner, f.Nearest name id owner ∧
        (f.BindsConstant owner name ∧ f.assign id name value = .error (.constant name) ∨
          ¬f.BindsConstant owner name ∧ f.assign id name value =
            .ok ⟨f.scopes.set owner ((f.scope owner).update name value)⟩) := by
  simp only [← resolve_eq_ok_iff_nearest hl]
  rcases f.resolve_cases id name with ⟨hr, -⟩ | ⟨owner, ⟨bound, held, constant⟩, hr, hb, -⟩
  · left
    simp [assign, hr]
  · refine .inr ⟨owner, hr, ?_⟩
    cases constant with
    | true => exact .inl ⟨⟨_, hb, rfl⟩, by simp only [assign, hr, hb]⟩
    | false =>
      refine .inr ⟨?_, by simp only [assign, hr, hb]⟩
      rintro ⟨b, hb', hc⟩
      rw [hb] at hb'
      cases hb'
      cases hc

theorem declare_own_cases (f : Forest) (id : ScopeId) (b : Binding) :
    ((f.scope id).owns b.name = true ∧ f.declare id b = .error (.redeclared b.name)) ∨
      (f.scope id).owns b.name = false ∧ ∃ g, f.declare id b = .ok g := by
  cases ho : (f.scope id).owns b.name with
  | true =>
    left
    simp [declare, Scope.declare, ho, Except.map]
  | false =>
    right
    simp [declare, Scope.declare, ho, Except.map]

end Forest

namespace Eval

variable {w w' : World} {id owner : ScopeId}

theorem exists_assign_ok_iff (hl : w.forest.Linked) (value : Value) :
    (∃ w', assign id name value w = .ok () w') ↔
      ∃ owner, w.forest.Nearest name id owner ∧ ¬w.forest.BindsConstant owner name := by
  rw [assign_apply]
  rcases Forest.assign_nearest_cases hl id name value with
    ⟨hn, he⟩ | ⟨owner, hn, ⟨hc, he⟩ | ⟨hc, he⟩⟩
  · rw [he]
    exact ⟨nofun, fun ⟨owner, h, _⟩ => absurd ⟨owner, h⟩ hn⟩
  · rw [he]
    refine ⟨nofun, fun ⟨i, hi, hv⟩ => ?_⟩
    rw [hi.unique hl hn] at hv
    exact absurd hc hv
  · rw [he]
    exact ⟨fun _ => ⟨owner, hn, hc⟩, fun _ => ⟨_, rfl⟩⟩

theorem rebound_of_assign (hl : w.forest.Linked) (h : assign id name value w = .ok () w')
    (hn : w.forest.Nearest name id owner) :
    Forest.Rebound name value (w.forest.Nearest name · owner) w.forest w'.forest := by
  rw [assign_apply] at h
  rcases Forest.assign_nearest_cases hl id name value with
    ⟨-, he⟩ | ⟨i, hi, ⟨-, he⟩ | ⟨-, he⟩⟩
  · rw [he] at h
    cases h
  · rw [he] at h
    cases h
  · rw [he] at h
    cases h
    rw [hn.unique hl hi]
    exact Forest.rebound_update hl hi value

theorem of_assign_eq_error (hl : w.forest.Linked) (h : assign id name value w = .error e w') :
    w' = w ∧ ((¬∃ owner, w.forest.Nearest name id owner) ∧ e = .fault (.unresolved name) none ∨
      ∃ owner, w.forest.Nearest name id owner ∧ w.forest.BindsConstant owner name ∧
        e = .fault (.constant name) none) := by
  rw [assign_apply] at h
  rcases Forest.assign_nearest_cases hl id name value with
    ⟨hn, he⟩ | ⟨owner, hn, ⟨hc, he⟩ | ⟨-, he⟩⟩
  · rw [he] at h
    cases h
    exact ⟨rfl, .inl ⟨hn, rfl⟩⟩
  · rw [he] at h
    cases h
    exact ⟨rfl, .inr ⟨owner, hn, hc, rfl⟩⟩
  · rw [he] at h
    cases h

theorem exists_declare_ok_iff (id : ScopeId) (b : Binding) (w : World) :
    (∃ w', declare id b w = .ok () w') ↔ (w.forest.scope id).owns b.name = false := by
  rw [declare_apply]
  rcases w.forest.declare_own_cases id b with ⟨ho, he⟩ | ⟨ho, g, he⟩
  · rw [he, ho]
    exact ⟨nofun, nofun⟩
  · rw [he]
    exact ⟨fun _ => ho, fun _ => ⟨_, rfl⟩⟩

theorem rebound_of_declare (hl : w.forest.Linked) (hid : id < w.forest.scopes.length)
    (h : declare id b w = .ok () w') :
    Forest.Rebound b.name b.value (w'.forest.Nearest b.name · id) w.forest w'.forest := by
  rw [declare_apply] at h
  rcases w.forest.declare_own_cases id b with ⟨-, he⟩ | ⟨-, g, he⟩
  · rw [he] at h
    cases h
  · rw [he] at h
    cases h
    exact Forest.rebound_declare hl hid he

theorem of_declare_eq_error (h : declare id b w = .error e w') :
    w' = w ∧ e = .fault (.redeclared b.name) none := by
  rw [declare_apply] at h
  rcases w.forest.declare_own_cases id b with ⟨-, he⟩ | ⟨-, g, he⟩
  · rw [he] at h
    cases h
    exact ⟨rfl, rfl⟩
  · rw [he] at h
    cases h

/-- An assignment can be made where the nearest scope that binds the name does not bind it to a
constant. It then shows in the scopes for which this is the nearest one. A declaration can be made
in a scope that does not bind the name itself. It then shows in the scopes for which this has become
the nearest one. No other lookup changes, and what fails changes nothing. -/
theorem declare_assign_nearest (w : World) (hl : w.forest.Linked) (id : ScopeId)
    (hid : id < w.forest.scopes.length) (name : String) (value : Value) (constant : Bool) :
    (((∃ w', assign id name value w = .ok () w') ↔
        ∃ owner, w.forest.Nearest name id owner ∧ ¬w.forest.BindsConstant owner name) ∧
      (∀ w' owner, assign id name value w = .ok () w' → w.forest.Nearest name id owner →
        Forest.Rebound name value (w.forest.Nearest name · owner) w.forest w'.forest) ∧
      ∀ e w', assign id name value w = .error e w' → w' = w ∧
        ((¬∃ owner, w.forest.Nearest name id owner) ∧ e = .fault (.unresolved name) none ∨
          ∃ owner, w.forest.Nearest name id owner ∧ w.forest.BindsConstant owner name ∧
            e = .fault (.constant name) none)) ∧
    ((∃ w', declare id ⟨name, value, constant⟩ w = .ok () w') ↔
        (w.forest.scope id).owns name = false) ∧
      (∀ w', declare id ⟨name, value, constant⟩ w = .ok () w' →
        Forest.Rebound name value (w'.forest.Nearest name · id) w.forest w'.forest) ∧
      ∀ e w', declare id ⟨name, value, constant⟩ w = .error e w' →
        w' = w ∧ e = .fault (.redeclared name) none :=
  ⟨⟨exists_assign_ok_iff hl value, fun _ _ => rebound_of_assign hl,
      fun _ _ => of_assign_eq_error hl⟩,
    exists_declare_ok_iff id ⟨name, value, constant⟩ w, fun _ => rebound_of_declare hl hid,
      fun _ _ => of_declare_eq_error⟩

/-- Two scopes inside a shared one. A constant of the first hides a variable of the shared scope:
the variable is assigned from the second, and nothing is from inside the first. -/
theorem declare_assign_nearest_shared :
    let w := Operation.run [.openChild none, .openChild (some 0), .openChild (some 0),
      .openChild (some 1), .declare 0 ⟨"x", .null, false⟩,
      .declare 1 ⟨"x", .string "hidden", true⟩] (.ofForest .empty)
    w.forest.Linked ∧ 2 < w.forest.scopes.length ∧ 3 < w.forest.scopes.length ∧
      (∃ w', assign 2 "x" (.string "new") w = .ok () w' ∧
        w'.forest.lookup 0 "x" = .ok (.string "new") ∧
        w'.forest.lookup 2 "x" = .ok (.string "new") ∧
        w'.forest.lookup 3 "x" = .ok (.string "hidden") ∧
        w'.forest.lookup 3 "y" = .error (.unresolved "y")) ∧
      ¬∃ w', assign 3 "x" (.string "new") w = .ok () w' := by
  intro w
  have hl : w.forest.Linked := by
    apply Operation.linked_reached
    exact ⟨trivial, (by decide : 0 < 1), (by decide : 0 < 2), (by decide : 1 < 3), trivial, trivial,
      trivial⟩
  have h2 : 2 < w.forest.scopes.length := by decide
  have h3 : 3 < w.forest.scopes.length := by decide
  have hnear : w.forest.Nearest "x" 2 0 := .outer (by decide) rfl (.own (by decide))
  have hhidden : w.forest.Nearest "x" 3 1 := .outer (by decide) rfl (.own (by decide))
  have hvariable : ¬w.forest.BindsConstant 0 "x" := by
    rintro ⟨b, hb, hc⟩
    cases hb
    cases hc
  obtain ⟨⟨hok, hrebound, -⟩, -⟩ := declare_assign_nearest w hl 2 h2 "x" (.string "new") false
  obtain ⟨w', h⟩ := hok.2 ⟨0, hnear, hvariable⟩
  have hr := hrebound w' 0 h hnear
  refine ⟨hl, h2, h3, ⟨w', h, (hr 0 "x").1 ⟨rfl, .own (by decide)⟩, (hr 2 "x").1 ⟨rfl, hnear⟩, ?_,
    ((hr 3 "y").2 ?_).trans rfl⟩, fun hassign => ?_⟩
  · apply ((hr 3 "x").2 _).trans rfl
    rintro ⟨-, hx⟩
    cases hx.unique hl hhidden
  · rintro ⟨hname, -⟩
    exact absurd hname (by decide)
  · obtain ⟨⟨hok', -, -⟩, -⟩ := declare_assign_nearest w hl 3 h3 "x" (.string "new") false
    obtain ⟨owner, ho, hconstant⟩ := hok'.1 hassign
    obtain rfl := ho.unique hl hhidden
    exact hconstant ⟨⟨"x", .string "hidden", true⟩, rfl, rfl⟩

end Eval

end Ember
