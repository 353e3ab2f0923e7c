import Ember.Proofs.Congruence

/-!
What evaluation does depends neither on the places of nodes nor on what was done before: from worlds
with the same scopes it comes to the same end, does the same things and leaves the same scopes.
Places only tell the entries of the journal apart.
-/

namespace Ember

set_option autoImplicit true

namespace World

/-- Everything done so far, newest first, wherever it was done. -/
def deeds (w : World) : List Deed := w.journal.map (·.deed)

theorem output_eq_of_deeds {w v : World} (h : w.deeds = v.deeds) : w.output = v.output := by
  have htexts : ∀ u : World, u.journal.map Event.text =
      u.deeds.map fun deed => Event.text ⟨[], deed⟩ := by
    intro u
    rw [deeds, List.map_map]
    rfl
  rw [output, output, List.map_reverse, List.map_reverse, htexts, htexts, h]

end World

namespace Eval

/-- Two runs, from `w` and from `v`, that end with the same value or error and the same scopes, and
that did the same things. -/
inductive Together {ε α : Type} (w v : World) :
    EStateM.Result ε World α → EStateM.Result ε World α → Prop where
  | ok {a : α} {w' v' : World} (done : List Deed) : w'.forest = v'.forest → w'.deeds = done ++ w.deeds →
      v'.deeds = done ++ v.deeds → Together w v (.ok a w') (.ok a v')
  | error {e : ε} {w' v' : World} (done : List Deed) : w'.forest = v'.forest → w'.deeds = done ++ w.deeds →
      v'.deeds = done ++ v.deeds → Together w v (.error e w') (.error e v')

/-- Steps that go together from any worlds with the same scopes. -/
def Agree (x y : EStateM ε World α) : Prop :=
  ∀ w v : World, w.forest = v.forest → Together w v (x w) (y v)

theorem agree_pure (a : α) : Agree (pure a : EStateM ε World α) (pure a) :=
  fun _ _ h => .ok [] h rfl rfl

theorem agree_throw (e : ε) : Agree (throw e : EStateM ε World α) (throw e) :=
  fun _ _ h => .error [] h rfl rfl

theorem agree_bind {x y : EStateM ε World α} {f g : α → EStateM ε World β} (hx : Agree x y)
    (hf : ∀ a, Agree (f a) (g a)) : Agree (x >>= f) (y >>= g) := by
  intro w v h
  have hxy := hx w v h
  simp only [bind, EStateM.bind]
  generalize x w = r, y v = s at hxy
  cases hxy with
  | error done hw hl hr => exact .error done hw hl hr
  | @ok a w' v' done hw hl hr =>
    have hfg := hf a w' v' hw
    dsimp only
    generalize f a w' = r, g a v' = s at hfg
    cases hfg with
    | error more hw' hl' hr' =>
      exact .error (more ++ done) hw' (by rw [hl', hl, List.append_assoc])
        (by rw [hr', hr, List.append_assoc])
    | ok more hw' hl' hr' =>
      exact .ok (more ++ done) hw' (by rw [hl', hl, List.append_assoc])
        (by rw [hr', hr, List.append_assoc])

theorem agree_ofExcept (x : Except Cause α) : Agree (ofExcept x) (ofExcept x) := by
  cases x with
  | ok a => exact agree_pure a
  | error cause => exact agree_throw _

theorem agree_showable (depth : Nat) (value : Value) :
    Agree (showable depth value) (showable depth value) := by
  unfold showable
  split
  · exact agree_pure _
  · exact agree_throw _

theorem agree_record (path path' : Path) (deed : Deed) :
    Agree (record path deed) (record path' deed) :=
  fun _ _ h => .ok [deed] h rfl rfl

/-- Steps that start by reading the world need only agree on worlds with the same scopes. -/
theorem agree_get {f g : World → EStateM ε World α}
    (h : ∀ w v, w.forest = v.forest → Together w v (f w w) (g v v)) :
    Agree (get >>= f) (get >>= g) :=
  h

theorem agree_lookup (scope : ScopeId) (name : String) :
    Agree (lookup scope name) (lookup scope name) := by
  apply agree_get
  intro w v h
  rw [h]
  exact agree_ofExcept _ w v h

theorem agree_update (change : Forest → Except Cause Forest) :
    Agree (do
      let forest ← ofExcept (change (← get).forest)
      modify fun w => { w with forest })
    (do
      let forest ← ofExcept (change (← get).forest)
      modify fun w => { w with forest }) := by
  apply agree_get
  intro w v h
  rw [h]
  cases change v.forest with
  | ok forest => exact .ok [] rfl rfl rfl
  | error cause => exact .error [] h rfl rfl

theorem agree_declare (scope : ScopeId) (b : Binding) :
    Agree (declare scope b) (declare scope b) :=
  agree_update fun forest => forest.declare scope b

theorem agree_assign (scope : ScopeId) (name : String) (value : Value) :
    Agree (assign scope name value) (assign scope name value) :=
  agree_update fun forest => forest.assign scope name value

theorem agree_congruence (scope : ScopeId) (depth : Nat) (path path' : Path) :
    Congruence (fun x y => Agree x y) Set.univ ⟨scope, path, depth⟩ ⟨scope, path', depth⟩ where
  pure := agree_pure
  throw := agree_throw
  bind := agree_bind
  showable := agree_showable depth
  record := agree_record path path'
  lookup name _ := agree_lookup scope name
  declare b _ := agree_declare scope b
  assign name _ := agree_assign scope name

theorem agree_located {x y : Eval α} (kind : NodeKind) (h : Agree x y) :
    Agree (located kind x) (located kind y) := by
  intro w v hw
  have hxy := h w v hw
  unfold located
  generalize x w = r, y v = s at hxy
  cases hxy with
  | ok done hf hl hr => exact .ok done hf hl hr
  | @error e w' v' done hf hl hr =>
    cases e with
    | fault cause site => cases site <;> exact .error done hf hl hr
    | tooDeep | crash => exact .error done hf hl hr

def ChildrenAgree (child child' : Child) : Prop := ∀ i j n, Agree (child i n) (child' j n)

variable {child child' : Child}

theorem agree_statements (hc : ChildrenAgree child child') :
    Agree (statements child i last nodes) (statements child' j last nodes) := by
  induction nodes generalizing i j last with
  | nil => exact agree_pure _
  | cons node rest ih => exact agree_bind (hc i j node) fun _ => ih

end Eval

open Eval

/-- Evaluation of a node is the same at all places. -/
theorem Node.agree_eval (host : Host) (scope : ScopeId) (depth : Nat) (path path' : Path)
    (n : Node) : Agree (n.eval host scope depth path) (n.eval host scope depth path') := by
  induction depth generalizing path path' n with
  | zero => exact agree_throw _
  | succ depth ih =>
    have hsteps := agree_congruence scope depth path path'
    apply agree_located
    exact hsteps.node host.within_univ (fun i m _ => ih (i :: path) (i :: path') m) n.within_univ

end Ember
