import Ember.Proofs.Congruence

/-!
Scopes only grow. Whatever is evaluated, and however it ends, each binding stays in its place, is
constant or not as it was, and keeps its value if it is constant.
-/

namespace Ember

set_option autoImplicit true

structure Binding.Keeps (b b' : Binding) : Prop where
  name : b'.name = b.name
  constant : b'.constant = b.constant
  value : b.constant = true → b'.value = b.value

namespace Binding.Keeps

theorem refl (b : Binding) : b.Keeps b := ⟨rfl, rfl, fun _ => rfl⟩

theorem trans {b b' b'' : Binding} (h : b.Keeps b') (h' : b'.Keeps b'') : b.Keeps b'' where
  name := h'.name.trans h.name
  constant := h'.constant.trans h.constant
  value hc := (h'.value (h.constant.trans hc)).trans (h.value hc)

theorem eq_of_constant {b b' : Binding} (h : b.Keeps b') (hc : b.constant = true) : b' = b := by
  obtain ⟨name, value, constant⟩ := b
  obtain ⟨name', value', constant'⟩ := b'
  obtain ⟨rfl, rfl, hv⟩ := h
  obtain rfl := hv hc
  rfl

end Binding.Keeps

namespace Scope

def constants (s : Scope) : List String :=
  (s.bindings.filter (·.constant)).map (·.name)

theorem constants_subset (s : Scope) : s.constants ⊆ s.names :=
  List.map_subset _ (List.filter_subset_self _)

/-- A scope later on: bindings stay in their places, and new ones come after them. -/
structure Grows (s s' : Scope) : Prop where
  enclosing : s'.enclosing = s.enclosing
  keeps : ∀ (i : Nat) (b : Binding), s.bindings[i]? = some b →
    ∃ b', s'.bindings[i]? = some b' ∧ b.Keeps b'

namespace Grows

theorem refl (s : Scope) : s.Grows s := ⟨rfl, fun _ b hb => ⟨b, hb, .refl b⟩⟩

theorem trans {s s' s'' : Scope} (h : s.Grows s') (h' : s'.Grows s'') : s.Grows s'' where
  enclosing := h'.enclosing.trans h.enclosing
  keeps i b hb := by
    obtain ⟨b', hb', hk⟩ := h.keeps i b hb
    obtain ⟨b'', hb'', hk'⟩ := h'.keeps i b' hb'
    exact ⟨b'', hb'', hk.trans hk'⟩

theorem names_prefix {s s' : Scope} (h : s.Grows s') : s.names <+: s'.names := by
  rw [List.prefix_iff_getElem?]
  intro i hi
  have hi : i < s.bindings.length := by simpa [names] using hi
  obtain ⟨b', hb', hk⟩ := h.keeps i _ (List.getElem?_eq_getElem hi)
  simp [names, hb', hk.name]

end Grows

theorem find?_eq_some {s : Scope} (hd : s.names.Nodup) (hb : b ∈ s.bindings) :
    s.find? b.name = some b := by
  have hf : (s.find? b.name).isSome := by
    rw [find?, List.find?_isSome]
    exact ⟨b, hb, by simp⟩
  obtain ⟨b', hb'⟩ := Option.isSome_iff_exists.1 hf
  have hname : b'.name = b.name := by simpa using List.find?_some hb'
  have hmem := List.mem_of_find?_eq_some hb'
  rw [hb', List.inj_on_of_nodup_map hd hmem hb hname]

/-- Where a scope binds a name, it does so later on, and a constant is the same. -/
theorem Grows.find? {s s' : Scope} (h : s.Grows s') (hd : s'.names.Nodup)
    (hb : s.find? name = some b) : ∃ b', s'.find? name = some b' ∧ b.Keeps b' := by
  have hname : b.name = name := by simpa using List.find?_some hb
  obtain ⟨i, hi⟩ := List.mem_iff_getElem?.1 (List.mem_of_find?_eq_some hb)
  obtain ⟨b', hb', hk⟩ := h.keeps i b hi
  refine ⟨b', ?_, hk⟩
  rw [← hname, ← hk.name]
  exact find?_eq_some hd (List.mem_iff_getElem?.2 ⟨i, hb'⟩)

theorem owns_iff {s : Scope} : s.owns name = true ↔ name ∈ s.names := by
  simp [owns, find?, names, List.find?_isSome]

theorem declare_eq_ok {s s' : Scope} (h : s.declare b = .ok s') :
    b.name ∉ s.names ∧ s' = { s with bindings := s.bindings ++ [b] } := by
  unfold declare at h
  split at h
  · cases h
  · next ho =>
    rw [owns_iff] at ho
    exact ⟨ho, (Except.ok.inj h).symm⟩

theorem grows_declare {s s' : Scope} (hd : s.names.Nodup) (h : s.declare b = .ok s') :
    s'.names.Nodup ∧ s.Grows s' := by
  obtain ⟨hn, rfl⟩ := declare_eq_ok h
  refine ⟨?_, rfl, fun i b' hb' => ⟨b', ?_, .refl b'⟩⟩
  · rw [names, List.map_append, List.map_singleton, ← List.concat_eq_append]
    exact List.Nodup.concat hn hd
  · have hi : i < s.bindings.length := (List.getElem?_eq_some_iff.1 hb').1
    rw [List.getElem?_append_left hi, hb']

theorem names_update (s : Scope) (name : String) (value : Value) :
    (s.update name value).names = s.names := by
  rw [names, update, List.map_map]
  apply List.map_congr_left
  intro b _
  simp only [Function.comp_apply]
  split <;> rfl

theorem grows_update {s : Scope} (hd : s.names.Nodup)
    (hv : ∀ b, s.find? name = some b → b.constant = false) :
    s.Grows (s.update name value) := by
  refine ⟨rfl, fun i b hb => ⟨_, by rw [update, List.getElem?_map, hb]; rfl, ?_⟩⟩
  change b.Keeps (if b.name = name then { b with value } else b)
  split
  · next hn =>
    -- A binding of the name is the only one, so it is not constant.
    have hf := find?_eq_some hd (List.mem_iff_getElem?.2 ⟨i, hb⟩)
    have hc := hv b (hn ▸ hf)
    exact ⟨rfl, rfl, fun h => by rw [hc] at h; cases h⟩
  · exact .refl b

end Scope

namespace Forest

variable {f f' f'' : Forest} {id : ScopeId} {s : Scope}

/-- No scope binds a name twice. -/
def Distinct (f : Forest) : Prop := ∀ s ∈ f.scopes, s.names.Nodup

/-- A forest later on: each scope is in its place and has grown. -/
def Grows (f f' : Forest) : Prop :=
  ∀ (i : Nat) (s : Scope), f.scopes[i]? = some s → ∃ s', f'.scopes[i]? = some s' ∧ s.Grows s'

/-- A forest later on, if no scope binds a name twice. -/
def Evolves (f f' : Forest) : Prop := f.Distinct → f'.Distinct ∧ f.Grows f'

theorem Grows.refl (f : Forest) : f.Grows f := fun _ s hs => ⟨s, hs, .refl s⟩

theorem Grows.trans (h : f.Grows f') (h' : f'.Grows f'') : f.Grows f'' := by
  intro i s hs
  obtain ⟨s', hs', hg⟩ := h i s hs
  obtain ⟨s'', hs'', hg'⟩ := h' i s' hs'
  exact ⟨s'', hs'', hg.trans hg'⟩

theorem Evolves.refl (f : Forest) : f.Evolves f := fun hd => ⟨hd, .refl f⟩

theorem Evolves.trans (h : f.Evolves f') (h' : f'.Evolves f'') :
    f.Evolves f'' := by
  intro hd
  obtain ⟨hd', hg⟩ := h hd
  obtain ⟨hd'', hg'⟩ := h' hd'
  exact ⟨hd'', hg.trans hg'⟩

theorem evolves_push (f : Forest) (hs : s.names.Nodup) : f.Evolves (f.push s).2 := by
  intro hd
  refine ⟨?_, fun i s' hs' => ⟨s', ?_, .refl s'⟩⟩
  · intro s' hs'
    rcases List.mem_append.1 hs' with h | h
    · exact hd s' h
    · rwa [List.mem_singleton.1 h]
  · have hi : i < f.scopes.length := (List.getElem?_eq_some_iff.1 hs').1
    rw [push, List.getElem?_append_left hi, hs']

theorem evolves_set (f : Forest) (id : ScopeId)
    (h : (f.scope id).names.Nodup → s.names.Nodup ∧ (f.scope id).Grows s) :
    f.Evolves ⟨f.scopes.set id s⟩ := by
  intro hd
  by_cases hid : id < f.scopes.length
  · have hscope : f.scopes[id]? = some (f.scope id) := by
      simp [scope, List.getElem?_eq_getElem hid]
    obtain ⟨hs, hg⟩ := h (hd _ (List.mem_of_getElem? hscope))
    refine ⟨?_, fun i s' hs' => ?_⟩
    · intro s' hs'
      rcases List.mem_or_eq_of_mem_set hs' with h | rfl
      · exact hd s' h
      · exact hs
    · by_cases hi : i = id
      · subst hi
        rw [hscope] at hs'
        cases hs'
        exact ⟨s, by simp [hid], hg⟩
      · exact ⟨s', by simpa [Ne.symm hi] using hs', .refl s'⟩
  · rw [List.set_eq_of_length_le (Nat.le_of_not_lt hid)]
    exact ⟨hd, .refl f⟩

theorem evolves_declare (h : f.declare id b = .ok f') : f.Evolves f' := by
  unfold declare at h
  cases hs : (f.scope id).declare b with
  | error cause =>
    rw [hs] at h
    cases h
  | ok s =>
    rw [hs] at h
    cases h
    exact f.evolves_set id fun hd => Scope.grows_declare hd hs

theorem evolves_assign (h : f.assign id name value = .ok f') : f.Evolves f' := by
  unfold assign at h
  split at h
  · cases h
  · next owner _ =>
    split at h
    · cases h
    · next hf =>
      cases h
      apply f.evolves_set owner
      intro hd
      refine ⟨by rwa [Scope.names_update], Scope.grows_update hd fun b hb => ?_⟩
      obtain ⟨name', value', constant⟩ := b
      cases constant with
      | false => rfl
      | true => exact absurd hb (hf _ _)

end Forest

namespace Eval

def after (x : Eval α) (w : World) : World :=
  match x w with
  | .ok _ w' => w'
  | .error _ w' => w'

def Evolving (x : Eval α) : Prop := ∀ w : World, w.forest.Evolves (x.after w).forest

theorem evolving_pure (a : α) : Evolving (pure a) := fun _ => .refl _

theorem evolving_throw (e : Failure) : Evolving (throw e : Eval α) := fun _ => .refl _

theorem evolving_bind {x : Eval α} {f : α → Eval β} (hx : x.Evolving) (hf : ∀ a, (f a).Evolving) :
    (x >>= f).Evolving := by
  intro w
  have hx := hx w
  simp only [after, bind, EStateM.bind] at *
  cases h : x w with
  | ok a w' =>
    rw [h] at hx
    exact hx.trans (hf a w')
  | error e w' =>
    rw [h] at hx
    exact hx

theorem evolving_ofExcept (x : Except Cause α) : (ofExcept x).Evolving := by
  cases x with
  | ok a => exact evolving_pure a
  | error cause => exact evolving_throw _

theorem evolving_showable (depth : Nat) (value : Value) : (showable depth value).Evolving := by
  unfold showable
  split
  · exact evolving_pure _
  · exact evolving_throw _

theorem evolving_record (path : Path) (deed : Deed) : (record path deed).Evolving :=
  fun _ => .refl _

theorem evolving_lookup (scope : ScopeId) (name : String) : (lookup scope name).Evolving :=
  evolving_bind (fun _ => .refl _) fun _ => evolving_ofExcept _

theorem evolving_declare (scope : ScopeId) (b : Binding) : (declare scope b).Evolving := by
  intro w
  simp only [declare, after, bind, EStateM.bind, get, getThe, MonadStateOf.get, EStateM.get]
  cases h : w.forest.declare scope b with
  | ok f => exact Forest.evolves_declare h
  | error cause => exact .refl _

theorem evolving_assign (scope : ScopeId) (name : String) (value : Value) :
    (assign scope name value).Evolving := by
  intro w
  simp only [assign, after, bind, EStateM.bind, get, getThe, MonadStateOf.get, EStateM.get]
  cases h : w.forest.assign scope name value with
  | ok f => exact Forest.evolves_assign h
  | error cause => exact .refl _

theorem evolving_congruence (frame : Frame) :
    Congruence (fun x _ => x.Evolving) Set.univ frame frame where
  pure := evolving_pure
  throw := evolving_throw
  bind := evolving_bind
  showable := evolving_showable frame.depth
  record := evolving_record frame.path
  lookup name _ := evolving_lookup frame.scope name
  declare b _ := evolving_declare frame.scope b
  assign name _ := evolving_assign frame.scope name

theorem evolving_node (host : Host) (frame : Frame) {child : Child}
    (hc : ∀ i n, (child i n).Evolving) (n : Node) : (node host frame child n).Evolving :=
  @Congruence.node _ _ _ _ child child (evolving_congruence frame) host host.within_univ
    (fun i m _ => hc i m) n n.within_univ

theorem after_located (kind : NodeKind) (x : Eval α) (w : World) :
    (located kind x).after w = x.after w := by
  unfold after located
  cases x w with
  | ok a w' => rfl
  | error e w' =>
    cases e with
    | fault cause site => cases site <;> rfl
    | tooDeep | crash => rfl

end Eval

open Eval

theorem Value.evolving_call (host : Host) (frame : Frame) (callee : Value)
    (arguments : List Value) : (callee.call host frame arguments).Evolving :=
  (evolving_congruence frame).call host.within_univ callee arguments

theorem Node.evolving_eval (host : Host) (scope : ScopeId) (depth : Nat) (path : Path) (n : Node) :
    (n.eval host scope depth path).Evolving := by
  induction depth generalizing path n with
  | zero => exact evolving_throw _
  | succ depth ih =>
    intro w
    rw [eval, after_located]
    exact evolving_node host _ (fun i m => ih (i :: path) m) n w

end Ember
