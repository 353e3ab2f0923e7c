import Ember.Proofs.Blame
import Ember.Proofs.Cutoff

/-!
Object literals. Their properties are evaluated once each, in the order in which they are written;
a key stands where it came in first and has the value that came in last. A property that fails ends
the literal: what the ones before it did stays done, and those after it play no part.
-/

namespace Ember

set_option autoImplicit true

namespace Ordered

variable {α : Type}

/-- Among some pairs, the last one with this key has this value. -/
def HasLast (pairs : List (String × α)) (key : String) (value : α) : Prop :=
  ∃ before after, pairs = before ++ (key, value) :: after ∧ key ∉ after.map Prod.fst

/-- A map that some pairs make: its keys are those of the pairs in the order in which they came
in first, no key twice, and each has the value that came in last. -/
structure Collects (slots : Ordered α) (pairs : List (String × α)) : Prop where
  nodup : slots.keys.Nodup
  keys_eq : slots.keys = (pairs.map Prod.fst).eraseDups
  get?_eq_some_iff : ∀ key value, slots.get? key = some value ↔ HasLast pairs key value

theorem hasLast_concat {pairs : List (String × α)} :
    HasLast (pairs ++ [(k, v)]) key value ↔
      k = key ∧ v = value ∨ k ≠ key ∧ HasLast pairs key value := by
  constructor
  · rintro ⟨before, after, he, hk⟩
    rcases after.eq_nil_or_concat' with rfl | ⟨after, last, rfl⟩
    · obtain ⟨-, hlast⟩ := List.append_inj' he rfl
      cases hlast
      exact .inl ⟨rfl, rfl⟩
    · rw [← List.cons_append, ← List.append_assoc] at he
      obtain ⟨rfl, hlast⟩ := List.append_inj' he rfl
      cases hlast
      rw [List.map_append, List.mem_append, not_or] at hk
      exact .inr ⟨fun h => hk.2 (by simp [h]), before, after, rfl, hk.1⟩
  · rintro (⟨rfl, rfl⟩ | ⟨hk, before, after, rfl, ha⟩)
    · exact ⟨pairs, [], rfl, by simp⟩
    · exact ⟨before, after ++ [(k, v)], by simp, by simp_all [Ne.symm hk]⟩

theorem Collects.insert {slots : Ordered α} (h : slots.Collects pairs) (key : String)
    (value : α) : (slots.insert key value).Collects (pairs ++ [(key, value)]) where
  nodup := by
    rw [keys_insert]
    split
    · exact h.nodup
    · next hk => exact List.concat_eq_append ▸ h.nodup.concat hk
  keys_eq := by
    have hmem : key ∈ slots.keys ↔ key ∈ pairs.map Prod.fst := by
      rw [h.keys_eq, List.mem_eraseDups]
    rw [keys_insert, List.map_append, List.eraseDups_append, ← h.keys_eq]
    by_cases hk : key ∈ slots.keys
    · simp [hk, List.removeAll, hmem.1 hk]
    · simp [hk, List.removeAll, mt hmem.2 hk, List.eraseDups_cons]
  get?_eq_some_iff k v := by
    rw [hasLast_concat]
    by_cases hk : k = key
    · subst hk
      simp
    · rw [get?_insert_of_ne slots value hk, h.get?_eq_some_iff]
      simp [Ne.symm hk]

theorem Collects.foldl_insert {slots : Ordered α} (h : slots.Collects pairs)
    (more : List (String × α)) :
    (more.foldl (fun slots pair => slots.insert pair.1 pair.2) slots).Collects
      (pairs ++ more) := by
  induction more generalizing slots pairs with
  | nil => rwa [List.append_nil]
  | cons pair more ih =>
    rw [List.append_cons]
    exact ih (h.insert pair.1 pair.2)

theorem collects_nil : Collects ([] : Ordered α) [] :=
  ⟨.nil, rfl, fun key value => by simp [get?, HasLast]⟩

/-- Keys that stand in the same order, none twice, and have the same values. -/
theorem eq_of_keys {slots slots' : Ordered α} (hk : slots.keys = slots'.keys)
    (hd : slots.keys.Nodup) (hv : ∀ key, slots.get? key = slots'.get? key) : slots = slots' := by
  induction slots generalizing slots' with
  | nil =>
    cases slots' with
    | nil => rfl
    | cons => cases hk
  | cons pair rest ih =>
    cases slots' with
    | nil => cases hk
    | cons pair' rest' =>
      obtain ⟨k, v⟩ := pair
      obtain ⟨k', v'⟩ := pair'
      obtain ⟨rfl, hrest⟩ := List.cons.inj hk
      obtain ⟨hnew, hd⟩ := List.nodup_cons.1 hd
      have hvalue : v = v' := by simpa [get?] using hv k
      rw [hvalue, ih hrest hd fun key => ?_]
      by_cases hkey : k = key
      · subst hkey
        have hnew' : k ∉ keys rest' := by rwa [keys, ← hrest]
        rw [get?_eq_none_iff.2 hnew, get?_eq_none_iff.2 hnew']
      · simpa [get?, hkey] using hv key

theorem Collects.unique {slots slots' : Ordered α} (h : slots.Collects pairs)
    (h' : slots'.Collects pairs) : slots = slots' := by
  apply eq_of_keys (h.keys_eq.trans h'.keys_eq.symm) h.nodup
  intro key
  apply Option.ext
  intro value
  rw [h.get?_eq_some_iff, h'.get?_eq_some_iff]

theorem Collects.get?_eq_none_iff {slots : Ordered α} (h : slots.Collects pairs)
    {key : String} : slots.get? key = none ↔ key ∉ pairs.map Prod.fst := by
  rw [Ordered.get?_eq_none_iff, h.keys_eq, List.mem_eraseDups]

end Ordered

/-- A property of an object literal: `key: value`, or a key alone. -/
structure Property where
  key : String
  given : Option Node

namespace Property

def toNode (p : Property) : Node := .property p.key p.given

def literal (properties : List Property) : Node := .object (properties.map toNode)

/-- The value that a property has for its key: that of the node after the key, or else the one that
the variable of this name has just then. -/
def eval (host : Host) (scope : ScopeId) (depth : Nat) (path : Path) (p : Property) : Eval Value :=
  match p.given with
  | some node => node.eval host scope depth path
  | none => Eval.lookup scope p.key

/-- Properties give pairs, one after the other and from the `i`-th child of a place on. Each is
evaluated in the world that the one before it leaves. -/
inductive Yields (host : Host) (scope : ScopeId) (depth : Nat) (path : Path) :
    Nat → List Property → World → List (String × Value) → World → Prop where
  | nil : Yields host scope depth path i [] w [] w
  | cons : p.eval host scope depth (i :: path) w = .ok value w₁ →
    Yields host scope depth path (i + 1) rest w₁ pairs w' →
    Yields host scope depth path i (p :: rest) w ((p.key, value) :: pairs) w'

def Breaks (host : Host) (scope : ScopeId) (depth : Nat) (path : Path) (before : List Property)
    (p : Property) (w w₁ : World) (e : Failure) (w' : World) : Prop :=
  (∃ pairs, Yields host scope depth path 0 before w pairs w₁) ∧
    p.eval host scope depth (before.length :: path) w₁ = .error e w'

end Property

/-- A member access that comes upon an object with these slots and asks for this key, by its name or
by a value that it computes; and the world once both are known. -/
inductive Node.Accesses (host : Host) (scope : ScopeId) (depth : Nat) (path : Path)
    (slots : Ordered Value) (key : String) (w : World) : Node → World → Prop where
  | named {owner : Node} : owner.eval host scope depth (0 :: path) w = .ok (.object slots) w' →
    Accesses host scope depth path slots key w (.member owner (.identifier key) false) w'
  | computed {owner index : Node} :
    owner.eval host scope depth (0 :: path) w = .ok (.object slots) w₁ →
    index.eval host scope depth (1 :: path) w₁ = .ok value w' →
    (value = .string key ∨ ∃ x, value = .number x ∧ x.text = key) →
    Accesses host scope depth path slots key w (.member owner index true) w'

open Eval Node

section

variable {host : Host} {scope : ScopeId} {depth : Nat} {path : Path}

namespace Property

theorem slot_toNode (p : Property) (i : Nat) :
    slot (children host scope depth path) scope i p.toNode =
      p.eval host scope depth (i :: path) >>= fun value => pure (p.key, value) := by
  obtain ⟨key, given⟩ := p
  cases given <;> rfl

theorem slots_of_ok {p : Property} (hp : p.eval host scope depth (i :: path) w = .ok value w₁)
    (done : Ordered Value) (nodes : List Node) :
    slots (children host scope depth path) scope i done (p.toNode :: nodes) w =
      slots (children host scope depth path) scope (i + 1) (done.insert p.key value) nodes w₁ := by
  rw [slots, slot_toNode]
  simp only [bind, EStateM.bind, pure, EStateM.pure, hp]

theorem slots_of_error {p : Property} (hp : p.eval host scope depth (i :: path) w = .error e w')
    (done : Ordered Value) (nodes : List Node) :
    slots (children host scope depth path) scope i done (p.toNode :: nodes) w = .error e w' := by
  rw [slots, slot_toNode]
  simp only [bind, EStateM.bind, hp]

/-- Where all properties have values, the slots are their pairs, put in one after the other. -/
theorem slots_eq_ok_iff {properties : List Property} {done : Ordered Value} :
    slots (children host scope depth path) scope i done (properties.map toNode) w = .ok found w' ↔
      ∃ pairs, Yields host scope depth path i properties w pairs w' ∧
        found = pairs.foldl (fun done pair => done.insert pair.1 pair.2) done := by
  induction properties generalizing i done w with
  | nil =>
    constructor
    · intro h
      cases h
      exact ⟨[], .nil, rfl⟩
    · rintro ⟨_, ⟨⟩, rfl⟩
      rfl
  | cons p rest ih =>
    rw [List.map_cons]
    constructor
    · intro h
      cases hp : p.eval host scope depth (i :: path) w with
      | error e w₁ =>
        rw [slots_of_error hp] at h
        cases h
      | ok value w₁ =>
        rw [slots_of_ok hp, ih] at h
        obtain ⟨pairs, hy, he⟩ := h
        exact ⟨_, .cons hp hy, he⟩
    · rintro ⟨_, hy, he⟩
      cases hy with
      | cons hp hy =>
        rw [slots_of_ok hp, ih]
        exact ⟨_, hy, he⟩

/-- The slots fail where the first property fails. -/
theorem slots_eq_error_iff {properties : List Property} {done : Ordered Value} :
    slots (children host scope depth path) scope i done (properties.map toNode) w = .error e w' ↔
      ∃ before p after pairs w₁, properties = before ++ p :: after ∧
        Yields host scope depth path i before w pairs w₁ ∧
        p.eval host scope depth ((i + before.length) :: path) w₁ = .error e w' := by
  constructor
  · intro h
    induction properties generalizing i done w with
    | nil => cases h
    | cons p rest ih =>
      rw [List.map_cons] at h
      cases hp : p.eval host scope depth (i :: path) w with
      | error e₁ w₁ =>
        rw [slots_of_error hp] at h
        cases h
        exact ⟨[], p, rest, [], w, rfl, .nil, hp⟩
      | ok value w₁ =>
        rw [slots_of_ok hp] at h
        obtain ⟨before, q, after, pairs, w₂, rfl, hy, hq⟩ := ih h
        refine ⟨p :: before, q, after, _, w₂, rfl, .cons hp hy, ?_⟩
        rwa [List.length_cons, Nat.add_comm before.length, ← Nat.add_assoc]
  · rintro ⟨before, p, after, pairs, w₁, rfl, hy, hp⟩
    rw [List.map_append, List.map_cons]
    induction hy generalizing done with
    | nil => exact slots_of_error hp done _
    | cons hq _ ih =>
      rw [List.map_cons, List.cons_append, slots_of_ok hq]
      apply ih
      rwa [List.length_cons, Nat.add_comm (List.length _), ← Nat.add_assoc] at hp

theorem Yields.keys_eq {properties : List Property}
    (h : Yields host scope depth path i properties w pairs w') :
    pairs.map Prod.fst = properties.map key := by
  induction h with
  | nil => rfl
  | cons _ _ ih => rw [List.map_cons, List.map_cons, ih]

theorem Yields.split {before after : List Property}
    (h : Yields host scope depth path i (before ++ p :: after) w pairs w') :
    ∃ seen value later w₁ w₂, pairs = seen ++ (p.key, value) :: later ∧
      Yields host scope depth path i before w seen w₁ ∧
      p.eval host scope depth ((i + before.length) :: path) w₁ = .ok value w₂ ∧
      Yields host scope depth path (i + before.length + 1) after w₂ later w' := by
  induction before generalizing i w pairs with
  | nil =>
    cases h with
    | cons hp hy => exact ⟨[], _, _, _, _, rfl, .nil, hp, hy⟩
  | cons q before ih =>
    cases h with
    | cons hq hy =>
      obtain ⟨seen, value, later, w₁, w₂, rfl, hb, hp, ha⟩ := ih hy
      refine ⟨_, value, later, w₁, w₂, rfl, .cons hq hb, ?_⟩
      rw [List.length_cons, Nat.add_comm before.length, ← Nat.add_assoc]
      exact ⟨hp, ha⟩

end Property

theorem Node.Accesses.eval_eq {m : Node} {slots : Ordered Value}
    (h : Accesses host scope depth path slots key w m w') :
    m.eval host scope (depth + 1) path w =
      match slots.get? key with
      | some value => .ok value w'
      | none => .error (.fault (.missingKey key) (some .member)) w' := by
  have hread {m : Node} (hk : m.kind = .member)
      (hm : Eval.node host ⟨scope, path, depth⟩ (children host scope depth path) m w =
        Script.read slots key w') :
      m.eval host scope (depth + 1) path w =
        match slots.get? key with
        | some value => .ok value w'
        | none => .error (.fault (.missingKey key) (some .member)) w' := by
    rw [Node.eval, located, hm, Script.read, hk]
    cases slots.get? key <;> rfl
  cases h with
  | named ho =>
    refine hread rfl ?_
    simp only [Eval.node, bind, EStateM.bind, children, ho]
    rfl
  | computed ho hi hv =>
    refine hread rfl ?_
    simp only [Eval.node, memberKey, bind, EStateM.bind, children, ho, if_true, hi]
    rcases hv with rfl | ⟨x, rfl, rfl⟩ <;> rfl

theorem Node.Accesses.reads {m : Node} {slots : Ordered Value}
    (h : Accesses host scope depth path slots key w m w') (hc : slots.Collects pairs) :
    (∀ value, m.eval host scope (depth + 1) path w = .ok value w' ↔
      Ordered.HasLast pairs key value) ∧
    (m.eval host scope (depth + 1) path w =
        .error (.fault (.missingKey key) (some .member)) w' ↔
      key ∉ pairs.map Prod.fst) := by
  rw [← hc.get?_eq_none_iff, h.eval_eq]
  constructor
  · intro value
    rw [← hc.get?_eq_some_iff]
    cases slots.get? key <;> simp
  · cases slots.get? key <;> simp

theorem Node.eval_object (nodes : List Node) (w : World) :
    (Node.object nodes).eval host scope (depth + 1) path w =
      match slots (children host scope depth path) scope 0 [] nodes w with
      | .ok found w' => .ok (.object found) w'
      | .error e w' => .error (e.locate .object) w' := by
  cases h : slots (children host scope depth path) scope 0 [] nodes w with
  | ok found w' =>
    simp only [Node.eval, located, Eval.node, bind, EStateM.bind, h]
    rfl
  | error e w' =>
    apply located_eq_error
    simp only [Eval.node, bind, EStateM.bind, h]

namespace Property

theorem literal_eq_ok_iff {properties : List Property} :
    (literal properties).eval host scope (depth + 1) path w = .ok value w' ↔
      ∃ pairs, ∃ slots : Ordered Value,
        Yields host scope depth path 0 properties w pairs w' ∧ slots.Collects pairs ∧
        value = .object slots := by
  rw [literal, Node.eval_object]
  constructor
  · intro h
    split at h
    · next hs =>
      cases h
      obtain ⟨pairs, hy, rfl⟩ := slots_eq_ok_iff.1 hs
      exact ⟨pairs, _, hy, Ordered.collects_nil.foldl_insert pairs, rfl⟩
    · cases h
  · rintro ⟨pairs, slots, hy, hc, rfl⟩
    rw [slots_eq_ok_iff.2 ⟨pairs, hy, rfl⟩]
    exact congrArg (EStateM.Result.ok · w')
      (congrArg Value.object ((Ordered.collects_nil.foldl_insert pairs).unique hc))

theorem literal_eq_error_iff {properties : List Property} :
    (literal properties).eval host scope (depth + 1) path w = .error e w' ↔
      ∃ before p after w₁ e', properties = before ++ p :: after ∧
        Breaks host scope depth path before p w w₁ e' w' ∧ e = e'.locate .object := by
  rw [literal, Node.eval_object]
  constructor
  · intro h
    split at h
    · cases h
    · next hs =>
      cases h
      obtain ⟨before, p, after, pairs, w₁, he, hy, hp⟩ := slots_eq_error_iff.1 hs
      rw [Nat.zero_add] at hp
      exact ⟨before, p, after, w₁, _, he, ⟨⟨pairs, hy⟩, hp⟩, rfl⟩
  · rintro ⟨before, p, after, w₁, e', he, ⟨⟨pairs, hy⟩, hp⟩, rfl⟩
    rw [← Nat.zero_add before.length] at hp
    rw [slots_eq_error_iff.2 ⟨before, p, after, pairs, w₁, he, hy, hp⟩]

theorem exists_undergoes {x : Eval α} (hx : Extends scope x x) (w : World) :
    ∃ feats, w.Undergoes scope feats (x.after w) := by
  have h := hx w
  unfold after
  generalize x w = r at h
  cases h with
  | ok h | error h => exact ⟨_, h⟩
  | cutError h _ => exact ⟨_, h⟩

theorem extends_eval (p : Property) (path : Path) :
    Extends scope (p.eval host scope depth path) (p.eval host scope depth path) := by
  unfold eval
  split
  · exact Node.extends_eval host scope (Nat.le_refl _) _ _
  · exact extends_lookup _

theorem Yields.exists_undergoes {properties : List Property}
    (h : Yields host scope depth path i properties w pairs w') :
    ∃ feats, w.Undergoes scope feats w' := by
  induction h with
  | nil => exact ⟨[], .nothing⟩
  | @cons i _ _ _ _ p w _ hp _ ih =>
    obtain ⟨feats, hf⟩ := Property.exists_undergoes (p.extends_eval (i :: path)) w
    rw [after, hp] at hf
    obtain ⟨more, hm⟩ := ih
    exact ⟨feats ++ more, hf.append hm⟩

end Property

namespace Node

theorem eval_placeholder_ne_ok (held : Placeholder) (depth : Nat) (path : Path) (w : World) :
    (Node.placeholder held).eval host scope depth path w ≠ .ok value w' := by
  cases depth <;> nofun

theorem exists_property_of_slot {n : Node}
    (h : slot (children host scope depth path) scope i n w = .ok pair w') :
    ∃ p : Property, n = p.toNode := by
  -- A node that has a value but no key fails, at the latest after its value.
  have hkeyless (value : Node) (e : Failure) :
      (if value.kind ≠ .placeholder .absent then
        children host scope depth path i value >>= fun _ => throw e
        else throw e : Eval (String × Value)) w ≠ .ok pair w' := by
    split
    · simp only [bind, EStateM.bind]
      split <;> nofun
    · nofun
  cases n with
  | property key given => exact ⟨⟨key, given⟩, rfl⟩
  | number x =>
    simp only [slot, bind, EStateM.bind] at h
    split at h
    · next hc => exact absurd hc (eval_placeholder_ne_ok _ _ _ _)
    · cases h
  | string s =>
    simp only [slot, bind, EStateM.bind] at h
    split at h
    · next hc => exact absurd hc (eval_placeholder_ne_ok _ _ _ _)
    · cases h
  | declaration name constant value? =>
    cases value? with
    | none => cases h
    | some value => exact absurd h (hkeyless value _)
  | assignment target value => exact absurd h (hkeyless value _)
  | _ => cases h

theorem exists_properties_of_slots {nodes : List Node}
    (h : slots (children host scope depth path) scope i done nodes w = .ok found w') :
    ∃ properties : List Property, nodes = properties.map Property.toNode := by
  induction nodes generalizing i done w with
  | nil => exact ⟨[], rfl⟩
  | cons n rest ih =>
    simp only [slots, bind, EStateM.bind] at h
    split at h
    · next hs =>
      obtain ⟨p, rfl⟩ := exists_property_of_slot hs
      obtain ⟨properties, rfl⟩ := ih h
      exact ⟨p :: properties, rfl⟩
    · cases h

theorem exists_properties {nodes : List Node}
    (h : (Node.object nodes).eval host scope (depth + 1) path w = .ok value w') :
    ∃ properties : List Property, nodes = properties.map Property.toNode := by
  rw [eval_object] at h
  split at h
  · next hs => exact exists_properties_of_slots hs
  · cases h

end Node

namespace Property

theorem lookup_of_eval {p : Property} (hg : p.given = none)
    (h : p.eval host scope depth path w = .ok value w') :
    w' = w ∧ w.forest.lookup scope p.key = .ok value := by
  simp only [eval, hg, Eval.lookup, bind, EStateM.bind, get, getThe, MonadStateOf.get,
    EStateM.get] at h
  cases hl : w.forest.lookup scope p.key with
  | error cause =>
    rw [hl] at h
    cases h
  | ok found =>
    rw [hl] at h
    cases h
    exact ⟨rfl, rfl⟩

theorem Breaks.exists_undergoes {before : List Property}
    (h : Breaks host scope depth path before p w w₁ e w') :
    ∃ done more, w.Undergoes scope done w₁ ∧ w₁.Undergoes scope more w' := by
  obtain ⟨⟨pairs, hy⟩, hp⟩ := h
  obtain ⟨done, hd⟩ := hy.exists_undergoes
  obtain ⟨more, hm⟩ := Property.exists_undergoes (p.extends_eval (before.length :: path)) w₁
  rw [after, hp] at hm
  exact ⟨done, more, hd, hm⟩

/-- An object literal is an ordered map. It has a value if its properties have values, each
evaluated once and in the world that the ones before it leave; a property that is a key alone reads
its variable in that world. The slots stand in the order in which their keys come in first and have
the values that come in last, and these are what accesses to the value read; there is no other key.
A literal fails as its first property does that fails: what was done before stays done, and the
properties after it do not matter. -/
theorem literal_ordered (host : Host) (scope : ScopeId) (depth : Nat) (path : Path)
    (properties : List Property) (w : World) :
    (∀ nodes value w', (Node.object nodes).eval host scope (depth + 1) path w = .ok value w' →
      ∃ properties, Node.object nodes = literal properties) ∧
    (∀ value w', (literal properties).eval host scope (depth + 1) path w = .ok value w' ↔
      ∃ pairs, ∃ slots : Ordered Value,
        Yields host scope depth path 0 properties w pairs w' ∧ slots.Collects pairs ∧
        value = .object slots) ∧
    (∀ pairs w', Yields host scope depth path 0 properties w pairs w' →
      pairs.map Prod.fst = properties.map key ∧
      (∀ before p after, properties = before ++ p :: after →
        ∃ seen value later w₁ w₂, pairs = seen ++ (p.key, value) :: later ∧
          Yields host scope depth path 0 before w seen w₁ ∧
          p.eval host scope depth (before.length :: path) w₁ = .ok value w₂ ∧
          Yields host scope depth path (before.length + 1) after w₂ later w' ∧
          (p.given = none → w₂ = w₁ ∧ w₁.forest.lookup scope p.key = .ok value)) ∧
      ∀ slots : Ordered Value, slots.Collects pairs →
        ∀ host' scope' depth' path' name m v v',
          Node.Accesses host' scope' depth' path' slots name v m v' →
            (∀ value, m.eval host' scope' (depth' + 1) path' v = .ok value v' ↔
              Ordered.HasLast pairs name value) ∧
            (m.eval host' scope' (depth' + 1) path' v =
                .error (.fault (.missingKey name) (some .member)) v' ↔
              name ∉ properties.map key)) ∧
    (∀ e w', (literal properties).eval host scope (depth + 1) path w = .error e w' ↔
      ∃ before p after w₁ e', properties = before ++ p :: after ∧
        Breaks host scope depth path before p w w₁ e' w' ∧ e = e'.locate .object) ∧
    ∀ before p w₁ e w', Breaks host scope depth path before p w w₁ e w' →
      (∃ done more, w.Undergoes scope done w₁ ∧ w₁.Undergoes scope more w') ∧
      ∀ after, (literal (before ++ p :: after)).eval host scope (depth + 1) path w =
        .error (e.locate .object) w' := by
  refine ⟨fun nodes value w' h => ?_, fun _ _ => literal_eq_ok_iff, fun pairs w' hy => ?_,
    fun _ _ => literal_eq_error_iff, fun before p w₁ e w' hb => ?_⟩
  · obtain ⟨properties, hp⟩ := Node.exists_properties h
    exact ⟨properties, congrArg Node.object hp⟩
  · refine ⟨hy.keys_eq, ?_, fun slots hc _ _ _ _ name m v v' ha => hy.keys_eq ▸ ha.reads hc⟩
    rintro before p after rfl
    obtain ⟨seen, value, later, w₁, w₂, he, hb, hp, ha⟩ := hy.split
    rw [Nat.zero_add] at hp ha
    exact ⟨seen, value, later, w₁, w₂, he, hb, hp, ha, fun hg => lookup_of_eval hg hp⟩
  · exact ⟨hb.exists_undergoes, fun after =>
      literal_eq_error_iff.2 ⟨before, p, after, w₁, e, rfl, hb, rfl⟩⟩

/-- A variable is read, assigned and read again under the same key. Its second value is then read
from the object, another key is not there, and after a name that is not bound nothing is printed. -/
theorem literal_ordered_repeated :
    let w := World.ofForest ⟨[⟨[], [⟨"x", .string "1", false⟩]⟩]⟩
    let w' : World := ⟨⟨[⟨[], [⟨"x", .string "2", false⟩]⟩]⟩, [⟨[1, 0], .assigned "x"⟩]⟩
    let properties : List Property :=
      [⟨"x", none⟩, ⟨"a", some (.assignment (.identifier "x") (.string "2"))⟩, ⟨"x", none⟩]
    let pairs := [("x", Value.string "1"), ("a", .string "2"), ("x", .string "2")]
    let slots : Ordered Value := [("x", .string "2"), ("a", .string "2")]
    let more : List Property := [⟨"y", none⟩, ⟨"z", some (.call (.identifier "print") [])⟩]
    Yields (.standard 0) 0 2 [0] 0 properties w pairs w' ∧ slots.Collects pairs ∧
      (literal properties).eval (.standard 0) 0 3 [0] w = .ok (.object slots) w' ∧
      (Node.member (literal properties) (.identifier "x") false).eval (.standard 0) 0 4 [] w =
        .ok (.string "2") w' ∧
      (Node.member (literal properties) (.identifier "b") false).eval (.standard 0) 0 4 [] w =
        .error (.fault (.missingKey "b") (some .member)) w' ∧
      (literal (properties ++ more)).eval (.standard 0) 0 3 [0] w =
        .error (.fault (.unresolved "y") (some .object)) w' := by
  intro w w' properties pairs slots more
  have hy : Yields (.standard 0) 0 2 [0] 0 properties w pairs w' :=
    .cons rfl (.cons rfl (.cons rfl .nil))
  have hc : slots.Collects pairs := Ordered.collects_nil.foldl_insert pairs
  obtain ⟨-, heval, hread, -, hbreak⟩ := literal_ordered (.standard 0) 0 2 [0] properties w
  have hl := (heval _ _).2 ⟨pairs, slots, hy, hc, rfl⟩
  have haccess name := (hread pairs w' hy).2.2 slots hc (.standard 0) 0 3 [] name
    (.member (literal properties) (.identifier name) false) w w' (.named hl)
  have hlast : Ordered.HasLast pairs "x" (.string "2") :=
    ⟨[("x", .string "1"), ("a", .string "2")], [], rfl, List.not_mem_nil⟩
  have hunbound : Breaks (.standard 0) 0 2 [0] properties ⟨"y", none⟩ w w'
      (.fault (.unresolved "y") none) w' := ⟨⟨pairs, hy⟩, rfl⟩
  exact ⟨hy, hc, hl, ((haccess "x").1 _).2 hlast, (haccess "b").2.2 (by decide),
    (hbreak properties ⟨"y", none⟩ w' _ w' hunbound).2 _⟩

end Property

end

end Ember
