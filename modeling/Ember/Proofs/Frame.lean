import Ember.Proofs.Congruence
import Ember.Proofs.Resolution
import Ember.Proofs.Schedule

/-!
What evaluation leaves alone. In the scope of the evaluation new names come from the declarations of
the tree, and in it and the scopes around it other values come from the assignments of the tree. All
else stays as it is, whether evaluation ends or fails.
-/

namespace Ember

set_option autoImplicit true

namespace Node

/-- The nodes directly inside a node. The body of a function does not count. -/
def parts : Node → List Node
  | .program body => body
  | .declaration _ _ value? | .property _ value? => value?.toList
  | .assignment target value => [target, value]
  | .binary left right _ => [left, right]
  | .member owner key _ => [owner, key]
  | .call callee arguments => callee :: arguments
  | .object properties => properties
  | .function .. | .identifier _ | .number _ | .string _ | .null | .placeholder _ => []

/-- A node occurs in a tree, outside the bodies of functions. -/
inductive Occurs (m : Node) : Node → Prop where
  | root : Occurs m m
  | inside : part ∈ n.parts → Occurs m part → Occurs m n

def Declares (n : Node) (name : String) : Prop :=
  ∃ constant value?, Occurs (.declaration name constant value?) n

def Assigns (n : Node) (name : String) : Prop :=
  ∃ value, Occurs (.assignment (.identifier name) value) n

inductive Accounts (n : Node) : Act → Prop where
  | declare : n.Declares name → Accounts n (.declare name)
  | assign : n.Assigns name → Accounts n (.assign name)
  | call : Accounts n .call

def AccountsFor (n : Node) (effects : List Effect) : Prop := ∀ e ∈ effects, n.Accounts e.act

namespace AccountsFor

variable {m n : Node} {effects effects' : List Effect}

theorem nil : n.AccountsFor [] := nofun

theorem single (h : n.Accounts act) (path : Path) : n.AccountsFor [⟨path, act⟩] := by
  intro e he
  rwa [List.mem_singleton.1 he]

theorem append (h : n.AccountsFor effects) (h' : n.AccountsFor effects') :
    n.AccountsFor (effects ++ effects') :=
  List.forall_mem_append.2 ⟨h, h'⟩

theorem inside (h : m.AccountsFor effects) (hm : m ∈ n.parts) : n.AccountsFor effects := by
  intro e he
  have ha := h e he
  generalize e.act = act at ha
  cases ha with
  | declare hd =>
    obtain ⟨constant, value?, ho⟩ := hd
    exact .declare ⟨constant, value?, .inside hm ho⟩
  | assign ha =>
    obtain ⟨value, ho⟩ := ha
    exact .assign ⟨value, .inside hm ho⟩
  | call => exact .call

end AccountsFor

theorem accountsFor_schedule (path : Path) (n : Node) : n.AccountsFor (n.schedule path) := by
  induction path, n using Node.schedule.induct
      (motive_2 := fun path i nodes =>
        ∀ n : Node, nodes ⊆ n.parts → n.AccountsFor (entriesFrom path i nodes))
      (motive_3 := fun path n => n.AccountsFor (n.entrySchedule path))
      (motive_4 := fun path i nodes =>
        ∀ n : Node, nodes ⊆ n.parts → n.AccountsFor (scheduleFrom path i nodes)) with
  | case1 path body ih => exact ih _ (List.Subset.refl body)
  | case2 path name constant => exact .single (.declare ⟨constant, none, .root⟩) path
  | case3 path name constant value ih =>
    have hvalue := ih.inside (n := .declaration name constant value) (by simp [parts])
    exact hvalue.append (.single (.declare ⟨constant, value, .root⟩) path)
  | case4 path name value ih =>
    have hvalue := ih.inside (n := .assignment (.identifier name) value) (by simp [parts])
    exact hvalue.append (.single (.assign ⟨value, .root⟩) path)
  | case5 path left right operator ihl ihr =>
    exact (ihl.inside (by simp [parts])).append (ihr.inside (by simp [parts]))
  | case6 path callee arguments iha ihc =>
    have harguments := iha (.call callee arguments) (List.subset_cons_self _ _)
    have hcallee := ihc.inside (n := .call callee arguments) List.mem_cons_self
    exact (harguments.append hcallee).append (.single .call path)
  | case7 path owner key computed iho ihk =>
    rw [schedule]
    apply (iho.inside (by simp [parts])).append
    split
    · exact ihk.inside (by simp [parts])
    · exact .nil
  | case8 path properties ih => exact ih _ (List.Subset.refl properties)
  | case9 n path =>
    rw [schedule]
    · exact .nil
    all_goals assumption
  | case10 path key value ih => exact AccountsFor.inside (m := value) ih (by simp [parts])
  | case11 path name constant value ih => exact AccountsFor.inside (m := value) ih (by simp [parts])
  | case12 path target value ih => exact AccountsFor.inside (m := value) ih (by simp [parts])
  | case13 n path =>
    rw [entrySchedule]
    · exact .nil
    all_goals assumption
  | case14 | case16 => exact .nil
  | case15 path i node rest ih ihr n hn =>
    obtain ⟨hnode, hrest⟩ := List.cons_subset.1 hn
    exact (ih.inside hnode).append (ihr n hrest)
  | case17 path i node rest ih ihr n hn =>
    obtain ⟨hnode, hrest⟩ := List.cons_subset.1 hn
    exact (ih.inside hnode).append (ihr n hrest)

end Node

/-- A binding that stays, but for its value: a variable may have another one if it was assigned. -/
structure Binding.Revalued (assigned : String → Prop) (b b' : Binding) : Prop where
  name : b'.name = b.name
  constant : b'.constant = b.constant
  value : b'.value = b.value ∨ b.constant = false ∧ assigned b.name

theorem Binding.Revalued.refl (b : Binding) : b.Revalued assigned b := ⟨rfl, rfl, .inl rfl⟩

theorem Binding.Revalued.trans {b b' b'' : Binding} (h : b.Revalued assigned b')
    (h' : b'.Revalued assigned b'') : b.Revalued assigned b'' where
  name := h'.name.trans h.name
  constant := h'.constant.trans h.constant
  value := by
    rcases h'.value with hv | hv
    · rw [hv]
      exact h.value
    · rw [h.constant, h.name] at hv
      exact .inr hv

theorem Binding.Revalued.eq {b b' : Binding} (h : b.Revalued assigned b')
    (ha : ∀ name, ¬ assigned name) : b' = b := by
  obtain ⟨name, value, constant⟩ := b
  obtain ⟨name', value', constant'⟩ := b'
  obtain ⟨rfl, rfl, rfl | ⟨-, hn⟩⟩ := h
  · rfl
  · exact absurd hn (ha _)

namespace Scope

def headers (s : Scope) : List (String × Bool) := s.bindings.map fun b => (b.name, b.constant)

theorem names_eq (s : Scope) : s.names = s.headers.map (·.1) := by
  rw [names, headers, List.map_map]
  rfl

theorem constants_eq (s : Scope) : s.constants = (s.headers.filter (·.2)).map (·.1) := by
  rw [constants, headers, List.filter_map, List.map_map]
  rfl

/-- A scope later on: its bindings stay, but for values that were assigned, and what comes after
them was declared. -/
structure Differs (declared assigned : String → Prop) (s s' : Scope) : Prop where
  enclosing : s'.enclosing = s.enclosing
  kept : ∀ (i : Nat) (b : Binding), s.bindings[i]? = some b →
    ∃ b', s'.bindings[i]? = some b' ∧ b.Revalued assigned b'
  added : ∀ (i : Nat) (b : Binding), s'.bindings[i]? = some b → s.bindings[i]? = none →
    declared b.name

namespace Differs

variable {s s' s'' : Scope}

theorem refl (s : Scope) : s.Differs declared assigned s where
  enclosing := rfl
  kept _ b hb := ⟨b, hb, .refl b⟩
  added _ b hb hn := by simp [hb] at hn

theorem trans (h : s.Differs declared assigned s') (h' : s'.Differs declared assigned s'') :
    s.Differs declared assigned s'' where
  enclosing := h'.enclosing.trans h.enclosing
  kept i b hb := by
    obtain ⟨b', hb', hr⟩ := h.kept i b hb
    obtain ⟨b'', hb'', hr'⟩ := h'.kept i b' hb'
    exact ⟨b'', hb'', hr.trans hr'⟩
  added i b hb hn := by
    cases hb' : s'.bindings[i]? with
    | none => exact h'.added i b hb hb'
    | some b' =>
      obtain ⟨b'', hb'', hr⟩ := h'.kept i b' hb'
      rw [hb] at hb''
      obtain rfl := Option.some.inj hb''
      rw [hr.name]
      exact h.added i b' hb' hn

/-- Names and whether they are constant stay as they were, and what comes after them was declared. -/
theorem exists_headers (h : s.Differs declared assigned s') :
    ∃ rest, s'.headers = s.headers ++ rest ∧ ∀ header ∈ rest, declared header.1 := by
  have hp : s.headers <+: s'.headers := by
    rw [List.prefix_iff_getElem?]
    intro i hi
    have hi : i < s.bindings.length := by simpa [headers] using hi
    obtain ⟨b', hb', hr⟩ := h.kept i _ (List.getElem?_eq_getElem hi)
    simp [headers, hb', hr.name, hr.constant]
  obtain ⟨rest, hrest⟩ := hp
  refine ⟨rest, hrest.symm, fun header hh => ?_⟩
  obtain ⟨i, hi⟩ := List.mem_iff_getElem?.1 hh
  have hlast : s'.headers[s.headers.length + i]? = some header := by
    rw [← hrest, List.getElem?_append_right (Nat.le_add_right _ _), Nat.add_sub_cancel_left, hi]
  rw [headers, List.getElem?_map, Option.map_eq_some_iff] at hlast
  obtain ⟨b, hb, rfl⟩ := hlast
  apply h.added _ b hb
  rw [List.getElem?_eq_none_iff, headers, List.length_map]
  exact Nat.le_add_right _ _

theorem headers_eq (h : s.Differs declared assigned s') (hd : ∀ name, ¬ declared name) :
    s'.headers = s.headers := by
  obtain ⟨rest, hrest, hn⟩ := h.exists_headers
  cases rest with
  | nil => rw [hrest, List.append_nil]
  | cons header rest => exact absurd (hn header List.mem_cons_self) (hd _)

theorem eq (h : s.Differs declared assigned s') (hd : ∀ name, ¬ declared name)
    (ha : ∀ name, ¬ assigned name) : s' = s := by
  have hlength : s'.bindings.length = s.bindings.length := by
    simpa [headers] using congrArg List.length (h.headers_eq hd)
  have hb : s'.bindings = s.bindings := by
    apply List.ext_getElem?
    intro i
    cases hi : s.bindings[i]? with
    | none => rwa [List.getElem?_eq_none_iff, hlength, ← List.getElem?_eq_none_iff]
    | some b =>
      obtain ⟨b', hb', hr⟩ := h.kept i b hi
      rw [hb', hr.eq ha]
  obtain ⟨enclosing, bindings⟩ := s'
  obtain rfl : enclosing = s.enclosing := h.enclosing
  obtain rfl : bindings = s.bindings := hb
  rfl

end Differs

theorem differs_declare {s s' : Scope} (h : s.declare b = .ok s') (hd : declared b.name) :
    s.Differs declared assigned s' := by
  obtain ⟨-, rfl⟩ := declare_eq_ok h
  refine ⟨rfl, fun i c hc => ⟨c, ?_, .refl c⟩, fun i c hc hn => ?_⟩
  · rw [List.getElem?_append_left (List.getElem?_eq_some_iff.1 hc).1, hc]
  · rw [List.getElem?_append_right (List.getElem?_eq_none_iff.1 hn)] at hc
    rw [List.mem_singleton.1 (List.mem_of_getElem? hc)]
    exact hd

theorem differs_update {s : Scope} (hd : s.names.Nodup)
    (hv : ∀ b, s.find? name = some b → b.constant = false) (ha : assigned name) :
    s.Differs declared assigned (s.update name value) := by
  refine ⟨rfl, fun i b hb => ⟨_, by rw [update, List.getElem?_map, hb]; rfl, ?_⟩, ?_⟩
  · change b.Revalued assigned (if b.name = name then { b with value } else b)
    split
    · next hn =>
      have hf := find?_eq_some hd (List.mem_iff_getElem?.2 ⟨i, hb⟩)
      exact ⟨rfl, rfl, .inr ⟨hv b (hn ▸ hf), hn ▸ ha⟩⟩
    · exact .refl b
  · intro i b hb hn
    rw [update, List.getElem?_map, hn] at hb
    cases hb

end Scope

namespace Forest

variable {f g g' : Forest} {scope : ScopeId} {declared assigned : String → Prop}

/-- Scopes later on: some names were declared in one scope, and values given to others in it and in
the scopes around it. -/
structure Framed (scope : ScopeId) (declared assigned : String → Prop) (f g : Forest) :
    Prop where
  size : g.scopes.length = f.scopes.length
  differs : ∀ id, (f.scope id).Differs (fun name => id = scope ∧ declared name)
    (fun name => id ∈ f.lineage scope ∧ assigned name) (g.scope id)

namespace Framed

theorem refl (f : Forest) : f.Framed scope declared assigned f := ⟨rfl, fun _ => .refl _⟩

theorem lineage_eq (h : f.Framed scope declared assigned g) (id : ScopeId) :
    g.lineage id = f.lineage id := by
  rw [lineage, lineage, (h.differs id).enclosing]

theorem trans (h : f.Framed scope declared assigned g) (h' : g.Framed scope declared assigned g') :
    f.Framed scope declared assigned g' where
  size := h'.size.trans h.size
  differs id := by
    have hd := h'.differs id
    rw [h.lineage_eq] at hd
    exact (h.differs id).trans hd

theorem set (f : Forest) {id : ScopeId} {s : Scope}
    (h : (f.scope id).Differs (fun name => id = scope ∧ declared name)
      (fun name => id ∈ f.lineage scope ∧ assigned name) s) :
    f.Framed scope declared assigned ⟨f.scopes.set id s⟩ where
  size := List.length_set
  differs i := by
    rw [scope_set]
    split
    · next hi => exact hi.1 ▸ h
    · exact .refl _

theorem eq (h : f.Framed scope declared assigned g) (hd : ∀ name, ¬ declared name)
    (ha : ∀ name, ¬ assigned name) : g = f := by
  have hs : g.scopes = f.scopes := by
    apply List.ext_getElem h.size
    intro i hi hi'
    have he := (h.differs i).eq (fun name hn => hd name hn.2) fun name hn => ha name hn.2
    simpa [Forest.scope, hi, hi'] using he
  obtain ⟨scopes⟩ := g
  exact congrArg Forest.mk hs

end Framed

theorem framed_declare (h : f.declare scope b = .ok g) (hd : declared b.name) :
    f.Framed scope declared assigned g := by
  obtain ⟨s, hs, rfl⟩ := declare_eq_ok h
  exact .set f (Scope.differs_declare hs ⟨rfl, hd⟩)

theorem mem_lineage_of_resolve (h : f.resolve scope name = .ok owner) : owner ∈ f.lineage scope :=
  List.mem_of_find?_eq_some (resolve_eq_ok_iff.1 h)

theorem Distinct.nodup (h : f.Distinct) (id : ScopeId) : (f.scope id).names.Nodup := by
  rw [Forest.scope]
  cases hs : f.scopes[id]? with
  | none => exact List.nodup_nil
  | some s => exact h s (List.mem_of_getElem? hs)

theorem framed_assign (h : f.assign scope name value = .ok g) (hd : f.Distinct)
    (ha : assigned name) : f.Framed scope declared assigned g := by
  rcases f.assign_cases scope name value with ⟨-, he⟩ | ⟨b, -, -, he⟩ | ⟨b, owner, hb, hc, hr, he⟩
  · rw [he] at h
    cases h
  · rw [he] at h
    cases h
  · rw [he] at h
    cases h
    refine .set f (Scope.differs_update (hd.nodup owner) ?_ ⟨mem_lineage_of_resolve hr, ha⟩)
    intro c hfind
    rw [nearest?_eq_of_resolve hr, hfind] at hb
    rwa [Option.some.inj hb]

end Forest

namespace Eval

def Still (x : Eval α) : Prop := ∀ w, (x.after w).forest = w.forest

theorem still_bind {x : Eval α} {f : α → Eval β} (hx : x.Still) (hf : ∀ a, (f a).Still) :
    (x >>= f).Still := by
  intro w
  have hw := hx w
  simp only [after, bind, EStateM.bind] at *
  cases h : x w with
  | error e w' =>
    rw [h] at hw
    exact hw
  | ok a w' =>
    rw [h] at hw
    exact (hf a w').trans hw

theorem still_congruence (frame : Frame) : Congruence (fun x _ => x.Still) ∅ frame frame where
  pure _ _ := rfl
  throw _ _ := rfl
  bind := still_bind
  showable value := by
    unfold showable
    split <;> exact fun _ => rfl
  record _ _ := rfl
  lookup := nofun
  declare _ := nofun
  assign := nofun

end Eval

theorem Native.Turns.eq {function : Native} (h : function.Turns host scope f g)
    (hh : host.Detached) : g = f := by
  obtain ⟨arguments, path, depth, journal, rfl⟩ := h
  exact (Eval.still_congruence _).run host.clock (hh function.routine arguments) _

theorem Broken.eq (h : Broken host scope f g) (hh : host.Detached) : g = f := by
  rcases h with h | ⟨function, h⟩
  · exact h
  · exact h.eq hh

theorem Replays.framed (h : Replays host scope f events g) (hh : host.Detached) (n : Node)
    (ha : n.AccountsFor (effects events)) (hd : f.Distinct) :
    f.Framed scope n.Declares n.Assigns g := by
  induction h with
  | done => exact .refl _
  | wrote _ ih => exact ih ha hd
  | declared hf _ ih =>
    obtain ⟨hact, hrest⟩ := List.forall_mem_cons.1 ha
    cases hact with
    | declare hname =>
      obtain ⟨hd', -⟩ := Forest.evolves_declare hf hd
      exact (Forest.framed_declare hf hname).trans (ih hrest hd')
  | assigned hf _ ih =>
    obtain ⟨hact, hrest⟩ := List.forall_mem_cons.1 ha
    cases hact with
    | assign hname =>
      obtain ⟨hd', -⟩ := Forest.evolves_assign hf hd
      exact (Forest.framed_assign hf hd hname).trans (ih hrest hd')
  | called ht _ ih =>
    obtain ⟨-, hrest⟩ := List.forall_mem_cons.1 ha
    obtain rfl := ht.eq hh
    exact ih hrest hd

/-- Evaluation changes scopes through the declarations and assignments of the tree alone. -/
theorem Node.framed_eval (host : Host) (hh : host.Detached) (scope : ScopeId) (depth : Nat)
    (path : Path) (n : Node) (w : World) (hd : w.forest.Distinct) :
    w.forest.Framed scope n.Declares n.Assigns ((n.eval host scope depth path).after w).forest := by
  obtain ⟨events, -, hp, -, g, hr, hb⟩ := (n.follows_eval host scope depth path).exists_events w
  have ha : n.AccountsFor (effects events) :=
    fun e he => n.accountsFor_schedule path e (hp.subset he)
  rw [hb.eq hh]
  exact hr.framed hh n ha hd

/-- With functions of the host that leave scopes alone, evaluation in a scope keeps the names and
constants of all others, and keeps altogether those that do not enclose it. New names in the scope
are declared by the tree, and where a binding has another value it was a variable that the tree
assigns. A tree without declarations and assignments changes nothing. -/
theorem Node.frame_of_eval (host : Host) (hh : host.Detached) (scope : ScopeId) (depth : Nat)
    (path : Path) (n : Node) (w : World) (hd : w.forest.Distinct) :
    let f := w.forest
    let g := ((n.eval host scope depth path).after w).forest
    (∀ id, id ≠ scope → (g.scope id).names = (f.scope id).names ∧
      (g.scope id).constants = (f.scope id).constants) ∧
    (∀ id, id ∉ f.lineage scope → g.scope id = f.scope id) ∧
    (∃ added, (g.scope scope).names = (f.scope scope).names ++ added ∧
      ∀ name ∈ added, n.Declares name) ∧
    (∀ (id : ScopeId) (i : Nat) (b : Binding), (f.scope id).bindings[i]? = some b →
      ∃ b', (g.scope id).bindings[i]? = some b' ∧ b'.name = b.name ∧ b'.constant = b.constant ∧
        (b'.value ≠ b.value → b.constant = false ∧ n.Assigns b.name)) ∧
    ((∀ name, ¬ n.Declares name ∧ ¬ n.Assigns name) → g = f) := by
  intro f g
  have h : f.Framed scope n.Declares n.Assigns g := n.framed_eval host hh scope depth path w hd
  refine ⟨fun id hid => ?_, fun id hid => ?_, ?_, fun id i b hb => ?_, fun hn => ?_⟩
  · have he := (h.differs id).headers_eq fun name hn => hid hn.1
    rw [Scope.names_eq, Scope.names_eq, Scope.constants_eq, Scope.constants_eq, he]
    exact ⟨rfl, rfl⟩
  · apply (h.differs id).eq
    · rintro name ⟨rfl, -⟩
      exact hid List.mem_cons_self
    · exact fun name hn => hid hn.1
  · obtain ⟨rest, hrest, hn⟩ := (h.differs scope).exists_headers
    refine ⟨rest.map (·.1), ?_, fun name hname => ?_⟩
    · rw [Scope.names_eq, Scope.names_eq, hrest, List.map_append]
    · obtain ⟨header, hh, rfl⟩ := List.mem_map.1 hname
      exact (hn header hh).2
  · obtain ⟨b', hb', hr⟩ := (h.differs id).kept i b hb
    refine ⟨b', hb', hr.name, hr.constant, fun hne => ?_⟩
    obtain ⟨hc, -, ha⟩ := hr.value.resolve_left hne
    exact ⟨hc, ha⟩
  · exact h.eq (fun name => (hn name).1) fun name => (hn name).2

/-- A declaration whose value assigns a variable of the enclosing scope, before a failure. A scope
beside this one, with a variable of the same name, is not touched. -/
theorem Node.frame_of_eval_beside :
    let n : Node := .program
      [.declaration "y" true (some (.assignment (.identifier "x") (.string "new"))),
        .identifier "z", .declaration "late" false none]
    let w : World := .ofForest ⟨[⟨[], [⟨"x", .null, true⟩]⟩, ⟨[0], [⟨"x", .null, false⟩]⟩,
      ⟨[1, 0], []⟩, ⟨[0], [⟨"x", .null, false⟩]⟩]⟩
    let g := ((n.eval (.standard 0) 2 5 []).after w).forest
    (Host.standard 0).Detached ∧ w.forest.Distinct ∧
      (g.scope 2).names = ["y"] ∧ n.Declares "y" ∧
      (g.scope 1).names = ["x"] ∧ (g.scope 1).constants = [] ∧
      g.scope 3 = ⟨[0], [⟨"x", .null, false⟩]⟩ := by
  intro n w g
  have hh : (Host.standard 0).Detached := Host.detached_standard 0
  have hd : w.forest.Distinct := by
    change ∀ s ∈ w.forest.scopes, s.names.Nodup
    decide
  have hnames : (g.scope 2).names = ["y"] := by
    decide
  obtain ⟨hothers, houtside, hown, -⟩ := frame_of_eval (.standard 0) hh 2 5 [] n w hd
  obtain ⟨added, hadded, hdeclared⟩ := hown
  refine ⟨hh, hd, hnames, ?_, (hothers 1 (by decide)).1, (hothers 1 (by decide)).2,
    houtside 3 (by decide)⟩
  apply hdeclared
  obtain rfl : added = ["y"] := hadded.symm.trans hnames
  exact List.mem_singleton.2 rfl

end Ember
