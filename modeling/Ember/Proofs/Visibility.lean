import Ember.Proofs.Congruence
import Ember.Proofs.Resolution
import Ember.Proofs.Schedule

/-!
What a program sees. Two scopes that show the same of the names that a tree mentions, whichever scopes
enclose them, are the same to its evaluation: it comes to the same end, writes the same text, and the
scopes still show the same of these names.
-/

namespace Ember

set_option autoImplicit true

namespace Forest

variable {f g f' g' : Forest} {scope scope' : ScopeId} {names : Set String}

/-- Two scopes that show the same of some names: the values that are found, which of the names the
scopes themselves bind, and which of them are constant. -/
structure Alike (names : Set String) (f : Forest) (scope : ScopeId) (g : Forest)
    (scope' : ScopeId) : Prop where
  left_exists : scope < f.scopes.length
  right_exists : scope' < g.scopes.length
  lookup : ∀ name ∈ names, f.lookup scope name = g.lookup scope' name
  owns : ∀ name ∈ names, (f.scope scope).owns name = (g.scope scope').owns name
  isConstant : ∀ name ∈ names, f.isConstant scope name = g.isConstant scope' name

def shown (f : Forest) (id : ScopeId) (name : String) : Option (Value × Bool) :=
  (f.nearest? id name).map fun b => (b.value, b.constant)

theorem shown_eq_iff :
    f.shown scope name = g.shown scope' name ↔
      f.lookup scope name = g.lookup scope' name ∧
        f.isConstant scope name = g.isConstant scope' name := by
  simp only [shown, lookup_eq, isConstant_eq]
  cases f.nearest? scope name <;> cases g.nearest? scope' name <;> simp

theorem Alike.shown_eq (h : f.Alike names scope g scope') (hn : name ∈ names) :
    f.shown scope name = g.shown scope' name :=
  shown_eq_iff.2 ⟨h.lookup name hn, h.isConstant name hn⟩

/-- It is enough that names are shown the same and bound the same. -/
theorem Alike.of_shown (hs : scope < f.scopes.length) (hs' : scope' < g.scopes.length)
    (h : ∀ name ∈ names, f.shown scope name = g.shown scope' name ∧
      (f.scope scope).owns name = (g.scope scope').owns name) : f.Alike names scope g scope' where
  left_exists := hs
  right_exists := hs'
  lookup name hn := (shown_eq_iff.1 (h name hn).1).1
  owns name hn := (h name hn).2
  isConstant name hn := (shown_eq_iff.1 (h name hn).1).2

theorem Alike.declare (h : f.Alike names scope g scope') {b : Binding} (hb : b.name ∈ names) :
    (f.declare scope b = .error (.redeclared b.name) ∧
        g.declare scope' b = .error (.redeclared b.name)) ∨
      ∃ f' g', f.declare scope b = .ok f' ∧ g.declare scope' b = .ok g' ∧
        f'.Alike names scope g' scope' := by
  have ho := h.owns b.name hb
  cases hf : (f.scope scope).owns b.name with
  | true =>
    rw [hf] at ho
    left
    simp only [Forest.declare, Scope.declare, hf, ← ho]
    exact ⟨rfl, rfl⟩
  | false =>
    rw [hf] at ho
    obtain ⟨f', hf'⟩ : ∃ f', f.declare scope b = .ok f' := by
      simp only [Forest.declare, Scope.declare, hf]
      exact ⟨_, rfl⟩
    obtain ⟨g', hg'⟩ : ∃ g', g.declare scope' b = .ok g' := by
      simp only [Forest.declare, Scope.declare, ← ho]
      exact ⟨_, rfl⟩
    refine .inr ⟨f', g', hf', hg', ?_⟩
    obtain ⟨s, -, hs⟩ := declare_eq_ok hf'
    obtain ⟨s', -, hs'⟩ := declare_eq_ok hg'
    apply Alike.of_shown
    · simpa [hs] using h.left_exists
    · simpa [hs'] using h.right_exists
    · intro name hn
      rw [owns_declare h.left_exists hf', owns_declare h.right_exists hg', h.owns name hn]
      refine ⟨?_, rfl⟩
      simp only [shown, nearest?_declare h.left_exists hf', nearest?_declare h.right_exists hg']
      split
      · rfl
      · exact h.shown_eq hn

theorem Alike.assign (h : f.Alike names scope g scope') (hname : name ∈ names) (value : Value) :
    (∃ cause, f.assign scope name value = .error cause ∧
        g.assign scope' name value = .error cause) ∨
      ∃ f' g', f.assign scope name value = .ok f' ∧ g.assign scope' name value = .ok g' ∧
        f'.Alike names scope g' scope' := by
  have hs := h.shown_eq hname
  rcases f.assign_cases scope name value with ⟨hf, ha⟩ | ⟨b, hf, hc, ha⟩ | ⟨b, i, hf, hc, hr, ha⟩
  · rcases g.assign_cases scope' name value with ⟨-, ha'⟩ | ⟨b', hg, -⟩ | ⟨b', j, hg, -⟩
    · exact .inl ⟨_, ha, ha'⟩
    · simp [shown, hf, hg] at hs
    · simp [shown, hf, hg] at hs
  · rcases g.assign_cases scope' name value with ⟨hg, -⟩ | ⟨b', -, -, ha'⟩ | ⟨b', j, hg, hc', -⟩
    · simp [shown, hf, hg] at hs
    · exact .inl ⟨_, ha, ha'⟩
    · simp [shown, hf, hg, hc, hc'] at hs
  · rcases g.assign_cases scope' name value with ⟨hg, -⟩ | ⟨b', hg, hc', -⟩ | ⟨b', j, hg, hc', hr', ha'⟩
    · simp [shown, hf, hg] at hs
    · simp [shown, hf, hg, hc, hc'] at hs
    · refine .inr ⟨_, _, ha, ha', .of_shown ?_ ?_ fun other hn => ⟨?_, ?_⟩⟩
      · simpa using h.left_exists
      · simpa using h.right_exists
      · simp only [shown, nearest?_assign hr, nearest?_assign hr']
        split
        · next hother =>
          -- Both bindings are variables, and now have the value that was assigned.
          subst hother
          simp [hf, hg, hc, hc']
        · exact h.shown_eq hn
      · rw [owns_assign, owns_assign, h.owns other hn]

end Forest

theorem World.output_append {w w' : World} (h : w'.journal = done ++ w.journal) :
    w'.output = w.output ++ String.join (done.reverse.map Event.text) := by
  rw [output, output, h, List.reverse_append, List.map_append, String.join_append]

namespace Eval

def outcome (x : Eval α) (w : World) : Except Failure α :=
  match x w with
  | .ok a _ => .ok a
  | .error e _ => .error e

/-- Two runs, from `w` and from `v`, that come to the same and do the same, and that leave scopes
which show the same of some names. -/
inductive Mirrored (names : Set String) (scope scope' : ScopeId) (w v : World) :
    EStateM.Result Failure World α → EStateM.Result Failure World α → Prop where
  | ok (done : List Event) : w'.journal = done ++ w.journal → v'.journal = done ++ v.journal →
    w'.forest.Alike names scope v'.forest scope' →
    Mirrored names scope scope' w v (.ok a w') (.ok a v')
  | error (done : List Event) : w'.journal = done ++ w.journal → v'.journal = done ++ v.journal →
    w'.forest.Alike names scope v'.forest scope' →
    Mirrored names scope scope' w v (.error e w') (.error e v')

def Mirrors (names : Set String) (scope scope' : ScopeId) (x y : Eval α) : Prop :=
  ∀ w v : World, w.forest.Alike names scope v.forest scope' →
    Mirrored names scope scope' w v (x w) (y v)

variable {names : Set String} {scope scope' : ScopeId}

theorem mirrors_pure (a : α) : Mirrors names scope scope' (pure a) (pure a) :=
  fun _ _ h => .ok [] rfl rfl h

theorem mirrors_throw (e : Failure) : Mirrors names scope scope' (throw e : Eval α) (throw e) :=
  fun _ _ h => .error [] rfl rfl h

theorem mirrors_bind {x y : Eval α} {f g : α → Eval β} (hx : Mirrors names scope scope' x y)
    (hf : ∀ a, Mirrors names scope scope' (f a) (g a)) :
    Mirrors names scope scope' (x >>= f) (y >>= g) := by
  intro w v h
  have hxy := hx w v h
  simp only [bind, EStateM.bind]
  generalize x w = r, y v = s at hxy
  cases hxy with
  | error done hw hv h => exact .error done hw hv h
  | @ok a w' v' done hw hv h =>
    have hfg := hf a w' v' h
    dsimp only
    generalize f a w' = r, g a v' = s at hfg
    cases hfg with
    | ok more hw' hv' h =>
      exact .ok (more ++ done) (by rw [hw', hw, List.append_assoc])
        (by rw [hv', hv, List.append_assoc]) h
    | error more hw' hv' h =>
      exact .error (more ++ done) (by rw [hw', hw, List.append_assoc])
        (by rw [hv', hv, List.append_assoc]) h

theorem mirrors_lookup (hname : name ∈ names) :
    Mirrors names scope scope' (lookup scope name) (lookup scope' name) := by
  intro w v h
  have hv : ofExcept (w.forest.lookup scope name) = ofExcept (v.forest.lookup scope' name) :=
    congrArg ofExcept (h.lookup name hname)
  change Mirrored names scope scope' w v (ofExcept (w.forest.lookup scope name) w)
    (ofExcept (v.forest.lookup scope' name) v)
  rw [hv]
  cases v.forest.lookup scope' name with
  | ok value => exact mirrors_pure value w v h
  | error cause => exact mirrors_throw _ w v h

theorem mirrors_declare {b : Binding} (hb : b.name ∈ names) :
    Mirrors names scope scope' (declare scope b) (declare scope' b) := by
  intro w v h
  rw [declare_apply, declare_apply]
  rcases h.declare hb with ⟨hf, hg⟩ | ⟨f, g, hf, hg, hfg⟩
  · rw [hf, hg]
    exact .error [] rfl rfl h
  · rw [hf, hg]
    exact .ok [] rfl rfl hfg

theorem mirrors_assign (hname : name ∈ names) (value : Value) :
    Mirrors names scope scope' (assign scope name value) (assign scope' name value) := by
  intro w v h
  rw [assign_apply, assign_apply]
  rcases h.assign hname value with ⟨cause, hf, hg⟩ | ⟨f, g, hf, hg, hfg⟩
  · rw [hf, hg]
    exact .error [] rfl rfl h
  · rw [hf, hg]
    exact .ok [] rfl rfl hfg

theorem mirrors_congruence (names : Set String) (scope scope' : ScopeId) (path : Path)
    (depth : Nat) :
    Congruence (fun x y => Mirrors names scope scope' x y) names ⟨scope, path, depth⟩
      ⟨scope', path, depth⟩ where
  pure := mirrors_pure
  throw := mirrors_throw
  bind := mirrors_bind
  showable value := by
    unfold showable
    split
    · exact mirrors_pure ()
    · exact mirrors_throw _
  record deed := fun _ _ h => .ok [⟨path, deed⟩] rfl rfl h
  lookup _ := mirrors_lookup
  declare _ := mirrors_declare
  assign _ := mirrors_assign

theorem mirrors_located {x y : Eval α} (kind : NodeKind) (h : Mirrors names scope scope' x y) :
    Mirrors names scope scope' (located kind x) (located kind y) := by
  intro w v hw
  have hxy := h w v hw
  unfold located
  generalize x w = r, y v = s at hxy
  cases hxy with
  | ok done hl hr h => exact .ok done hl hr h
  | @error e w' v' done hl hr h =>
    cases e with
    | fault cause site => cases site <;> exact .error done hl hr h
    | tooDeep | crash => exact .error done hl hr h

theorem Mirrors.agreement {x y : Eval α} (h : Mirrors names scope scope' x y)
    (ha : w.forest.Alike names scope v.forest scope') :
    x.outcome w = y.outcome v ∧
      (∃ written, (x.after w).output = w.output ++ written ∧
        (y.after v).output = v.output ++ written) ∧
      (x.after w).forest.Alike names scope (y.after v).forest scope' := by
  have hxy := h w v ha
  unfold outcome after
  generalize x w = r, y v = s at hxy
  cases hxy with
  | ok done hw hv h =>
    exact ⟨rfl, ⟨_, World.output_append hw, World.output_append hv⟩, h⟩
  | error done hw hv h =>
    exact ⟨rfl, ⟨_, World.output_append hw, World.output_append hv⟩, h⟩

end Eval

namespace Node

/-- A node is evaluated the same in scopes that show the same of all names that it mentions. -/
theorem mirrors_eval {names : Set String} (host : Host) (hh : host.Within names)
    (scope scope' : ScopeId) (depth : Nat) (path : Path) (n : Node) (hn : n.Within names) :
    Eval.Mirrors names scope scope' (n.eval host scope depth path)
      (n.eval host scope' depth path) := by
  induction depth generalizing path n with
  | zero => exact Eval.mirrors_throw _
  | succ depth ih =>
    have hsteps := Eval.mirrors_congruence names scope scope' path depth
    apply Eval.mirrors_located
    exact hsteps.node hh (fun i m hm => ih (i :: path) m hm) hn

/-- Evaluation depends on the names that a tree mentions and on no others. In two scopes, within
whichever others, that show the same of these names, and with functions of the host that leave
scopes alone, evaluation comes to the same value or failure and writes the same text, and
afterwards the scopes show the same of these names again. More names may be followed along. -/
theorem eval_of_alike {names : Set String} (host : Host) (hh : host.Detached)
    (scope scope' : ScopeId) (depth : Nat) (path : Path) (n : Node)
    (hn : ∀ name ∈ n.names, name ∈ names) (w v : World)
    (h : w.forest.Alike names scope v.forest scope') :
    let x := n.eval host scope depth path
    let y := n.eval host scope' depth path
    x.outcome w = y.outcome v ∧
      (∃ written, (x.after w).output = w.output ++ written ∧
        (y.after v).output = v.output ++ written) ∧
      (x.after w).forest.Alike names scope (y.after v).forest scope' := by
  intro x y
  have hm : Eval.Mirrors names scope scope' x y :=
    n.mirrors_eval host (hh.within names) scope scope' depth path hn
  exact hm.agreement h

/-- A variable is assigned and printed. It is bound in an enclosing scope on one side, and together
with the function in the root scope on the other, where there also is a name of no interest. -/
theorem eval_of_alike_enclosing :
    let n : Node := .program
      [.declaration "y" false (some (.assignment (.identifier "x") (.string "seen"))),
        .call (.identifier "print") [.identifier "x"]]
    let print : Binding := ⟨"print", .native ⟨"print", "print"⟩, true⟩
    let w : World := .ofForest ⟨[⟨[], [print]⟩, ⟨[0], [⟨"x", .null, false⟩]⟩, ⟨[1, 0], []⟩]⟩
    let v : World := .ofForest ⟨[⟨[], [⟨"x", .null, false⟩, print]⟩, ⟨[0], [⟨"z", .null, true⟩]⟩]⟩
    let x := n.eval (.standard 0) 2 5 []
    let y := n.eval (.standard 0) 1 5 []
    w.forest.Alike {name | name ∈ n.names} 2 v.forest 1 ∧
      x.outcome w = y.outcome v ∧
      (∃ written, (x.after w).output = w.output ++ written ∧
        (y.after v).output = v.output ++ written) ∧
      (x.after w).forest.Alike {name | name ∈ n.names} 2 (y.after v).forest 1 := by
  intro n print w v x y
  have hnames : ∀ name ∈ n.names, name = "x" ∨ name = "y" ∨ name = "print" := by
    decide
  have h : w.forest.Alike {name | name ∈ n.names} 2 v.forest 1 := by
    apply Forest.Alike.of_shown (by decide) (by decide)
    intro name hname
    rcases hnames name hname with rfl | rfl | rfl <;> exact ⟨rfl, rfl⟩
  have hh : (Host.standard 0).Detached := Host.detached_standard 0
  exact ⟨h, eval_of_alike (.standard 0) hh 2 1 5 [] n (fun _ hname => hname) w v h⟩

end Node

end Ember
