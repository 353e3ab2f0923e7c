import Ember.Proofs.Growth

/-!
The order of effects. Which declarations, assignments and calls a tree makes, and in which order, can
be read off the tree: evaluation makes them one by one until it ends or fails, and changes scopes in
no other way.
-/

namespace Ember

set_option autoImplicit true

/-- What a node does itself, once its parts have been evaluated. -/
inductive Act where
  | declare (name : String)
  | assign (name : String)
  | call
deriving DecidableEq

/-- An act, and the place of the node that does it. -/
structure Effect where
  path : Path
  act : Act
deriving DecidableEq

namespace Node

mutual

/-- The effects of a node at a place, in order, if nothing fails. -/
def schedule (path : Path) : Node → List Effect
  | .program body => scheduleFrom path 0 body
  | .declaration name _ none => [⟨path, .declare name⟩]
  | .declaration name _ (some value) => value.schedule (0 :: path) ++ [⟨path, .declare name⟩]
  | .assignment (.identifier name) value => value.schedule (1 :: path) ++ [⟨path, .assign name⟩]
  | .binary left right _ => left.schedule (0 :: path) ++ right.schedule (1 :: path)
  | .call callee arguments =>
    scheduleFrom path 1 arguments ++ callee.schedule (0 :: path) ++ [⟨path, .call⟩]
  | .member owner key computed =>
    owner.schedule (0 :: path) ++ if computed then key.schedule (1 :: path) else []
  | .object properties => entriesFrom path 0 properties
  | _ => []

/-- The effects of the children of a place, from the `i`-th on. -/
def scheduleFrom (path : Path) (i : Nat) : List Node → List Effect
  | [] => []
  | node :: rest => node.schedule (i :: path) ++ scheduleFrom path (i + 1) rest

def entrySchedule (path : Path) : Node → List Effect
  | .property _ (some value) | .declaration _ _ (some value) | .assignment _ value =>
    value.schedule path
  | _ => []

def entriesFrom (path : Path) (i : Nat) : List Node → List Effect
  | [] => []
  | entry :: rest => entry.entrySchedule (i :: path) ++ entriesFrom path (i + 1) rest

end

end Node

/-- Places inside the children of a place, from the `i`-th on. -/
def Path.Below (path : Path) (i : Nat) (place : Path) : Prop := ∃ j, i ≤ j ∧ (j :: path) <:+ place

theorem Path.Below.suffix {path place : Path} (h : path.Below i place) : path <:+ place := by
  obtain ⟨j, -, hj⟩ := h
  exact (List.suffix_cons j path).trans hj

theorem Path.Below.ne {path place : Path} (h : path.Below i place) : place ≠ path := by
  obtain ⟨j, -, hj⟩ := h
  rintro rfl
  exact absurd hj.length_le (Nat.not_succ_le_self _)

theorem Path.Below.not_suffix {path place : Path} (h : path.Below (i + 1) place) :
    ¬ (i :: path) <:+ place := by
  obtain ⟨j, hj, h⟩ := h
  intro hi
  have hs : (i :: path) <:+ (j :: path) := List.suffix_of_suffix_length_le hi h (Nat.le_refl _)
  have he : i = j := (List.cons.inj (hs.eq_of_length rfl)).1
  omega

/-- Effects at places of some sort, no two of them at one place. -/
structure Spread (at? : Path → Prop) (effects : List Effect) : Prop where
  at_place : ∀ e ∈ effects, at? e.path
  once : effects.Pairwise fun e e' => e.path ≠ e'.path

namespace Spread

variable {path : Path}

theorem nil : Spread p [] := ⟨nofun, .nil⟩

theorem mono (h : Spread p l) (hpq : ∀ place, p place → q place) : Spread q l :=
  ⟨fun e he => hpq _ (h.at_place e he), h.once⟩

theorem append (h : Spread p l) (h' : Spread p l')
    (hd : ∀ e ∈ l, ∀ e' ∈ l', e.path ≠ e'.path) : Spread p (l ++ l') where
  at_place := List.forall_mem_append.2 ⟨h.at_place, h'.at_place⟩
  once := List.pairwise_append.2 ⟨h.once, h'.once, hd⟩

theorem comm (h : Spread p (l ++ l')) : Spread p (l' ++ l) where
  at_place e he := h.at_place e (List.perm_append_comm.mem_iff.1 he)
  once := h.once.perm List.perm_append_comm fun hne => hne.symm

theorem child (h : Spread ((i :: path) <:+ ·) l) : Spread (path.Below i) l :=
  h.mono fun _ hs => ⟨i, Nat.le_refl i, hs⟩

theorem cons (h : Spread ((i :: path) <:+ ·) l) (h' : Spread (path.Below (i + 1)) l') :
    Spread (path.Below i) (l ++ l') := by
  apply h.child.append
  · exact h'.mono fun _ ⟨j, hj, hs⟩ => ⟨j, Nat.le_of_succ_le hj, hs⟩
  · intro e he e' he' heq
    exact (h'.at_place e' he').not_suffix (heq ▸ h.at_place e he)

theorem act (h : Spread (path.Below i) l) (act : Act) :
    Spread (path <:+ ·) (l ++ [⟨path, act⟩]) := by
  apply (h.mono fun _ hb => hb.suffix).append
  · exact ⟨List.forall_mem_singleton.2 List.suffix_rfl, List.pairwise_singleton _ _⟩
  · intro e he e' he'
    rw [List.mem_singleton.1 he']
    exact (h.at_place e he).ne

end Spread

/-- A schedule has effects inside the node only, and no two at one place. -/
theorem Node.spread_schedule (path : Path) (n : Node) :
    Spread (path <:+ ·) (n.schedule path) := by
  induction path, n using Node.schedule.induct
      (motive_2 := fun path i nodes => Spread (path.Below i) (entriesFrom path i nodes))
      (motive_3 := fun path n => Spread (path <:+ ·) (n.entrySchedule path))
      (motive_4 := fun path i nodes => Spread (path.Below i) (scheduleFrom path i nodes)) with
  | case1 path body ih => exact ih.mono fun _ hb => hb.suffix
  | case2 path name constant => exact Spread.nil.act (i := 0) _
  | case3 path name constant value ih => exact ih.child.act _
  | case4 path name value ih => exact ih.child.act _
  | case5 path left right operator ihl ihr => exact (ihl.cons ihr.child).mono fun _ hb => hb.suffix
  | case6 path callee arguments iha ihc => exact (ihc.cons iha).comm.act _
  | case7 path owner key computed iho ihk =>
    rw [schedule]
    refine (iho.cons ?_).mono fun _ hb => hb.suffix
    split
    · exact ihk.child
    · exact .nil
  | case8 path properties ih => exact ih.mono fun _ hb => hb.suffix
  | case9 n path =>
    rw [schedule]
    · exact .nil
    all_goals assumption
  | case10 path key value ih => exact ih
  | case11 path name constant value ih => exact ih
  | case12 path target value ih => exact ih
  | case13 n path =>
    rw [entrySchedule]
    · exact .nil
    all_goals assumption
  | case14 => exact .nil
  | case15 path i entry rest ih ihr => exact ih.cons ihr
  | case16 => exact .nil
  | case17 path i node rest ih ihr => exact ih.cons ihr

/-- The act that a deed is. Text that is written is part of a call. -/
def Deed.act? : Deed → Option Act
  | .declared name => some (.declare name)
  | .assigned name => some (.assign name)
  | .called _ => some .call
  | .wrote _ => none

def Event.effect? (e : Event) : Option Effect :=
  e.deed.act?.map (Effect.mk e.path)

def effects (events : List Event) : List Effect := events.filterMap Event.effect?

theorem effects_append (events events' : List Event) :
    effects (events ++ events') = effects events ++ effects events' :=
  List.filterMap_append

/-- What a call of a host function may make of the scopes, whether or not it finishes. -/
def Native.Turns (host : Host) (scope : ScopeId) (function : Native) (f g : Forest) : Prop :=
  ∃ arguments path depth journal,
    (((host.perform function.routine arguments).run host.clock ⟨scope, path, depth⟩).after
      ⟨f, journal⟩).forest = g

/-- Scopes that events lead to, by carrying them out one by one. -/
inductive Replays (host : Host) (scope : ScopeId) : Forest → List Event → Forest → Prop where
  | done : Replays host scope f [] f
  | wrote : Replays host scope f events g →
    Replays host scope f (⟨path, .wrote text⟩ :: events) g
  | declared : f.declare scope ⟨name, value, constant⟩ = .ok f' → Replays host scope f' events g →
    Replays host scope f (⟨path, .declared name⟩ :: events) g
  | assigned : f.assign scope name value = .ok f' → Replays host scope f' events g →
    Replays host scope f (⟨path, .assigned name⟩ :: events) g
  | called : function.Turns host scope f f' → Replays host scope f' events g →
    Replays host scope f (⟨path, .called function⟩ :: events) g

variable {host : Host} {scope : ScopeId}

theorem Replays.append (h : Replays host scope f events f') (h' : Replays host scope f' events' g) :
    Replays host scope f (events ++ events') g := by
  induction h with
  | done => exact h'
  | wrote _ ih => exact .wrote (ih h')
  | declared hd _ ih => exact .declared hd (ih h')
  | assigned ha _ ih => exact .assigned ha (ih h')
  | called hc _ ih => exact .called hc (ih h')

/-- Scopes that are left by a failure: a call that did not finish may have changed them. -/
def Broken (host : Host) (scope : ScopeId) (f g : Forest) : Prop :=
  g = f ∨ ∃ function : Native, function.Turns host scope f g

namespace Eval

/-- A result that comes with the effects of a plan: all of them if it is a value, and otherwise
those up to some point. -/
inductive Leads (host : Host) (scope : ScopeId) (plan : List Effect) (w : World) :
    EStateM.Result Failure World α → Prop where
  | ok (events : List Event) : w'.journal = events.reverse ++ w.journal → effects events = plan →
    Replays host scope w.forest events w'.forest → Leads host scope plan w (.ok a w')
  | error (events : List Event) (f : Forest) : w'.journal = events.reverse ++ w.journal →
    effects events <+: plan → Replays host scope w.forest events f →
    Broken host scope f w'.forest → Leads host scope plan w (.error e w')

/-- A step that has the effects of a plan and no others. -/
def Follows (host : Host) (scope : ScopeId) (plan : List Effect) (x : Eval α) : Prop :=
  ∀ w, Leads host scope plan w (x w)

theorem follows_pure (a : α) : Follows host scope [] (pure a) := fun _ => .ok [] rfl rfl .done

theorem follows_throw (plan : List Effect) (e : Failure) :
    Follows host scope plan (throw e : Eval α) :=
  fun w => .error [] w.forest rfl (List.nil_prefix) .done (.inl rfl)

theorem follows_bind {x : Eval α} {f : α → Eval β} (hx : Follows host scope plan x)
    (hf : ∀ a, Follows host scope plan' (f a)) : Follows host scope (plan ++ plan') (x >>= f) := by
  intro w
  have hw := hx w
  simp only [bind, EStateM.bind]
  generalize x w = r at hw
  cases hw with
  | error events g hj hp hr hb =>
    exact .error events g hj (hp.trans (List.prefix_append _ _)) hr hb
  | @ok a w' events hj hp hr =>
    have hw' := hf a w'
    dsimp only
    generalize f a w' = r at hw'
    cases hw' with
    | ok events' hj' hp' hr' =>
      refine .ok (events ++ events') ?_ ?_ (hr.append hr')
      · rw [hj', hj, List.reverse_append, List.append_assoc]
      · rw [effects_append, hp, hp']
    | error events' g hj' hp' hr' hb =>
      refine .error (events ++ events') g ?_ ?_ (hr.append hr') hb
      · rw [hj', hj, List.reverse_append, List.append_assoc]
      · rw [effects_append, hp]
        exact (List.prefix_append_right_inj _).2 hp'

theorem follows_bind_left {x : Eval α} {f : α → Eval β} (hx : Follows host scope plan x)
    (hf : ∀ a, Follows host scope [] (f a)) : Follows host scope plan (x >>= f) := by
  have h := follows_bind hx hf
  rwa [List.append_nil] at h

theorem follows_bind_right {x : Eval α} {f : α → Eval β} (hx : Follows host scope [] x)
    (hf : ∀ a, Follows host scope plan (f a)) : Follows host scope plan (x >>= f) :=
  follows_bind hx hf

theorem follows_ofExcept (x : Except Cause α) : Follows host scope [] (ofExcept x) := by
  cases x with
  | ok a => exact follows_pure a
  | error cause => exact follows_throw _ _

theorem follows_showable (depth : Nat) (value : Value) :
    Follows host scope [] (showable depth value) := by
  unfold showable
  split
  · exact follows_pure _
  · exact follows_throw _ _

theorem follows_lookup (name : String) : Follows host scope [] (lookup scope name) :=
  follows_bind_right (fun _ => .ok [] rfl rfl .done) fun _ => follows_ofExcept _

theorem declare_apply (scope : ScopeId) (b : Binding) (w : World) :
    declare scope b w = match w.forest.declare scope b with
      | .ok forest => .ok () { w with forest }
      | .error cause => .error (.fault cause none) w := by
  simp only [declare, bind, EStateM.bind, get, getThe, MonadStateOf.get, EStateM.get]
  cases w.forest.declare scope b <;> rfl

theorem assign_apply (scope : ScopeId) (name : String) (value : Value) (w : World) :
    assign scope name value w = match w.forest.assign scope name value with
      | .ok forest => .ok () { w with forest }
      | .error cause => .error (.fault cause none) w := by
  simp only [assign, bind, EStateM.bind, get, getThe, MonadStateOf.get, EStateM.get]
  cases w.forest.assign scope name value <;> rfl

theorem follows_declare (path : Path) (name : String) (constant : Bool) (value : Value) :
    Follows host scope [⟨path, .declare name⟩] (do
      declare scope ⟨name, value, constant⟩
      record path (.declared name)
      pure value) := by
  intro w
  simp only [bind, EStateM.bind, declare_apply]
  cases h : w.forest.declare scope ⟨name, value, constant⟩ with
  | ok forest => exact .ok [⟨path, .declared name⟩] rfl rfl (.declared h .done)
  | error cause => exact follows_throw _ _ w

theorem follows_assign (path : Path) (name : String) (value : Value) :
    Follows host scope [⟨path, .assign name⟩] (do
      assign scope name value
      record path (.assigned name)
      pure value) := by
  intro w
  simp only [bind, EStateM.bind, assign_apply]
  cases h : w.forest.assign scope name value with
  | ok forest => exact .ok [⟨path, .assigned name⟩] rfl rfl (.assigned h .done)
  | error cause => exact follows_throw _ _ w

end Eval

inductive Texts : List Event → Prop where
  | nil : Texts []
  | cons : Texts events → Texts (⟨path, .wrote text⟩ :: events)

namespace Texts

theorem append (h : Texts events) (h' : Texts events') : Texts (events ++ events') := by
  induction h with
  | nil => exact h'
  | cons _ ih => exact .cons ih

theorem effects_eq (h : Texts events) : effects events = [] := by
  induction h with
  | nil => rfl
  | cons _ ih => exact ih

theorem replays (h : Texts events) (f : Forest) : Replays host scope f events f := by
  induction h with
  | nil => exact .done
  | cons _ ih => exact .wrote ih

end Texts

namespace Eval

def Writes (x : Eval α) : Prop :=
  ∀ w, ∃ events, Texts events ∧ (x.after w).journal = events.reverse ++ w.journal

theorem writes_quiet {x : Eval α} (h : ∀ w, (x.after w).journal = w.journal) : x.Writes :=
  fun w => ⟨[], .nil, h w⟩

theorem writes_bind {x : Eval α} {f : α → Eval β} (hx : x.Writes) (hf : ∀ a, (f a).Writes) :
    (x >>= f).Writes := by
  intro w
  obtain ⟨events, ht, hj⟩ := hx w
  simp only [after, bind, EStateM.bind] at *
  cases h : x w with
  | error e w' =>
    rw [h] at hj
    exact ⟨events, ht, hj⟩
  | ok a w' =>
    rw [h] at hj
    obtain ⟨events', ht', hj'⟩ := hf a w'
    refine ⟨events ++ events', ht.append ht', ?_⟩
    rw [List.reverse_append, List.append_assoc, ← hj]
    exact hj'

theorem writes_ofExcept (x : Except Cause α) : (ofExcept x).Writes := by
  cases x <;> exact writes_quiet fun _ => rfl

theorem writes_showable (depth : Nat) (value : Value) : (showable depth value).Writes := by
  unfold showable
  split <;> exact writes_quiet fun _ => rfl

theorem writes_lookup (name : String) : (lookup scope name).Writes :=
  writes_bind (writes_quiet fun _ => rfl) fun _ => writes_ofExcept _

theorem writes_declare (b : Binding) : (declare scope b).Writes := by
  apply writes_quiet
  intro w
  simp only [after, declare_apply]
  cases w.forest.declare scope b <;> rfl

theorem writes_assign (name : String) (value : Value) : (assign scope name value).Writes := by
  apply writes_quiet
  intro w
  simp only [after, assign_apply]
  cases w.forest.assign scope name value <;> rfl

end Eval

open Eval

theorem Action.writes_run (clock : Int) (frame : Frame) (action : Action) :
    (action.run clock frame).Writes := by
  induction action with
  | done | fail | crash => exact writes_quiet fun _ => rfl
  | format value next ih => exact writes_bind (writes_showable _ _) fun _ => ih _
  | write text next ih =>
    have hw : (record frame.path (.wrote text)).Writes :=
      fun w => ⟨[⟨frame.path, .wrote text⟩], .cons .nil, rfl⟩
    exact writes_bind hw fun _ => ih
  | clock next ih => exact ih _
  | lookup name next ih => exact writes_bind (writes_lookup _) fun value => ih value
  | declare b next ih => exact writes_bind (writes_declare _) fun _ => ih
  | assign name value next ih => exact writes_bind (writes_assign _ _) fun _ => ih

/-- A call is one effect, whatever the function does. -/
theorem Value.follows_call (host : Host) (frame : Frame) (callee : Value)
    (arguments : List Value) :
    Follows host frame.scope [⟨frame.path, .call⟩] (callee.call host frame arguments) := by
  cases callee with
  | native f =>
    intro w
    obtain ⟨events, ht, hj⟩ := (host.perform f.routine arguments).writes_run host.clock frame w
    have hturns : f.Turns host frame.scope w.forest
        (((host.perform f.routine arguments).run host.clock frame).after w).forest :=
      ⟨arguments, frame.path, frame.depth, w.journal, rfl⟩
    simp only [Value.call, bind, EStateM.bind]
    unfold after at hj hturns
    cases hrun : (host.perform f.routine arguments).run host.clock frame w with
    | error e w' =>
      rw [hrun] at hj hturns
      exact .error events w.forest hj (ht.effects_eq ▸ List.nil_prefix) (ht.replays _)
        (.inr ⟨f, hturns⟩)
    | ok answer w' =>
      rw [hrun] at hj hturns
      dsimp only at hj hturns ⊢
      cases answer.toValue with
      | error cause =>
        exact .error events w.forest hj (ht.effects_eq ▸ List.nil_prefix) (ht.replays _)
          (.inr ⟨f, hturns⟩)
      | ok value =>
        refine .ok (events ++ [⟨frame.path, .called f⟩]) ?_ ?_ ?_
        · simp [hj]
        · rw [effects_append, ht.effects_eq]
          rfl
        · exact (ht.replays _).append (.called hturns .done)
  | _ => exact follows_bind_right (follows_showable _ _) fun _ => follows_throw _ _

namespace Eval

variable {child : Child} {path : Path}

theorem follows_statements (hc : ∀ i n, Follows host scope (n.schedule (i :: path)) (child i n))
    (nodes : List Node) :
    Follows host scope (Node.scheduleFrom path i nodes) (statements child i last nodes) := by
  induction nodes generalizing i last with
  | nil => exact follows_pure _
  | cons node rest ih => exact follows_bind (hc i node) fun _ => ih

theorem follows_values (hc : ∀ i n, Follows host scope (n.schedule (i :: path)) (child i n))
    (nodes : List Node) :
    Follows host scope (Node.scheduleFrom path i nodes) (values child i nodes) := by
  induction nodes generalizing i with
  | nil => exact follows_pure _
  | cons node rest ih =>
    apply follows_bind (hc i node)
    intro value
    exact follows_bind_left ih fun _ => follows_pure _

theorem follows_keyless (hc : ∀ i n, Follows host scope (n.schedule (i :: path)) (child i n))
    (value : Node) (e : Failure) :
    Follows host scope (value.schedule (i :: path))
      (if value.kind ≠ .placeholder .absent then child i value >>= fun _ => throw e
        else throw e : Eval α) := by
  split
  · exact follows_bind_left (hc i value) fun _ => follows_throw _ _
  · exact follows_throw _ _

theorem follows_slot (hc : ∀ i n, Follows host scope (n.schedule (i :: path)) (child i n))
    (i : Nat) (n : Node) :
    Follows host scope (n.entrySchedule (i :: path)) (slot child scope i n) := by
  cases n with
  | property key value? =>
    cases value? with
    | none => exact follows_bind_left (follows_lookup _) fun _ => follows_pure _
    | some value => exact follows_bind_left (hc i value) fun _ => follows_pure _
  | declaration name constant value? =>
    cases value? with
    | none => exact follows_throw _ _
    | some value => exact follows_keyless hc value _
  | assignment target value => exact follows_keyless hc value _
  | number x => exact follows_bind_left (hc i (.placeholder (.number x))) fun _ => follows_pure _
  | string s => exact follows_bind_left (hc i (.placeholder (.text s))) fun _ => follows_pure _
  | _ => exact follows_throw _ _

theorem follows_slots (hc : ∀ i n, Follows host scope (n.schedule (i :: path)) (child i n))
    (nodes : List Node) :
    Follows host scope (Node.entriesFrom path i nodes) (slots child scope i done nodes) := by
  induction nodes generalizing i done with
  | nil => exact follows_pure _
  | cons node rest ih => exact follows_bind (follows_slot hc i node) fun _ => ih

theorem follows_binary (operator : String) (x y : Value) :
    Follows host scope [] (binary operator x y) := by
  unfold binary
  split
  · split
    · exact follows_pure _
    · exact follows_throw _ _
  · exact follows_pure _

theorem follows_keyOf (depth : Nat) (value : Value) : Follows host scope [] (keyOf depth value) := by
  unfold keyOf
  split
  · exact follows_pure _
  · exact follows_pure _
  · exact follows_bind_right (follows_showable _ _) fun _ => follows_throw _ _

theorem follows_memberKey (hc : ∀ i n, Follows host scope (n.schedule (i :: path)) (child i n))
    (depth : Nat) (key : Node) (computed : Bool) :
    Follows host scope (if computed then key.schedule (1 :: path) else [])
      (memberKey child depth key computed) := by
  cases computed with
  | true => exact follows_bind_left (hc 1 key) fun _ => follows_keyOf _ _
  | false =>
    cases key with
    | identifier name => exact follows_pure _
    | _ => exact follows_throw _ _

theorem follows_node (frame : Frame)
    (hc : ∀ i n, Follows host frame.scope (n.schedule (i :: frame.path)) (child i n)) (n : Node) :
    Follows host frame.scope (n.schedule frame.path) (node host frame child n) := by
  cases n with
  | program body => exact follows_statements hc body
  | declaration name constant value? =>
    cases value? with
    | none => exact follows_declare _ _ _ _
    | some value => exact follows_bind (hc 0 value) (follows_declare _ _ _)
  | assignment target source =>
    cases target with
    | identifier name => exact follows_bind (hc 1 source) (follows_assign _ _)
    | _ => exact follows_throw _ _
  | binary left right operator =>
    apply follows_bind (hc 0 left)
    intro x
    exact follows_bind_left (hc 1 right) (follows_binary _ _)
  | member owner key computed =>
    apply follows_bind (hc 0 owner)
    intro value
    cases value with
    | object entries =>
      apply follows_bind_left (follows_memberKey hc _ _ _)
      intro key
      split
      · exact follows_pure _
      · exact follows_throw _ _
    | _ => exact follows_throw _ _
  | call callee arguments =>
    rw [Node.schedule, List.append_assoc]
    apply follows_bind (follows_values hc arguments)
    intro values
    exact follows_bind (hc 0 callee) fun function => function.follows_call host frame values
  | identifier name => exact follows_lookup _
  | number | string | null => exact follows_pure _
  | function | property | placeholder => exact follows_throw _ _
  | object properties => exact follows_bind_left (follows_slots hc properties) fun _ => follows_pure _

theorem follows_located {plan : List Effect} {x : Eval α} (kind : NodeKind)
    (h : Follows host scope plan x) : Follows host scope plan (located kind x) := by
  intro w
  have hw := h w
  unfold located
  generalize x w = r at hw
  cases hw with
  | ok events hj hp hr => exact .ok events hj hp hr
  | @error e w' events f hj hp hr hb =>
    cases e with
    | fault cause site => cases site <;> exact .error events f hj hp hr hb
    | tooDeep | crash => exact .error events f hj hp hr hb

end Eval

theorem Node.follows_eval (host : Host) (scope : ScopeId) (depth : Nat) (path : Path) (n : Node) :
    Follows host scope (n.schedule path) (n.eval host scope depth path) := by
  induction depth generalizing path n with
  | zero => exact follows_throw _ _
  | succ depth ih =>
    apply follows_located
    exact follows_node ⟨scope, path, depth⟩ (fun i m => ih (i :: path) m) n

/-- What was done is the beginning of the plan, and all of it if there is a value; the scopes changed
through it alone, but for a call that did not finish. -/
theorem Eval.Follows.exists_events {x : Eval α} (h : Follows host scope plan x) (w : World) :
    ∃ events, (x.after w).journal = events.reverse ++ w.journal ∧ effects events <+: plan ∧
      (∀ a w', x w = .ok a w' →
        effects events = plan ∧ Replays host scope w.forest events w'.forest) ∧
      ∃ f, Replays host scope w.forest events f ∧ Broken host scope f (x.after w).forest := by
  have hw := h w
  unfold after
  generalize x w = r at hw
  cases hw with
  | @ok a w' events hj hp hr =>
    refine ⟨events, hj, hp ▸ List.prefix_rfl, ?_, w'.forest, hr, .inl rfl⟩
    rintro _ _ ⟨⟩
    exact ⟨hp, hr⟩
  | error events f hj hp hr hb => exact ⟨events, hj, hp, nofun, f, hr, hb⟩

/-- Effects happen once and in a fixed order. Those of an evaluation are the first ones of the
schedule of the node, and all of them if it ends with a value. No two effects of a schedule are at
one place. The scopes change through these effects alone, a call that fails apart. -/
theorem Node.effects_of_eval (host : Host) (scope : ScopeId) (depth : Nat) (path : Path)
    (n : Node) (w : World) :
    (n.schedule path).Pairwise (fun e e' => e.path ≠ e'.path) ∧
    ∃ events, ((n.eval host scope depth path).after w).journal = events.reverse ++ w.journal ∧
      effects events <+: n.schedule path ∧
      (∀ value w', n.eval host scope depth path w = .ok value w' →
        effects events = n.schedule path ∧ Replays host scope w.forest events w'.forest) ∧
      ∃ f, Replays host scope w.forest events f ∧
        Broken host scope f ((n.eval host scope depth path).after w).forest := by
  have hplaces := n.spread_schedule path
  have hevents := n.follows_eval host scope depth path
  exact ⟨hplaces.once, hevents.exists_events w⟩

end Ember
