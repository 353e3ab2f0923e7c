import Ember.Proofs.Growth

/-!
Constants stay what they are. A session is any sequence of operations on scopes, each of which may
succeed or fail; at any two points of it, the later scopes have grown from the earlier ones.
-/

namespace Ember

set_option autoImplicit true

def Eval.openGlobal (natives : Ordered Native) : Eval ScopeId := do
  let (scope, forest) ← ofExcept ((← get).forest.openGlobal natives)
  modify fun w => { w with forest }
  pure scope

/-- What may be done to the scopes of a session, by the host or by evaluation. -/
inductive Operation where
  | openChild (parent? : Option ScopeId)
  | openGlobal (natives : Ordered Native)
  | declare (scope : ScopeId) (binding : Binding)
  | assign (scope : ScopeId) (name : String) (value : Value)
  | lookup (scope : ScopeId) (name : String)
  | resolve (scope : ScopeId) (name : String)
  | call (host : Host) (frame : Frame) (callee : Value) (arguments : List Value)
  | evaluate (interpreter : Interpreter) (scope? : Option ScopeId) (node : Node)

namespace Operation

def perform : Operation → Eval Unit
  | .openChild parent? => modify fun w => { w with forest := (w.forest.openChild parent?).2 }
  | .openGlobal natives => do
    let _ ← Eval.openGlobal natives
  | .declare scope b => Eval.declare scope b
  | .assign scope name value => Eval.assign scope name value
  | .lookup scope name => do
    let _ ← Eval.lookup scope name
  | .resolve scope name => do
    let _ ← Eval.ofExcept ((← get).forest.resolve scope name)
  | .call host frame callee arguments => do
    let _ ← callee.call host frame arguments
  | .evaluate interpreter scope? node => do
    let _ ← interpreter.evaluate scope? node

def opens? : Operation → Option (Ordered Native)
  | .openGlobal natives => some natives
  | .evaluate interpreter none _ => some interpreter.natives
  | _ => none

def run (operations : List Operation) (w : World) : World :=
  operations.foldl (fun w operation => operation.perform.after w) w

/-- The forest after operations from the start of a session. -/
def reached (operations : List Operation) : Forest :=
  (run operations (.ofForest .empty)).forest

end Operation

namespace Scope

theorem foldlM_declare {s s' : Scope} (h : bs.foldlM declare s = .ok s') (hd : s.names.Nodup) :
    s'.bindings = s.bindings ++ bs ∧ s'.names.Nodup := by
  induction bs generalizing s with
  | nil =>
    obtain rfl := Except.ok.inj h
    exact ⟨(List.append_nil _).symm, hd⟩
  | cons b bs ih =>
    rw [List.foldlM_cons] at h
    cases hs : s.declare b with
    | error cause =>
      rw [hs] at h
      cases h
    | ok t =>
      rw [hs] at h
      obtain ⟨ht, -⟩ := grows_declare hd hs
      obtain ⟨hbindings, hd'⟩ := ih h ht
      obtain ⟨-, rfl⟩ := declare_eq_ok hs
      exact ⟨by simpa using hbindings, hd'⟩

theorem global_eq_ok (h : global natives = .ok s) :
    s.names.Nodup ∧ ⟨"true", .boolean true, true⟩ ∈ s.bindings ∧
      ⟨"false", .boolean false, true⟩ ∈ s.bindings ∧ ⟨"null", .null, true⟩ ∈ s.bindings ∧
      ∀ entry ∈ natives, ⟨entry.1, .native entry.2, true⟩ ∈ s.bindings := by
  obtain ⟨hb, hd⟩ := foldlM_declare h List.nodup_nil
  rw [hb]
  refine ⟨hd, by simp, by simp, by simp, fun entry he => ?_⟩
  apply List.mem_append_right
  apply List.mem_append_right
  exact List.mem_map.2 ⟨entry, he, rfl⟩

end Scope

namespace Forest

theorem lookup_of_find? {f : Forest} {id : ScopeId} (h : f.scopes[id]? = some s)
    (hb : s.find? name = some b) : f.lookup id name = .ok b.value := by
  have hs : f.scope id = s := by simp [scope, h]
  simp [lookup, lineage, hs, hb]

end Forest

namespace Eval

theorem after_bind {x : Eval α} {f : α → Eval β} (h : x w = .ok a w') :
    (x >>= f).after w = (f a).after w' := by
  simp only [after, bind, EStateM.bind, h]

theorem after_bind_bind {x : Eval α} {f : α → Eval β} {g : β → Eval γ} (h : x w = .ok a w') :
    (x >>= f >>= g).after w = (f a >>= g).after w' := by
  simp only [after, bind, EStateM.bind, h]

theorem openGlobal_of_ok (h : Scope.global natives = .ok s) (w : World) :
    openGlobal natives w =
      .ok w.forest.scopes.length { w with forest := ⟨w.forest.scopes ++ [s]⟩ } := by
  simp only [openGlobal, bind, EStateM.bind, get, getThe, MonadStateOf.get, EStateM.get,
    Forest.openGlobal, h]
  rfl

theorem evolving_openGlobal (natives : Ordered Native) : (openGlobal natives).Evolving := by
  intro w
  cases h : Scope.global natives with
  | ok s =>
    rw [after, openGlobal_of_ok h]
    exact w.forest.evolves_push (Scope.global_eq_ok h).1
  | error cause =>
    simp only [after, openGlobal, bind, EStateM.bind, get, getThe, MonadStateOf.get, EStateM.get,
      Forest.openGlobal, h]
    exact .refl _

end Eval

open Eval

theorem Interpreter.evolving_evaluate (i : Interpreter) (scope? : Option ScopeId) (node : Node) :
    (i.evaluate scope? node).Evolving := by
  have he : (i.enter scope?).Evolving := by
    cases scope? with
    | some scope => exact evolving_pure _
    | none => exact evolving_openGlobal i.natives
  exact evolving_bind he fun _ => node.evolving_eval _ _ _ _

namespace Operation

theorem evolving_perform (operation : Operation) : operation.perform.Evolving := by
  cases operation with
  | openChild parent? => exact fun w => w.forest.evolves_push List.nodup_nil
  | openGlobal natives => exact evolving_bind (evolving_openGlobal _) fun _ => evolving_pure _
  | declare scope b => exact evolving_declare _ _
  | assign scope name value => exact evolving_assign _ _ _
  | lookup scope name => exact evolving_bind (evolving_lookup _ _) fun _ => evolving_pure _
  | resolve scope name =>
    apply evolving_bind fun _ => .refl _
    intro w
    exact evolving_bind (evolving_ofExcept _) fun _ => evolving_pure _
  | call host frame callee arguments =>
    exact evolving_bind (Value.evolving_call _ _ _ _) fun _ => evolving_pure _
  | evaluate i scope? node =>
    exact evolving_bind (i.evolving_evaluate _ _) fun _ => evolving_pure _

theorem evolves_run (operations : List Operation) (w : World) :
    w.forest.Evolves (run operations w).forest := by
  induction operations generalizing w with
  | nil => exact .refl _
  | cons operation operations ih => exact (operation.evolving_perform w).trans (ih _)

theorem run_append (before after : List Operation) (w : World) :
    run (before ++ after) w = run after (run before w) :=
  List.foldl_append

theorem distinct_reached (operations : List Operation) : (reached operations).Distinct := by
  have hd : (World.ofForest .empty).forest.Distinct := nofun
  exact (evolves_run operations _ hd).1

theorem grows_reached (before after : List Operation) :
    (reached before).Grows (reached (before ++ after)) := by
  unfold reached
  rw [run_append]
  exact (evolves_run after _ (distinct_reached before)).2

theorem exists_opened {operation : Operation} (ho : operation.opens? = some natives)
    (hg : Scope.global natives = .ok s) (hd : w.forest.Distinct) :
    ∃ s', (operation.perform.after w).forest.scopes[w.forest.scopes.length]? = some s' ∧
      s.Grows s' := by
  cases operation with
  | openGlobal natives' =>
    cases ho
    rw [perform, after_bind (openGlobal_of_ok hg w)]
    exact ⟨s, List.getElem?_concat_length, .refl s⟩
  | evaluate i scope? node =>
    cases scope? with
    | some scope => cases ho
    | none =>
      cases ho
      have hopen : i.enter none w = _ := openGlobal_of_ok hg w
      have hafter : (perform (.evaluate i none node)).after w = _ := after_bind_bind hopen
      rw [hafter]
      have hnode := evolving_bind (node.evolving_eval i.host w.forest.scopes.length i.evalDepth [])
        fun _ => evolving_pure ()
      obtain ⟨hd', -⟩ := w.forest.evolves_push (Scope.global_eq_ok hg).1 hd
      obtain ⟨-, hgrows⟩ := hnode { w with forest := ⟨w.forest.scopes ++ [s]⟩ } hd'
      exact hgrows _ s List.getElem?_concat_length
  | openChild | declare | assign | lookup | resolve | call => cases ho

theorem lookup_opened {operation : Operation} (before after : List Operation)
    (ho : operation.opens? = some natives) (hg : Scope.global natives = .ok s) :
    ∀ b ∈ s.bindings, b.constant = true →
      (reached (before ++ operation :: after)).lookup (reached before).scopes.length b.name =
        .ok b.value := by
  intro b hb hc
  obtain ⟨t, ht, hgrows⟩ := exists_opened ho hg (distinct_reached before)
  have hopened : reached (before ++ [operation]) = _ := congrArg World.forest (run_append _ _ _)
  rw [List.append_cons]
  obtain ⟨t', ht', hgrows'⟩ := grows_reached (before ++ [operation]) after _ t (hopened ▸ ht)
  have hd := distinct_reached _ t' (List.mem_of_getElem? ht')
  have hfind := Scope.find?_eq_some (Scope.global_eq_ok hg).1 hb
  obtain ⟨b', hb', hk⟩ := (hgrows.trans hgrows').find? hd hfind
  rw [hk.eq_of_constant hc] at hb'
  exact Forest.lookup_of_find? ht' hb'

/-- Between any two points of a session, constants keep their values and stay constant, variables
stay variables, and names stay in the order of their declaration with new ones after them. What a
root scope starts with keeps its value to the end. -/
theorem reached_constancy (before after : List Operation) :
    (∀ s ∈ (reached before).scopes, s.constants ⊆ s.names ∧ s.names.Nodup) ∧
    (∀ (id : ScopeId) (s : Scope), (reached before).scopes[id]? = some s →
      ∃ s', (reached (before ++ after)).scopes[id]? = some s' ∧ s'.enclosing = s.enclosing ∧
        s.names <+: s'.names ∧
        ∀ name b, s.find? name = some b →
          (b.constant = true → s'.find? name = some b) ∧
          (b.constant = false → ∃ value, s'.find? name = some ⟨name, value, false⟩)) ∧
    ∀ (operation : Operation) (natives : Ordered Native) (s : Scope),
      operation.opens? = some natives → Scope.global natives = .ok s →
      let id := (reached before).scopes.length
      let f := reached (before ++ operation :: after)
      f.lookup id "true" = .ok (.boolean true) ∧ f.lookup id "false" = .ok (.boolean false) ∧
        f.lookup id "null" = .ok .null ∧
        ∀ entry ∈ natives, f.lookup id entry.1 = .ok (.native entry.2) := by
  refine ⟨fun s hs => ⟨s.constants_subset, distinct_reached before s hs⟩, ?_, ?_⟩
  · intro id s hs
    obtain ⟨s', hs', hg⟩ := grows_reached before after id s hs
    refine ⟨s', hs', hg.enclosing, hg.names_prefix, fun name b hb => ?_⟩
    have hd := distinct_reached (before ++ after) s' (List.mem_of_getElem? hs')
    obtain ⟨b', hb', hk⟩ := hg.find? hd hb
    refine ⟨fun hc => ?_, fun hc => ⟨b'.value, ?_⟩⟩
    · rw [hb', hk.eq_of_constant hc]
    · have hname : b'.name = name := by simpa using List.find?_some hb'
      rw [hb', ← hname, ← hc, ← hk.constant]
  · intro operation natives s ho hg id f
    obtain ⟨-, htrue, hfalse, hnull, hnatives⟩ := Scope.global_eq_ok hg
    have hlookup := lookup_opened before after ho hg
    exact ⟨hlookup _ htrue rfl, hlookup _ hfalse rfl, hlookup _ hnull rfl,
      fun entry he => hlookup _ (hnatives entry he) rfl⟩

theorem reached_constancy_standard :
    opens? (.openGlobal Native.standard) = some Native.standard ∧
      (reached [.openGlobal Native.standard, .assign 0 "true" .null,
        .evaluate (.standard 0) (some 0) (.declaration "true" false none)]).lookup 0 "true" =
          .ok (.boolean true) := by
  have h := reached_constancy [] [.assign 0 "true" .null,
    .evaluate (.standard 0) (some 0) (.declaration "true" false none)]
  exact ⟨rfl, (h.2.2 (.openGlobal Native.standard) Native.standard _ rfl rfl).1⟩

end Operation

end Ember
