import Ember.Proofs.Faults

/-!
Where faults come from. Evaluation of a node asks for the values of children, one after the other,
and takes steps of its own. What a child fails with is passed on as it is, and a fault of a node's own
step gets the kind of this node for its site: the site of a fault is the innermost node that failed.
-/

namespace Ember

set_option autoImplicit true

/-- A failure, where a fault without a site gets one. -/
def Failure.locate (kind : NodeKind) : Failure → Failure
  | .fault cause none => .fault cause (some kind)
  | e => e

/-- What evaluation of a node does, whatever evaluation of children is: it asks for the values of
children, known by their places, and takes steps of its own. -/
inductive Script where
  | ask (i : Nat) (n : Node) (next : Value → Script)
  | own (x : Eval Value) (next : Value → Script)
  | finish (x : Eval Value)

namespace Script

open Eval

def run (child : Child) : Script → Eval Value
  | .ask i n next => child i n >>= fun value => (next value).run child
  | .own x next => x >>= fun value => (next value).run child
  | .finish x => x

def statements (i : Nat) (last : Value) : List Node → Script
  | [] => .finish (pure last)
  | node :: rest => .ask i node fun value => statements (i + 1) value rest

def values (i : Nat) (next : List Value → Script) : List Node → Script
  | [] => next []
  | node :: rest =>
    .ask i node fun value => values (i + 1) (fun others => next (value :: others)) rest

/-- An entry of an object literal. A property without a value reads its variable itself. -/
def slot (scope : ScopeId) (i : Nat) (next : String × Value → Script) (n : Node) : Script :=
  match n with
  | .property key none => .own (lookup scope key) fun value => next (key, value)
  | .property key (some value) => .ask i value fun value => next (key, value)
  | .declaration _ _ (some value) | .assignment _ value =>
    if value.kind ≠ .placeholder .absent then
      .ask i value fun _ => .finish (throw (.crash (.missingPart n.kind "key")))
    else .finish (throw (.crash (.missingPart n.kind "key")))
  | .declaration _ _ none => .finish (throw (.crash (.missingPart n.kind "key")))
  | .number x => .ask i (.placeholder (.number x)) fun value => next ("", value)
  | .string s => .ask i (.placeholder (.text s)) fun value => next ("", value)
  | _ => .finish (throw (.crash (.missingPart n.kind "value")))

def slots (scope : ScopeId) (i : Nat) (done : Ordered Value) : List Node → Script
  | [] => .finish (pure (.object done))
  | node :: rest =>
    slot scope i (fun entry => slots scope (i + 1) (done.insert entry.1 entry.2) rest) node

def read (entries : Ordered Value) (key : String) : Eval Value :=
  match Ordered.get? entries key with
  | some value => pure value
  | none => blame (.missingKey key)

def node (host : Host) (frame : Frame) : Node → Script
  | .program body => statements 0 .null body
  | .declaration name constant value? =>
    let declaring (value : Value) : Script := .finish (do
      declare frame.scope ⟨name, value, constant⟩
      record frame.path (.declared name)
      pure value)
    match value? with
    | some value => .ask 0 value declaring
    | none => declaring .null
  | .function name _ _ => .finish (blame (.functionDeclaration name))
  | .assignment (.identifier name) source => .ask 1 source fun value => .finish (do
      assign frame.scope name value
      record frame.path (.assigned name)
      pure value)
  | .assignment target _ => .finish (blame (.invalidTarget target.kind))
  | .binary left right operator =>
    .ask 0 left fun x => .ask 1 right fun y => .finish (binary operator x y)
  | .member owner property computed => .ask 0 owner fun
    | .object entries =>
      if computed then
        .ask 1 property fun value => .finish (keyOf frame.depth value >>= read entries)
      else
        match property with
        | .identifier name => .finish (read entries name)
        | _ => .finish (blame .unnamedMember)
    | other => .finish (blame (.notObject other))
  | .call callee arguments => values 1 (fun values => .ask 0 callee fun function =>
      .finish (function.call host frame values)) arguments
  | .identifier name => .finish (lookup frame.scope name)
  | .number x => .finish (pure (.number x))
  | .string s => .finish (pure (.string s))
  | .null => .finish (pure .null)
  | .property _ _ => .finish (blame .strayProperty)
  | .object properties => slots frame.scope 0 [] properties
  | .placeholder held => .finish (blame (.unknownNode (.placeholder held)))

variable {child : Child}

theorem run_statements (i : Nat) (last : Value) (nodes : List Node) :
    (statements i last nodes).run child = Eval.statements child i last nodes := by
  induction nodes generalizing i last with
  | nil => rfl
  | cons node rest ih =>
    rw [statements, run, Eval.statements]
    exact bind_congr fun value => ih (i + 1) value

theorem run_values (i : Nat) (next : List Value → Script) (nodes : List Node) :
    (values i next nodes).run child =
      Eval.values child i nodes >>= fun values => (next values).run child := by
  induction nodes generalizing i next with
  | nil => rfl
  | cons node rest ih =>
    rw [values, run, Eval.values, bind_assoc]
    refine bind_congr fun value => ?_
    rw [ih, bind_assoc]
    rfl

theorem run_slot (scope : ScopeId) (i : Nat) (next : String × Value → Script) (n : Node) :
    (slot scope i next n).run child =
      Eval.slot child scope i n >>= fun entry => (next entry).run child := by
  -- A node that has a value but no key is evaluated as far as its value.
  have hkeyless (value : Node) (e : Failure) :
      (if value.kind ≠ .placeholder .absent then .ask i value fun _ => .finish (throw e)
        else .finish (throw e) : Script).run child =
      ((if value.kind ≠ .placeholder .absent then child i value >>= fun _ => throw e
        else throw e) : Eval (String × Value)) >>= fun entry => (next entry).run child := by
    split
    · rw [run, bind_assoc]
      rfl
    · rfl
  cases n with
  | property key value? =>
    cases value? with
    | none => rw [slot, run, Eval.slot, bind_assoc]; rfl
    | some value => rw [slot, run, Eval.slot, bind_assoc]; rfl
  | declaration name constant value? =>
    cases value? with
    | none => rfl
    | some value => exact hkeyless value _
  | assignment target value => exact hkeyless value _
  | number x => rw [slot, run, Eval.slot, bind_assoc]; rfl
  | string s => rw [slot, run, Eval.slot, bind_assoc]; rfl
  | _ => rfl

theorem run_slots (scope : ScopeId) (i : Nat) (done : Ordered Value) (nodes : List Node) :
    (slots scope i done nodes).run child =
      Eval.slots child scope i done nodes >>= fun entries => pure (.object entries) := by
  induction nodes generalizing i done with
  | nil => rfl
  | cons node rest ih =>
    rw [slots, run_slot, Eval.slots, bind_assoc]
    exact bind_congr fun entry => ih (i + 1) _

/-- Evaluation of a node follows its script. -/
theorem run_node (host : Host) (frame : Frame) (child : Child) (n : Node) :
    (node host frame n).run child = Eval.node host frame child n := by
  cases n with
  | program body => exact run_statements 0 .null body
  | declaration name constant value? => cases value? <;> rfl
  | assignment target source => cases target <;> rfl
  | member owner property computed =>
    refine bind_congr fun value => ?_
    cases value with
    | object entries =>
      cases computed with
      | true => exact (bind_assoc (child 1 property) (keyOf frame.depth) (read entries)).symm
      | false => cases property <;> rfl
    | _ => rfl
  | call callee arguments => exact run_values 1 _ arguments
  | object properties => exact run_slots frame.scope 0 [] properties
  | _ => rfl

/-- Following `s` from `w`, all that comes before `s'` returns, and `s'` is left to follow from
`w'`. -/
inductive Reaches (child : Child) : Script → World → Script → World → Prop where
  | here : Reaches child s w s w
  | asked : child i n w = .ok value w₁ → Reaches child (next value) w₁ s' w' →
      Reaches child (.ask i n next) w s' w'
  | own : x w = .ok value w₁ → Reaches child (next value) w₁ s' w' →
      Reaches child (.own x next) w s' w'

/-- Following `s` from `w`, the child `n` with the place `i` is evaluated from `w'`. -/
def Asks (child : Child) (s : Script) (w : World) (i : Nat) (n : Node) (w' : World) : Prop :=
  ∃ next, Reaches child s w (.ask i n next) w'

/-- Following `s` from `w`, all children that are asked for return, and the own step `x` is taken
from `w'`. -/
def Takes (child : Child) (s : Script) (w : World) (x : Eval Value) (w' : World) : Prop :=
  (∃ next, Reaches child s w (.own x next) w') ∨ Reaches child s w (.finish x) w'

theorem Reaches.run_eq (h : Reaches child s w s' w') : s.run child w = s'.run child w' := by
  induction h with
  | here => rfl
  | asked hc _ ih =>
    rw [← ih]
    simp only [run, bind, EStateM.bind, hc]
  | own hx _ ih =>
    rw [← ih]
    simp only [run, bind, EStateM.bind, hx]

theorem Asks.run_eq_error (h : Asks child s w i n w₁) (he : child i n w₁ = .error e w') :
    s.run child w = .error e w' := by
  obtain ⟨next, h⟩ := h
  rw [h.run_eq]
  simp only [run, bind, EStateM.bind, he]

theorem Takes.run_eq_error (h : Takes child s w x w₁) (he : x w₁ = .error e w') :
    s.run child w = .error e w' := by
  rcases h with ⟨next, h⟩ | h
  · rw [h.run_eq]
    simp only [run, bind, EStateM.bind, he]
  · rw [h.run_eq, run, he]

theorem exists_of_run_eq_error (h : s.run child w = .error e w') :
    (∃ i n w₁, Asks child s w i n w₁ ∧ child i n w₁ = .error e w') ∨
      ∃ x w₁, Takes child s w x w₁ ∧ x w₁ = .error e w' := by
  induction s generalizing w with
  | ask i n next ih =>
    cases hc : child i n w with
    | error e' w₁ =>
      simp only [run, bind, EStateM.bind, hc] at h
      exact .inl ⟨i, n, w, ⟨next, .here⟩, by rw [hc, h]⟩
    | ok value w₁ =>
      simp only [run, bind, EStateM.bind, hc] at h
      rcases ih value h with ⟨j, m, w₂, ⟨next', hr⟩, he⟩ | ⟨x, w₂, ht, he⟩
      · exact .inl ⟨j, m, w₂, ⟨next', .asked hc hr⟩, he⟩
      · exact .inr ⟨x, w₂, ht.imp (fun ⟨next', hr⟩ => ⟨next', .asked hc hr⟩) (.asked hc), he⟩
  | own x next ih =>
    cases hx : x w with
    | error e' w₁ =>
      simp only [run, bind, EStateM.bind, hx] at h
      exact .inr ⟨x, w, .inl ⟨next, .here⟩, by rw [hx, h]⟩
    | ok value w₁ =>
      simp only [run, bind, EStateM.bind, hx] at h
      rcases ih value h with ⟨j, m, w₂, ⟨next', hr⟩, he⟩ | ⟨y, w₂, ht, he⟩
      · exact .inl ⟨j, m, w₂, ⟨next', .own hx hr⟩, he⟩
      · exact .inr ⟨y, w₂, ht.imp (fun ⟨next', hr⟩ => ⟨next', .own hx hr⟩) (.own hx), he⟩
  | finish x => exact .inr ⟨x, w, .inr .here, h⟩

def Owns (fails : Failure → Prop) : Script → Prop
  | .ask _ _ next => ∀ value, (next value).Owns fails
  | .own x next => FailsAs fails x ∧ ∀ value, (next value).Owns fails
  | .finish x => FailsAs fails x

section

variable {fails : Failure → Prop}

theorem Owns.ask (h : ∀ value, (next value).Owns fails) : (Script.ask i n next).Owns fails := h

theorem Owns.own (hx : FailsAs fails x) (h : ∀ value, (next value).Owns fails) :
    (Script.own x next).Owns fails := ⟨hx, h⟩

theorem Owns.finish (h : FailsAs fails x) : (Script.finish x).Owns fails := h

end

theorem Owns.reaches {fails : Failure → Prop} (h : s.Owns fails) (hr : Reaches child s w s' w') :
    s'.Owns fails := by
  induction hr with
  | here => exact h
  | asked _ _ ih => exact ih (h _)
  | own _ _ ih => exact ih (h.2 _)

theorem Owns.takes {fails : Failure → Prop} (h : s.Owns fails) (ht : Takes child s w x w') :
    FailsAs fails x := by
  rcases ht with ⟨next, hr⟩ | hr
  · exact (h.reaches hr).1
  · exact h.reaches hr

end Script

/-- A failure of an own step of a node of this kind: faults have no site yet, and programs have
none. -/
def Failure.IsOwn (kind : NodeKind) : Failure → Prop
  | .fault _ site => site = none ∧ kind ≠ .program
  | .tooDeep | .crash _ => True

/-- A failure of the evaluation of a node: the site of a fault is known, and is no program. -/
def Failure.IsSited : Failure → Prop
  | .fault _ site => ∃ kind, site = some kind ∧ kind ≠ .program
  | .tooDeep | .crash _ => True

theorem Failure.IsOwn.isSited_locate (h : IsOwn kind e) : (e.locate kind).IsSited := by
  cases e with
  | fault cause site =>
    obtain ⟨rfl, hk⟩ := h
    exact ⟨kind, rfl, hk⟩
  | tooDeep | crash => trivial

theorem Failure.IsSited.locate_eq (h : IsSited e) (kind : NodeKind) : e.locate kind = e := by
  cases e with
  | fault cause site =>
    obtain ⟨kind, rfl, -⟩ := h
    rfl
  | tooDeep | crash => rfl

namespace Eval

section

variable {kind : NodeKind} (hk : kind ≠ .program)

include hk

theorem owned_blame (cause : Cause) : FailsAs (Failure.IsOwn kind) (blame cause : Eval α) :=
  failsAs_throw ⟨rfl, hk⟩

theorem owned_ofExcept (x : Except Cause α) : FailsAs (Failure.IsOwn kind) (ofExcept x) :=
  failsAs_ofExcept fun _ _ => ⟨rfl, hk⟩

theorem owned_run (clock : Int) (frame : Frame) (action : Action) :
    FailsAs (Failure.IsOwn kind) (action.run clock frame) := by
  induction action with
  | done => exact failsAs_pure _
  | fail cause => exact owned_blame hk cause
  | crash => exact failsAs_throw trivial
  | format value _ ih => exact failsAs_bind (failsAs_showable trivial _ _) fun _ => ih _
  | write text _ ih => exact failsAs_bind (failsAs_record _ _) fun _ => ih
  | clock _ ih => exact ih clock
  | lookup name _ ih => exact failsAs_bind (failsAs_lookup _ ⟨rfl, hk⟩) ih
  | declare b _ ih => exact failsAs_bind (failsAs_declare _ ⟨rfl, hk⟩) fun _ => ih
  | assign name value _ ih => exact failsAs_bind (failsAs_assign _ _ ⟨rfl, hk⟩ ⟨rfl, hk⟩) fun _ => ih

theorem owned_call (host : Host) (frame : Frame) (callee : Value) (arguments : List Value) :
    FailsAs (Failure.IsOwn kind) (callee.call host frame arguments) := by
  cases callee with
  | native f =>
    apply failsAs_bind (owned_run hk _ _ _)
    intro answer
    apply failsAs_bind (owned_ofExcept hk _)
    exact fun _ => failsAs_bind (failsAs_record _ _) fun _ => failsAs_pure _
  | _ => exact failsAs_bind (failsAs_showable trivial _ _) fun _ => owned_blame hk _

theorem owned_arithmetic (h : arithmetic operator x y = .error e) : e.IsOwn kind := by
  unfold arithmetic at h
  split at h
  · cases h
  · cases h
  · cases h
  · split at h
    · cases h
      exact ⟨rfl, hk⟩
    · cases h
  · split at h
    · cases h
      exact ⟨rfl, hk⟩
    · split at h
      · cases h
      · cases h
        trivial
  · cases h
    exact ⟨rfl, hk⟩

theorem owned_binary (operator : String) (x y : Value) :
    FailsAs (Failure.IsOwn kind) (binary operator x y) := by
  unfold binary
  split
  · split
    · exact failsAs_pure _
    · next h => exact failsAs_throw (owned_arithmetic hk h)
  · exact failsAs_pure _

theorem owned_keyOf (depth : Nat) (value : Value) :
    FailsAs (Failure.IsOwn kind) (keyOf depth value) := by
  cases value with
  | string | number => exact failsAs_pure _
  | _ => exact failsAs_bind (failsAs_showable trivial _ _) fun _ => owned_blame hk _

theorem owned_read (entries : Ordered Value) (key : String) :
    FailsAs (Failure.IsOwn kind) (Script.read entries key) := by
  unfold Script.read
  split
  · exact failsAs_pure _
  · exact owned_blame hk _

end

end Eval

namespace Script

open Eval

theorem owns_statements {fails : Failure → Prop} (i : Nat) (last : Value) (nodes : List Node) :
    (statements i last nodes).Owns fails := by
  induction nodes generalizing i last with
  | nil => exact .finish (failsAs_pure last)
  | cons node rest ih => exact .ask fun value => ih (i + 1) value

theorem owns_values {fails : Failure → Prop} {next : List Value → Script}
    (h : ∀ values, (next values).Owns fails) (i : Nat) (nodes : List Node) :
    (values i next nodes).Owns fails := by
  induction nodes generalizing i next with
  | nil => exact h []
  | cons node rest ih => exact .ask fun value => ih (fun others => h (value :: others)) (i + 1)

theorem owns_slot (hk : kind ≠ .program) {next : String × Value → Script}
    (h : ∀ entry, (next entry).Owns (Failure.IsOwn kind)) (scope : ScopeId) (i : Nat) (n : Node) :
    (slot scope i next n).Owns (Failure.IsOwn kind) := by
  have hcrash (error : Crash) :
      (Script.finish (throw (.crash error))).Owns (Failure.IsOwn kind) :=
    .finish (failsAs_throw trivial)
  have hkeyless (value : Node) (error : Crash) :
      (if value.kind ≠ .placeholder .absent then .ask i value fun _ => .finish (throw (.crash error))
        else .finish (throw (.crash error)) : Script).Owns (Failure.IsOwn kind) := by
    split
    · exact .ask fun _ => hcrash error
    · exact hcrash error
  cases n with
  | property key value? =>
    cases value? with
    | none => exact .own (failsAs_lookup _ ⟨rfl, hk⟩) fun value => h (key, value)
    | some value => exact .ask fun value => h (key, value)
  | declaration name constant value? =>
    cases value? with
    | none => exact hcrash _
    | some value => exact hkeyless value _
  | assignment target value => exact hkeyless value _
  | number | string => exact .ask fun value => h ("", value)
  | _ => exact hcrash _

theorem owns_slots (hk : kind ≠ .program) (scope : ScopeId) (i : Nat) (done : Ordered Value)
    (nodes : List Node) : (slots scope i done nodes).Owns (Failure.IsOwn kind) := by
  induction nodes generalizing i done with
  | nil => exact .finish (failsAs_pure _)
  | cons node rest ih => exact owns_slot hk (fun entry => ih (i + 1) _) scope i node

theorem owns_node (host : Host) (frame : Frame) (n : Node) :
    (node host frame n).Owns (Failure.IsOwn n.kind) := by
  cases n with
  | program body => exact owns_statements 0 .null body
  | declaration name constant value? =>
    have hk : NodeKind.declaration ≠ .program := nofun
    have hdeclaring (value : Value) : FailsAs (Failure.IsOwn .declaration) (do
        declare frame.scope ⟨name, value, constant⟩
        record frame.path (.declared name)
        pure value) := by
      apply failsAs_bind (failsAs_declare _ ⟨rfl, hk⟩)
      exact fun _ => failsAs_bind (failsAs_record _ _) fun _ => failsAs_pure _
    cases value? with
    | none => exact .finish (hdeclaring .null)
    | some value => exact .ask fun value => .finish (hdeclaring value)
  | assignment target source =>
    have hk : NodeKind.assignment ≠ .program := nofun
    cases target with
    | identifier name =>
      refine .ask fun value => .finish ?_
      apply failsAs_bind (failsAs_assign _ _ ⟨rfl, hk⟩ ⟨rfl, hk⟩)
      exact fun _ => failsAs_bind (failsAs_record _ _) fun _ => failsAs_pure _
    | _ => exact .finish (owned_blame hk _)
  | binary left right operator =>
    have hk : NodeKind.binary ≠ .program := nofun
    exact .ask fun x => .ask fun y => .finish (owned_binary hk operator x y)
  | member owner property computed =>
    have hk : NodeKind.member ≠ .program := nofun
    refine .ask fun value => ?_
    cases value with
    | object entries =>
      cases computed with
      | true =>
        refine .ask fun value => .finish ?_
        exact failsAs_bind (owned_keyOf hk _ _) (owned_read hk _)
      | false =>
        cases property with
        | identifier name => exact .finish (owned_read hk _ _)
        | _ => exact .finish (owned_blame hk _)
    | _ => exact .finish (owned_blame hk _)
  | call callee arguments =>
    have hk : NodeKind.call ≠ .program := nofun
    refine owns_values (fun values => ?_) 1 arguments
    exact .ask fun function => .finish (owned_call hk host frame function values)
  | identifier name =>
    have hk : NodeKind.identifier ≠ .program := nofun
    exact .finish (failsAs_lookup _ ⟨rfl, hk⟩)
  | number | string | null => exact .finish (failsAs_pure _)
  | function =>
    have hk : NodeKind.function ≠ .program := nofun
    exact .finish (owned_blame hk _)
  | property =>
    have hk : NodeKind.property ≠ .program := nofun
    exact .finish (owned_blame hk _)
  | object properties =>
    have hk : NodeKind.object ≠ .program := nofun
    exact owns_slots hk _ _ _ _
  | placeholder held =>
    have hk : NodeKind.placeholder held ≠ .program := nofun
    exact .finish (owned_blame hk _)

end Script

open Eval

theorem Eval.located_eq_error {x : Eval α} (h : x w = .error e w') :
    located kind x w = .error (e.locate kind) w' := by
  unfold located
  rw [h]
  cases e with
  | fault cause site => cases site <;> rfl
  | tooDeep | crash => rfl

theorem Eval.exists_of_located_eq_error {x : Eval α} (h : located kind x w = .error e w') :
    ∃ e', x w = .error e' w' ∧ e = e'.locate kind := by
  cases hx : x w with
  | ok a w₁ =>
    unfold located at h
    rw [hx] at h
    cases h
  | error e' w₁ =>
    rw [located_eq_error hx] at h
    cases h
    exact ⟨e', rfl, rfl⟩

namespace Node

abbrev children (host : Host) (scope : ScopeId) (depth : Nat) (path : Path) : Child :=
  fun i m => m.eval host scope depth (i :: path)

theorem sited_eval (host : Host) (scope : ScopeId) (depth : Nat) (path : Path) (n : Node) :
    FailsAs Failure.IsSited (n.eval host scope depth path) := by
  induction depth generalizing path n with
  | zero => exact failsAs_throw trivial
  | succ depth ih =>
    intro w
    split
    · trivial
    · next e w' h =>
      obtain ⟨e', he, rfl⟩ := exists_of_located_eq_error h
      rw [← Script.run_node] at he
      rcases Script.exists_of_run_eq_error he with ⟨i, m, w₁, -, hc⟩ | ⟨x, w₁, ht, hx⟩
      · have hs := (ih (i :: path) m).of_eq_error hc
        rwa [hs.locate_eq]
      · exact (((Script.owns_node _ _ n).takes ht).of_eq_error hx).isSited_locate

/-- Evaluation of a node fails with this cause at a node of this kind: either an own step of the node
fails, or the evaluation of a child that it asks for does. -/
inductive FailsAt (host : Host) (scope : ScopeId) :
    Nat → Path → Node → World → Cause → NodeKind → World → Prop where
  | own {depth : Nat} {path : Path} {n : Node} {x : Eval Value} :
      (Script.node host ⟨scope, path, depth⟩ n).Takes (children host scope depth path) w x w₁ →
      x w₁ = .error (.fault cause none) w' →
      FailsAt host scope (depth + 1) path n w cause n.kind w'
  | child {depth : Nat} {path : Path} {n : Node} {kind : NodeKind} :
      (Script.node host ⟨scope, path, depth⟩ n).Asks (children host scope depth path) w i m w₁ →
      FailsAt host scope depth (i :: path) m w₁ cause kind w' →
      FailsAt host scope (depth + 1) path n w cause kind w'

theorem eval_of_asks {n : Node}
    (h : (Script.node host ⟨scope, path, depth⟩ n).Asks (children host scope depth path) w i m w₁)
    (he : m.eval host scope depth (i :: path) w₁ = .error e w') :
    n.eval host scope (depth + 1) path w = .error e w' := by
  have hr := Script.run_node host ⟨scope, path, depth⟩ (children host scope depth path) n ▸
    h.run_eq_error he
  have hs := (sited_eval host scope depth (i :: path) m).of_eq_error he
  exact (located_eq_error hr).trans (by rw [hs.locate_eq])

theorem eval_of_takes {n : Node}
    (h : (Script.node host ⟨scope, path, depth⟩ n).Takes (children host scope depth path) w x w₁)
    (he : x w₁ = .error (.fault cause site) w') :
    n.eval host scope (depth + 1) path w = .error (.fault cause (some n.kind)) w' := by
  have hr := Script.run_node host ⟨scope, path, depth⟩ (children host scope depth path) n ▸
    h.run_eq_error he
  obtain ⟨rfl, -⟩ := ((Script.owns_node host _ n).takes h).of_eq_error he
  exact located_eq_error hr

theorem FailsAt.eval_eq {kind : NodeKind} (h : FailsAt host scope depth path n w cause kind w') :
    n.eval host scope depth path w = .error (.fault cause (some kind)) w' := by
  induction h with
  | own ht he => exact eval_of_takes ht he
  | child ha _ ih => exact eval_of_asks ha ih

end Node

end Ember
