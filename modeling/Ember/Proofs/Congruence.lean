import Ember.Interpreter
import Mathlib

/-!
Relations that evaluation carries along. Evaluation is put together from a few steps: a relation that
each of these steps has to its counterpart, and that sequencing keeps, holds between two evaluations
of one node. The names that the node mentions are all that the steps have to be related at.
-/

namespace Ember

set_option autoImplicit true

inductive Action.Within (names : Set String) : Action → Prop where
  | done : Within names (.done answer)
  | fail : Within names (.fail cause)
  | crash : Within names (.crash error)
  | format : (∀ text, Within names (next text)) → Within names (.format value next)
  | write : Within names next → Within names (.write text next)
  | clock : (∀ now, Within names (next now)) → Within names (.clock next)
  | lookup : name ∈ names → (∀ value, Within names (next value)) →
    Within names (.lookup name next)
  | declare : b.name ∈ names → Within names next → Within names (.declare b next)
  | assign : name ∈ names → Within names next → Within names (.assign name value next)

def Host.Within (names : Set String) (host : Host) : Prop :=
  ∀ routine arguments, (host.perform routine arguments).Within names

/-- No function of the host has to do with the scope that it is called in. -/
def Host.Detached (host : Host) : Prop := host.Within ∅

theorem Action.Within.mono {action : Action} (h : action.Within names) (hn : names ⊆ names') :
    action.Within names' := by
  induction h with
  | done => exact .done
  | fail => exact .fail
  | crash => exact .crash
  | format _ ih => exact .format ih
  | write _ ih => exact .write ih
  | clock _ ih => exact .clock ih
  | lookup hm _ ih => exact .lookup (hn hm) ih
  | declare hm _ ih => exact .declare (hn hm) ih
  | assign hm _ ih => exact .assign (hn hm) ih

theorem Action.within_univ (action : Action) : action.Within Set.univ := by
  induction action with
  | done => exact .done
  | fail => exact .fail
  | crash => exact .crash
  | format _ _ ih => exact .format ih
  | write _ _ ih => exact .write ih
  | clock _ ih => exact .clock ih
  | lookup _ _ ih => exact .lookup (Set.mem_univ _) ih
  | declare _ _ ih => exact .declare (Set.mem_univ _) ih
  | assign _ _ _ ih => exact .assign (Set.mem_univ _) ih

theorem Host.within_univ (host : Host) : host.Within Set.univ :=
  fun routine arguments => (host.perform routine arguments).within_univ

theorem Host.Detached.within {host : Host} (h : host.Detached) (names : Set String) :
    host.Within names :=
  fun routine arguments => (h routine arguments).mono (Set.empty_subset names)

theorem Action.within_formatAll {next : List String → Action}
    (h : ∀ texts, (next texts).Within names) (values : List Value) :
    (formatAll next values).Within names := by
  induction values generalizing next with
  | nil => exact h []
  | cons value rest ih => exact .format fun text => ih fun texts => h (text :: texts)

theorem Host.detached_standard (clock : Int) : (Host.standard clock).Detached := by
  intro routine arguments
  simp only [Host.standard]
  split
  · exact Action.within_formatAll (fun _ => .write .done) _
  · apply Action.Within.clock
    intro now
    split
    · exact .crash
    · exact .done
  · exact .done

namespace Node

mutual

/-- The names that evaluation of a node may look up, declare or assign. -/
def names : Node → List String
  | .program body => namesFrom body
  | .declaration name _ none => [name]
  | .declaration name _ (some value) => value.names ++ [name]
  | .assignment (.identifier name) value => value.names ++ [name]
  | .binary left right _ => left.names ++ right.names
  | .call callee arguments => namesFrom arguments ++ callee.names
  | .member owner key computed => owner.names ++ if computed then key.names else []
  | .identifier name => [name]
  | .object properties => entriesNames properties
  | _ => []

def namesFrom : List Node → List String
  | [] => []
  | node :: rest => node.names ++ namesFrom rest

/-- The names of an entry of an object literal. Without a value, its key is looked up. -/
def entryNames : Node → List String
  | .property key none => [key]
  | .property _ (some value) | .declaration _ _ (some value) | .assignment _ value => value.names
  | _ => []

def entriesNames : List Node → List String
  | [] => []
  | entry :: rest => entry.entryNames ++ entriesNames rest

end

def Within (names : Set String) (n : Node) : Prop := ∀ name ∈ n.names, name ∈ names

theorem within_univ (n : Node) : n.Within Set.univ := fun _ _ => Set.mem_univ _

end Node

namespace Eval

/-- A relation that the steps of evaluation at two places have to each other. -/
structure Congruence (R : ∀ {α : Type}, Eval α → Eval α → Prop) (names : Set String)
    (frame frame' : Frame) : Prop where
  pure : ∀ {α : Type} (a : α), R (pure a) (pure a)
  throw : ∀ {α : Type} (e : Failure), R (throw e : Eval α) (throw e)
  bind : ∀ {α β : Type} {x y : Eval α} {f g : α → Eval β}, R x y → (∀ a, R (f a) (g a)) →
    R (x >>= f) (y >>= g)
  showable : ∀ value, R (showable frame.depth value) (showable frame'.depth value)
  record : ∀ deed, R (record frame.path deed) (record frame'.path deed)
  lookup : ∀ name ∈ names, R (lookup frame.scope name) (lookup frame'.scope name)
  declare : ∀ b : Binding, b.name ∈ names → R (declare frame.scope b) (declare frame'.scope b)
  assign : ∀ name ∈ names, ∀ value,
    R (assign frame.scope name value) (assign frame'.scope name value)

namespace Congruence

variable {R : ∀ {α : Type}, Eval α → Eval α → Prop} {names : Set String} {frame frame' : Frame}

theorem ofExcept (h : Congruence R names frame frame') (x : Except Cause α) :
    R (ofExcept x) (ofExcept x) := by
  cases x with
  | ok a => exact h.pure a
  | error cause => exact h.throw _

theorem run (h : Congruence R names frame frame') (clock : Int) {action : Action}
    (ha : action.Within names) : R (action.run clock frame) (action.run clock frame') := by
  induction ha with
  | done => exact h.pure _
  | fail => exact h.throw _
  | crash => exact h.throw _
  | format _ ih => exact h.bind (h.showable _) fun _ => ih _
  | write _ ih => exact h.bind (h.record _) fun _ => ih
  | clock _ ih => exact ih _
  | lookup hm _ ih => exact h.bind (h.lookup _ hm) ih
  | declare hm _ ih => exact h.bind (h.declare _ hm) fun _ => ih
  | assign hm _ ih => exact h.bind (h.assign _ hm _) fun _ => ih

theorem call (h : Congruence R names frame frame') {host : Host} (hh : host.Within names)
    (callee : Value) (arguments : List Value) :
    R (callee.call host frame arguments) (callee.call host frame' arguments) := by
  cases callee with
  | native f =>
    apply h.bind (h.run host.clock (hh f.routine arguments))
    intro answer
    apply h.bind (h.ofExcept answer.toValue)
    intro value
    exact h.bind (h.record _) fun _ => h.pure _
  | _ => exact h.bind (h.showable _) fun _ => h.throw _

variable {child child' : Child}

theorem statements (h : Congruence R names frame frame')
    (hc : ∀ i n, n.Within names → R (child i n) (child' i n))
    (hn : ∀ name ∈ Node.namesFrom nodes, name ∈ names) :
    R (statements child i last nodes) (statements child' i last nodes) := by
  induction nodes generalizing i last with
  | nil => exact h.pure _
  | cons node rest ih =>
    obtain ⟨hnode, hrest⟩ := List.forall_mem_append.1 hn
    exact h.bind (hc i node hnode) fun _ => ih hrest

theorem values (h : Congruence R names frame frame')
    (hc : ∀ i n, n.Within names → R (child i n) (child' i n))
    (hn : ∀ name ∈ Node.namesFrom nodes, name ∈ names) :
    R (values child i nodes) (values child' i nodes) := by
  induction nodes generalizing i with
  | nil => exact h.pure _
  | cons node rest ih =>
    obtain ⟨hnode, hrest⟩ := List.forall_mem_append.1 hn
    apply h.bind (hc i node hnode)
    intro value
    exact h.bind (ih hrest) fun _ => h.pure _

/-- A node that has a value but no key is evaluated as far as its value. -/
theorem keyless (h : Congruence R names frame frame')
    (hc : ∀ i n, n.Within names → R (child i n) (child' i n)) {value : Node}
    (hv : value.Within names) (i : Nat) (e : Failure) :
    R (if value.kind ≠ .placeholder .absent then child i value >>= fun _ => MonadExcept.throw e
        else MonadExcept.throw e : Eval α)
      (if value.kind ≠ .placeholder .absent then child' i value >>= fun _ => MonadExcept.throw e
        else MonadExcept.throw e) := by
  split
  · exact h.bind (hc i value hv) fun _ => h.throw _
  · exact h.throw _

theorem slot (h : Congruence R names frame frame')
    (hc : ∀ i n, n.Within names → R (child i n) (child' i n)) (i : Nat) {n : Node}
    (hn : ∀ name ∈ n.entryNames, name ∈ names) :
    R (slot child frame.scope i n) (slot child' frame'.scope i n) := by
  cases n with
  | property key value? =>
    cases value? with
    | none => exact h.bind (h.lookup key (hn key (List.mem_singleton.2 rfl))) fun _ => h.pure _
    | some value => exact h.bind (hc i value hn) fun _ => h.pure _
  | declaration name constant value? =>
    cases value? with
    | none => exact h.throw _
    | some value => exact h.keyless hc hn i _
  | assignment target value => exact h.keyless hc hn i _
  | number x => exact h.bind (hc i (.placeholder (.number x)) nofun) fun _ => h.pure _
  | string s => exact h.bind (hc i (.placeholder (.text s)) nofun) fun _ => h.pure _
  | _ => exact h.throw _

theorem slots (h : Congruence R names frame frame')
    (hc : ∀ i n, n.Within names → R (child i n) (child' i n))
    (hn : ∀ name ∈ Node.entriesNames nodes, name ∈ names) :
    R (slots child frame.scope i done nodes) (slots child' frame'.scope i done nodes) := by
  induction nodes generalizing i done with
  | nil => exact h.pure _
  | cons node rest ih =>
    obtain ⟨hnode, hrest⟩ := List.forall_mem_append.1 hn
    exact h.bind (h.slot hc i hnode) fun _ => ih hrest

theorem binary (h : Congruence R names frame frame') (operator : String) (x y : Value) :
    R (binary operator x y) (binary operator x y) := by
  unfold Eval.binary
  split
  · split
    · exact h.pure _
    · exact h.throw _
  · exact h.pure _

theorem keyOf (h : Congruence R names frame frame') (value : Value) :
    R (keyOf frame.depth value) (keyOf frame'.depth value) := by
  cases value with
  | string | number => exact h.pure _
  | _ => exact h.bind (h.showable _) fun _ => h.throw _

theorem memberKey (h : Congruence R names frame frame')
    (hc : ∀ i n, n.Within names → R (child i n) (child' i n)) {key : Node} {computed : Bool}
    (hn : ∀ name ∈ if computed then key.names else [], name ∈ names) :
    R (memberKey child frame.depth key computed) (memberKey child' frame'.depth key computed) := by
  cases computed with
  | true => exact h.bind (hc 1 key hn) h.keyOf
  | false =>
    cases key with
    | identifier name => exact h.pure _
    | _ => exact h.throw _

theorem node (h : Congruence R names frame frame') {host : Host} (hh : host.Within names)
    (hc : ∀ i n, n.Within names → R (child i n) (child' i n)) {n : Node} (hn : n.Within names) :
    R (node host frame child n) (node host frame' child' n) := by
  cases n with
  | program body => exact h.statements hc hn
  | declaration name constant value? =>
    have hrest (hname : name ∈ names) (value : Value) : R (do
        Eval.declare frame.scope ⟨name, value, constant⟩
        Eval.record frame.path (.declared name)
        Pure.pure value) (do
        Eval.declare frame'.scope ⟨name, value, constant⟩
        Eval.record frame'.path (.declared name)
        Pure.pure value) := by
      apply h.bind (h.declare _ hname)
      intro _
      exact h.bind (h.record _) fun _ => h.pure _
    cases value? with
    | none => exact h.bind (h.pure _) (hrest (hn name (List.mem_singleton.2 rfl)))
    | some value =>
      obtain ⟨hvalue, hname⟩ := List.forall_mem_append.1 hn
      exact h.bind (hc 0 value hvalue) (hrest (hname name (List.mem_singleton.2 rfl)))
  | assignment target source =>
    cases target with
    | identifier name =>
      obtain ⟨hvalue, hname⟩ := List.forall_mem_append.1 hn
      apply h.bind (hc 1 source hvalue)
      intro value
      apply h.bind (h.assign name (hname name (List.mem_singleton.2 rfl)) value)
      intro _
      exact h.bind (h.record _) fun _ => h.pure _
    | _ => exact h.throw _
  | binary left right operator =>
    obtain ⟨hleft, hright⟩ := List.forall_mem_append.1 hn
    apply h.bind (hc 0 left hleft)
    intro x
    exact h.bind (hc 1 right hright) (h.binary operator x)
  | member owner key computed =>
    obtain ⟨howner, hkey⟩ := List.forall_mem_append.1 hn
    apply h.bind (hc 0 owner howner)
    intro value
    cases value with
    | object entries =>
      apply h.bind (h.memberKey hc hkey)
      intro key
      split
      · exact h.pure _
      · exact h.throw _
    | _ => exact h.throw _
  | call callee arguments =>
    obtain ⟨harguments, hcallee⟩ := List.forall_mem_append.1 hn
    apply h.bind (h.values hc harguments)
    intro values
    exact h.bind (hc 0 callee hcallee) fun function => h.call hh function values
  | identifier name => exact h.lookup name (hn name (List.mem_singleton.2 rfl))
  | number | string | null => exact h.pure _
  | function | property | placeholder => exact h.throw _
  | object properties => exact h.bind (h.slots hc hn) fun _ => h.pure _

end Congruence

end Eval

end Ember
