import Ember.Proofs.Range
import Ember.Session.Basic

/-!
The faults of parsed programs. What a source text spells is evaluated without a fault that only a
tree built by hand can have, and each fault names the kind of node that it arises in.
-/

namespace Ember

set_option autoImplicit true

inductive Family where
  | name
  | redeclaration
  | constant
  | type
  | key
  | zeroDivision
  | operator
  | unsupported
deriving DecidableEq

def Cause.family : Cause → Family
  | .unresolved _ => .name
  | .redeclared _ => .redeclaration
  | .constant _ => .constant
  | .invalidTarget _ | .notCallable _ | .foreignResult _ | .raised _ | .notObject _
  | .invalidKey _ | .unnamedMember => .type
  | .missingKey _ => .key
  | .zeroDivision _ => .zeroDivision
  | .unknownOperator _ => .operator
  | .functionDeclaration _ | .strayProperty | .unknownNode _ => .unsupported

/-- Where the faults of a family arise in parsed programs. -/
def Family.sites : Family → List NodeKind
  | .name => [.identifier, .object, .assignment]
  | .redeclaration => [.declaration]
  | .constant => [.assignment]
  | .type => [.call, .assignment, .member]
  | .key => [.member]
  | .zeroDivision => [.binary]
  | .operator => []
  | .unsupported => [.function]

/-- The kinds of node in which a cause arises, as long as the tree was parsed and no function of the
host blames anything. -/
def Cause.sites : Cause → List NodeKind
  | .unresolved _ => [.identifier, .object, .assignment]
  | .redeclared _ => [.declaration]
  | .constant _ | .invalidTarget _ => [.assignment]
  | .notCallable _ => [.call]
  | .notObject _ | .invalidKey _ | .missingKey _ => [.member]
  | .zeroDivision _ => [.binary]
  | .functionDeclaration _ => [.function]
  | .foreignResult _ | .raised _ | .unnamedMember | .unknownOperator _ | .strayProperty
  | .unknownNode _ => []

theorem Cause.sites_subset (cause : Cause) : cause.sites ⊆ cause.family.sites := by
  cases cause <;> simp [sites, family, Family.sites]

/-- Crashes that the standard functions and arithmetic leave: the remainder of an infinite dividend,
and the time where no double holds it. -/
def Crash.Expected (clock : Int) : Crash → Prop
  | .undefinedRemainder => True
  | .clockOverflow => ∃ negative, Double.ofInt (clock.fdiv 1000000) = .infinite negative
  | .missingArgument | .missingPart .. => False

namespace Failure

/-- A failure of the rule for one kind of node: its own faults have no site yet, and those of its
children have one. -/
def AtRule (clock : Int) (kind : NodeKind) : Failure → Prop
  | .fault cause none => kind ∈ cause.sites
  | .fault cause (some site) => site ∈ cause.sites
  | .tooDeep => True
  | .crash error => error.Expected clock

def AtSite (clock : Int) : Failure → Prop
  | .fault _ none => False
  | .fault cause (some site) => site ∈ cause.sites
  | .tooDeep => True
  | .crash error => error.Expected clock

theorem AtSite.atRule (h : AtSite clock e) (kind : NodeKind) : AtRule clock kind e := by
  cases e with
  | fault cause site =>
    cases site with
    | none => exact h.elim
    | some site => exact h
  | tooDeep => trivial
  | crash error => exact h

end Failure

namespace Forest

theorem lookup_eq_error {f : Forest} {id : ScopeId} (h : f.lookup id name = .error cause) :
    cause = .unresolved name := by
  unfold lookup at h
  split at h
  · cases h
  · exact (Except.error.inj h).symm

theorem declare_eq_error {f : Forest} {id : ScopeId} (h : f.declare id b = .error cause) :
    cause = .redeclared b.name := by
  unfold declare Scope.declare at h
  split at h
  · exact (Except.error.inj h).symm
  · cases h

theorem assign_eq_error {f : Forest} {id : ScopeId} (h : f.assign id name value = .error cause) :
    cause = .unresolved name ∨ cause = .constant name := by
  unfold assign resolve at h
  split at h
  · next hr =>
    split at hr
    · cases hr
    · cases hr
      exact .inl (Except.error.inj h).symm
  · split at h
    · exact .inr (Except.error.inj h).symm
    · cases h

end Forest

namespace Eval

/-- A step that returns has a result of the given sort, and one that fails a failure of the given
sort. -/
def Ensures (post : α → Prop) (fails : Failure → Prop) (x : Eval α) : Prop :=
  ∀ w, match x w with
    | .ok a _ => post a
    | .error e _ => fails e

/-- All failures of a step are of the given sort. -/
abbrev FailsAs (fails : Failure → Prop) (x : Eval α) : Prop := Ensures (fun _ => True) fails x

variable {fails : Failure → Prop} {clock : Int} {kind : NodeKind}

theorem ensures_pure {post : α → Prop} (h : post a) : Ensures post fails (pure a) := fun _ => h

theorem ensures_throw {post : α → Prop} (h : fails e) : Ensures post fails (throw e) := fun _ => h

theorem ensures_bind {x : Eval α} {f : α → Eval β} {post : β → Prop} (hx : Ensures mid fails x)
    (hf : ∀ a, mid a → Ensures post fails (f a)) : Ensures post fails (x >>= f) := by
  intro w
  have hw := hx w
  simp only [bind, EStateM.bind]
  split at hw
  · next a w' h =>
    rw [h]
    exact hf a hw w'
  · next e w' h =>
    rw [h]
    exact hw

theorem FailsAs.of_eq_error {x : Eval α} (h : FailsAs fails x) (he : x w = .error e w') :
    fails e := by
  have hw := h w
  rwa [he] at hw

theorem FailsAs.mono {fails' : Failure → Prop} {x : Eval α} (h : FailsAs fails x)
    (ha : ∀ e, fails e → fails' e) : FailsAs fails' x := by
  intro w
  have hw := h w
  split at hw
  · trivial
  · exact ha _ hw

theorem failsAs_pure (a : α) : FailsAs fails (pure a) := fun _ => trivial

theorem failsAs_throw (h : fails e) : FailsAs fails (throw e : Eval α) := fun _ => h

theorem failsAs_bind {x : Eval α} {f : α → Eval β} {post : β → Prop} (hx : FailsAs fails x)
    (hf : ∀ a, Ensures post fails (f a)) : Ensures post fails (x >>= f) :=
  ensures_bind hx fun a _ => hf a

theorem failsAs_ofExcept {x : Except Cause α}
    (h : ∀ cause, x = .error cause → fails (.fault cause none)) :
    FailsAs fails (ofExcept x) := by
  cases x with
  | ok a => exact failsAs_pure a
  | error cause => exact failsAs_throw (h cause rfl)

theorem failsAs_get : FailsAs fails (get : Eval World) := fun _ => trivial

theorem failsAs_modify (f : World → World) : FailsAs fails (modify f : Eval Unit) :=
  fun _ => trivial

theorem failsAs_record (path : Path) (deed : Deed) : FailsAs fails (record path deed) :=
  failsAs_modify _

theorem failsAs_showable (h : fails .tooDeep) (depth : Nat) (value : Value) :
    FailsAs fails (showable depth value) := by
  unfold showable
  split
  · exact failsAs_pure _
  · exact failsAs_throw h

theorem failsAs_lookup (scope : ScopeId) (h : fails (.fault (.unresolved name) none)) :
    FailsAs fails (lookup scope name) := by
  apply failsAs_bind failsAs_get
  intro w
  apply failsAs_ofExcept
  intro cause hc
  rwa [Forest.lookup_eq_error hc]

theorem failsAs_declare (scope : ScopeId) (h : fails (.fault (.redeclared b.name) none)) :
    FailsAs fails (declare scope b) := by
  apply failsAs_bind failsAs_get
  intro w
  refine failsAs_bind (failsAs_ofExcept fun cause hc => ?_) fun _ => failsAs_modify _
  rwa [Forest.declare_eq_error hc]

theorem failsAs_assign (scope : ScopeId) (value : Value)
    (hu : fails (.fault (.unresolved name) none)) (hc : fails (.fault (.constant name) none)) :
    FailsAs fails (assign scope name value) := by
  apply failsAs_bind failsAs_get
  intro w
  refine failsAs_bind (failsAs_ofExcept fun cause he => ?_) fun _ => failsAs_modify _
  rcases Forest.assign_eq_error he with rfl | rfl
  · exact hu
  · exact hc

theorem ensures_formatAll {frame : Frame} {next : List String → Action} {post : Answer → Prop}
    (hn : ∀ texts, Ensures post (Failure.AtRule clock kind) ((next texts).run clock frame))
    (values : List Value) :
    Ensures post (Failure.AtRule clock kind) ((Action.formatAll next values).run clock frame) := by
  induction values generalizing next with
  | nil => exact hn []
  | cons value rest ih => exact failsAs_bind (failsAs_showable trivial _ _) fun _ => ih fun _ => hn _

/-- The standard functions answer with values, and fail only where a value nests too deeply or the
time does not fit. -/
theorem ensures_perform_standard (frame : Frame) (routine : String) (arguments : List Value) :
    Ensures (fun answer => ∃ value, answer.toValue = .ok value) (Failure.AtRule clock kind)
      (((Host.standard clock).perform routine arguments).run clock frame) := by
  simp only [Host.standard]
  split
  · apply ensures_formatAll
    exact fun _ => failsAs_bind (failsAs_record _ _) fun _ => ensures_pure ⟨_, rfl⟩
  · simp only [Native.time, Action.run]
    split
    · next h => exact ensures_throw ⟨_, h⟩
    · exact ensures_pure ⟨_, rfl⟩
  · exact ensures_pure ⟨_, rfl⟩

theorem failsAs_call (frame : Frame) (callee : Value) (arguments : List Value) :
    FailsAs (Failure.AtRule clock .call) (callee.call (.standard clock) frame arguments) := by
  unfold Value.call
  split
  · apply ensures_bind (ensures_perform_standard _ _ _)
    rintro answer ⟨value, h⟩
    rw [h]
    apply failsAs_bind (failsAs_pure value)
    exact fun _ => failsAs_bind (failsAs_record _ _) fun _ => failsAs_pure _
  · exact failsAs_bind (failsAs_showable trivial _ _) fun _ => failsAs_throw (List.mem_singleton.2 rfl)

section

variable {child : Child}

theorem failsAs_statements (hc : ∀ i, ∀ n ∈ nodes, FailsAs fails (child i n)) :
    FailsAs fails (statements child i last nodes) := by
  induction nodes generalizing i last with
  | nil => exact failsAs_pure _
  | cons node rest ih =>
    obtain ⟨hn, hr⟩ := forall_and.1 fun i => List.forall_mem_cons.1 (hc i)
    exact failsAs_bind (hn i) fun _ => ih hr

theorem failsAs_values (hc : ∀ i, ∀ n ∈ nodes, FailsAs fails (child i n)) :
    FailsAs fails (values child i nodes) := by
  induction nodes generalizing i with
  | nil => exact failsAs_pure _
  | cons node rest ih =>
    obtain ⟨hn, hr⟩ := forall_and.1 fun i => List.forall_mem_cons.1 (hc i)
    exact failsAs_bind (hn i) fun _ => failsAs_bind (ih hr) fun _ => failsAs_pure _

theorem failsAs_slots (hc : ∀ i, ∀ n ∈ nodes, FailsAs fails (slot child scope i n)) :
    FailsAs fails (slots child scope i entries nodes) := by
  induction nodes generalizing i entries with
  | nil => exact failsAs_pure _
  | cons node rest ih =>
    obtain ⟨hn, hr⟩ := forall_and.1 fun i => List.forall_mem_cons.1 (hc i)
    exact failsAs_bind (hn i) fun _ => ih hr

end

theorem failsAs_slot {child : Child} (hn : n.WellFormed .property)
    (hc : ∀ i m, m.WellFormed .expression → FailsAs (Failure.AtRule clock .object) (child i m)) :
    FailsAs (Failure.AtRule clock .object) (slot child scope i n) := by
  cases hn with
  | shorthand =>
    apply failsAs_bind (failsAs_lookup _ (by simp [Failure.AtRule, Cause.sites]))
    exact fun _ => failsAs_pure _
  | keyed _ hv => exact failsAs_bind (hc _ _ hv) fun _ => failsAs_pure _

theorem arithmetic_eq_error (ho : operator ∈ Level.sum.operators ∨ operator ∈ Level.product.operators)
    (h : arithmetic operator x y = .error e) :
    e = .fault (.zeroDivision operator) none ∨ e = .crash .undefinedRemainder := by
  simp only [Level.operators, List.mem_cons, List.not_mem_nil, or_false] at ho
  rcases ho with (rfl | rfl) | rfl | rfl | rfl
  · cases h
  · cases h
  · cases h
  · simp only [arithmetic] at h
    split at h
    · exact .inl (Except.error.inj h).symm
    · cases h
  · simp only [arithmetic] at h
    split at h
    · exact .inl (Except.error.inj h).symm
    · split at h
      · cases h
      · exact .inr (Except.error.inj h).symm

theorem failsAs_binary (x y : Value)
    (ho : operator ∈ Level.sum.operators ∨ operator ∈ Level.product.operators) :
    FailsAs (Failure.AtRule clock .binary) (binary operator x y) := by
  unfold binary
  split
  · split
    · exact failsAs_pure _
    · next h =>
      apply failsAs_throw
      rcases arithmetic_eq_error ho h with rfl | rfl
      · exact List.mem_singleton.2 rfl
      · trivial
  · exact failsAs_pure _

theorem failsAs_keyOf (depth : Nat) (value : Value) :
    FailsAs (Failure.AtRule clock .member) (keyOf depth value) := by
  unfold keyOf
  split
  · exact failsAs_pure _
  · exact failsAs_pure _
  · exact failsAs_bind (failsAs_showable trivial _ _) fun _ => failsAs_throw (List.mem_singleton.2 rfl)

theorem failsAs_member {value : Value} {key : Eval String}
    (hk : FailsAs (Failure.AtRule clock .member) key) :
    FailsAs (Failure.AtRule clock .member) (match value with
      | .object entries => do
        let key ← key
        match Ordered.get? entries key with
        | some value => pure value
        | none => blame (.missingKey key)
      | other => blame (.notObject other)) := by
  split
  · apply failsAs_bind hk
    intro key
    split
    · exact failsAs_pure _
    · exact failsAs_throw (List.mem_singleton.2 rfl)
  · exact failsAs_throw (List.mem_singleton.2 rfl)

theorem failsAs_node (frame : Frame) {child : Child} (hn : n.WellFormed role)
    (hr : role ≠ .property)
    (hc : ∀ (role : Role), role ≠ .property → ∀ i m, m.WellFormed role →
      FailsAs (Failure.AtSite clock) (child i m)) :
    FailsAs (Failure.AtRule clock n.kind) (node (.standard clock) frame child n) := by
  have hs : ∀ {kind} i m, m.WellFormed .statement → FailsAs (Failure.AtRule clock kind) (child i m) :=
    fun i m hm => (hc .statement nofun i m hm).mono fun _ he => he.atRule _
  have he : ∀ {kind} i m, m.WellFormed .expression → FailsAs (Failure.AtRule clock kind) (child i m) :=
    fun i m hm => (hc .expression nofun i m hm).mono fun _ he => he.atRule _
  have hd : ∀ {name constant} value, FailsAs (Failure.AtRule clock .declaration) (do
      declare frame.scope ⟨name, value, constant⟩
      record frame.path (.declared name)
      pure value) := by
    intro name constant value
    apply failsAs_bind (failsAs_declare _ (by simp [Failure.AtRule, Cause.sites]))
    exact fun _ => failsAs_bind (failsAs_record _ _) fun _ => failsAs_pure _
  induction hn with
  | program hb => exact failsAs_statements fun i n hn => hs i n (hb n hn)
  | uninitialized => exact failsAs_bind (failsAs_pure _) hd
  | initialized _ hv => exact failsAs_bind (he 0 _ hv) hd
  | function => exact failsAs_throw (List.mem_singleton.2 rfl)
  | evaluated _ ih => exact ih nofun
  | @assignment target source ht hv =>
    cases target with
    | identifier name =>
      apply failsAs_bind (he 1 _ hv)
      intro value
      apply failsAs_bind (failsAs_assign _ _ (by simp [Failure.AtRule, Cause.sites, Node.kind])
        (by simp [Failure.AtRule, Cause.sites, Node.kind]))
      intro _
      exact failsAs_bind (failsAs_record _ _) fun _ => failsAs_pure _
    | _ => exact failsAs_throw (List.mem_singleton.2 rfl)
  | object hp =>
    refine failsAs_bind (failsAs_slots fun i n hn => ?_) fun _ => failsAs_pure _
    exact failsAs_slot (hp n hn) he
  | binary ho hx hy =>
    exact failsAs_bind (he 0 _ hx) fun x => failsAs_bind (he 1 _ hy) fun y => failsAs_binary x y ho
  | call hf ha =>
    apply failsAs_bind (failsAs_values fun i n hn => he i n (ha n hn))
    intro values
    exact failsAs_bind (he 0 _ hf) fun function => failsAs_call _ _ _
  | named ho => exact failsAs_bind (he 0 _ ho) fun _ => failsAs_member (failsAs_pure _)
  | computed ho hk =>
    refine failsAs_bind (he 0 _ ho) fun _ => failsAs_member ?_
    exact failsAs_bind (he 1 _ hk) fun _ => failsAs_keyOf _ _
  | identifier => exact failsAs_lookup _ (List.mem_cons_self)
  | number | string => exact failsAs_pure _
  | shorthand | keyed => exact absurd rfl hr

/-- A fault without a site gets the kind of the node for its site. -/
theorem failsAs_located {x : Eval α} (h : FailsAs (Failure.AtRule clock kind) x) :
    FailsAs (Failure.AtSite clock) (located kind x) := by
  intro w
  have hw := h w
  unfold located
  cases hx : x w with
  | ok a w' => trivial
  | error e w' =>
    rw [hx] at hw
    cases e with
    | fault cause site => cases site <;> exact hw
    | tooDeep => trivial
    | crash error => exact hw

end Eval

open Eval

theorem Node.WellFormed.failsAs_eval (hn : WellFormed role n) (hr : role ≠ .property) (clock : Int)
    (scope : ScopeId) (depth : Nat) (path : Path) :
    FailsAs (Failure.AtSite clock) (n.eval (.standard clock) scope depth path) := by
  induction depth generalizing role path n with
  | zero => exact failsAs_throw trivial
  | succ depth ih =>
    apply failsAs_located
    exact failsAs_node _ hn hr fun role hr i m hm => ih hm hr (i :: path)

theorem Interpreter.failsAs_enter (clock : Int) (parseDepth evalDepth outlineDepth : Nat)
    (scope? : Option ScopeId) :
    FailsAs fails
      (enter ⟨.standard clock, Native.standard, parseDepth, evalDepth, outlineDepth⟩ scope?) := by
  cases scope? with
  | some scope => exact failsAs_pure _
  | none =>
    unfold enter
    apply failsAs_bind failsAs_get
    intro w
    rw [Forest.openGlobal, Scope.global_standard]
    exact failsAs_bind (failsAs_pure _) fun _ => failsAs_bind (failsAs_modify _) fun _ => failsAs_pure _

theorem Interpreter.failsAs_evaluate (clock : Int) (parseDepth evalDepth outlineDepth : Nat)
    (scope? : Option ScopeId) (h : program.WellFormed .program) :
    FailsAs (Failure.AtSite clock)
      (evaluate ⟨.standard clock, Native.standard, parseDepth, evalDepth, outlineDepth⟩ scope?
        program) :=
  failsAs_bind (failsAs_enter clock parseDepth evalDepth outlineDepth scope?) fun scope =>
    h.failsAs_eval nofun clock scope evalDepth []

def Interpreter.fault? (i : Interpreter) (source : String) : Option (Family × Option NodeKind) :=
  match i.run none source (.ofForest .empty) with
  | .error (.evaluation (.fault cause site)) _ => some (cause.family, site)
  | _ => none

theorem Interpreter.fault?_eq_some {i : Interpreter} (h : i.fault? source = some (family, site)) :
    ∃ program cause w', i.parse source = .ok program ∧
      i.evaluate none program (.ofForest .empty) = .error (.fault cause site) w' ∧
      cause.family = family := by
  unfold fault? run at h
  cases hp : i.parse source with
  | error e =>
    rw [hp] at h
    cases h
  | ok program =>
    rw [hp] at h
    dsimp only at h
    cases he : i.evaluate none program (.ofForest .empty) with
    | ok value w' =>
      rw [he] at h
      cases h
    | error e w' =>
      rw [he] at h
      cases e with
      | fault cause found =>
        obtain ⟨rfl, rfl⟩ := Prod.mk.inj (Option.some.inj h)
        exact ⟨program, cause, w', rfl, he, rfl⟩
      | tooDeep | crash => cases h

/-- With the standard functions, the faults of parsed programs have the sites of their family and
no others, and all of these come up. A fault that only a tree built by hand can have is none of
them. -/
theorem fault_sites :
    (∀ (clock : Int) (parseDepth evalDepth outlineDepth : Nat) (scope? : Option ScopeId)
      (source : String) (program : Node) (w w' : World) (cause : Cause) (site : Option NodeKind),
      let i : Interpreter :=
        ⟨.standard clock, Native.standard, parseDepth, evalDepth, outlineDepth⟩
      i.parse source = .ok program → i.evaluate scope? program w = .error (.fault cause site) w' →
      (∃ kind, site = some kind ∧ kind ∈ cause.family.sites) ∧ cause ≠ .unnamedMember ∧
        cause ≠ .strayProperty ∧ (∀ kind, cause ≠ .unknownNode kind) ∧
        ∀ operator, cause ≠ .unknownOperator operator) ∧
    ∀ family : Family, ∀ kind ∈ family.sites,
      ∃ source, (Interpreter.standard 0).fault? source = some (family, some kind) := by
  refine ⟨?_, ?_⟩
  · intro clock parseDepth evalDepth outlineDepth scope? source program w w' cause site i hparse h
    obtain ⟨hw, -, -⟩ := Grammar.parseSource_eq_ok .chosen hparse
    have hsite := (Interpreter.failsAs_evaluate clock parseDepth evalDepth outlineDepth scope?
      hw).of_eq_error h
    cases site with
    | none => exact hsite.elim
    | some kind =>
      have hsite : kind ∈ cause.sites := hsite
      refine ⟨⟨kind, rfl, cause.sites_subset hsite⟩, ?_, ?_, ?_, ?_⟩
      · rintro rfl
        exact absurd hsite List.not_mem_nil
      · rintro rfl
        exact absurd hsite List.not_mem_nil
      · rintro kind rfl
        exact absurd hsite List.not_mem_nil
      · rintro operator rfl
        exact absurd hsite List.not_mem_nil
  · intro family kind hk
    cases family <;> simp only [Family.sites, List.mem_cons, List.not_mem_nil, or_false] at hk
    case name =>
      rcases hk with rfl | rfl | rfl
      · exact ⟨"x", by decide +kernel⟩
      · exact ⟨"\x7b x \x7d", by decide +kernel⟩
      · exact ⟨"x = 1;", by decide +kernel⟩
    case redeclaration =>
      subst hk
      exact ⟨"let true;", by decide +kernel⟩
    case constant =>
      subst hk
      exact ⟨"true = 1;", by decide +kernel⟩
    case type =>
      rcases hk with rfl | rfl | rfl
      · exact ⟨"1()", by decide +kernel⟩
      · exact ⟨"1 = 1;", by decide +kernel⟩
      · exact ⟨"1.x", by decide +kernel⟩
    case key =>
      subst hk
      exact ⟨"(\x7b x: 1 \x7d).y", by decide +kernel⟩
    case zeroDivision =>
      subst hk
      exact ⟨"1 / 0", by decide +kernel⟩
    case unsupported =>
      subst hk
      exact ⟨"fn f() \x7b \x7d", by decide +kernel⟩

/-- The shorthand is read after the property before it has been evaluated. -/
theorem fault_sites_shorthand :
    ∃ program cause w',
      (Interpreter.standard 0).parse "let y; \x7b a: y = y;, x \x7d" = .ok program ∧
      (Interpreter.standard 0).evaluate none program (.ofForest .empty) =
        .error (.fault cause (some .object)) w' ∧
      cause.family = .name ∧ NodeKind.object ∈ cause.family.sites := by
  have h : (Interpreter.standard 0).fault? "let y; \x7b a: y = y;, x \x7d" =
      some (.name, some .object) := by decide +kernel
  obtain ⟨program, cause, w', hp, he, hf⟩ := Interpreter.fault?_eq_some h
  obtain ⟨⟨kind, hk, hs⟩, -⟩ := fault_sites.1 0 1000 330 980 none _ program _ w' cause _ hp he
  cases hk
  exact ⟨program, cause, w', hp, he, hf, hs⟩

end Ember
