import Ember.Failure

/-!
Scopes: names bound to values, some of them constant, in the order of their declaration. A forest
holds all scopes of a session, and a scope knows the chain of scopes that enclose it.
-/

namespace Ember

structure Binding where
  name : String
  value : Value
  constant : Bool

/-- Scopes are known by their place in the forest. -/
abbrev ScopeId := Nat

structure Scope where
  /-- The enclosing scopes, innermost first. -/
  enclosing : List ScopeId
  bindings : List Binding

namespace Scope

def empty : Scope := ⟨[], []⟩

def find? (s : Scope) (name : String) : Option Binding :=
  s.bindings.find? fun b => b.name == name

def owns (s : Scope) (name : String) : Bool :=
  (s.find? name).isSome

def names (s : Scope) : List String :=
  s.bindings.map (·.name)

/-- Adds a binding at the end; a scope binds a name once. -/
def declare (s : Scope) (b : Binding) : Except Cause Scope :=
  if s.owns b.name then .error (.redeclared b.name)
  else .ok { s with bindings := s.bindings ++ [b] }

/-- Gives the binding of a name another value. -/
def update (s : Scope) (name : String) (value : Value) : Scope :=
  { s with bindings := s.bindings.map fun b => if b.name = name then { b with value } else b }

/-- A root scope: the language's own constants, then the host's functions, all of them constant. -/
def global (natives : Ordered Native) : Except Cause Scope :=
  let constants : List Binding :=
    [⟨"true", .boolean true, true⟩, ⟨"false", .boolean false, true⟩, ⟨"null", .null, true⟩]
  let functions := natives.map fun (name, f) => Binding.mk name (.native f) true
  (constants ++ functions).foldlM declare .empty

end Scope

structure Forest where
  scopes : List Scope

namespace Forest

def empty : Forest := ⟨[]⟩

/-- The scope of an id; an id that is not in use has no bindings. -/
def scope (f : Forest) (id : ScopeId) : Scope :=
  f.scopes[id]?.getD .empty

/-- Adds a scope and gives its id. -/
def push (f : Forest) (s : Scope) : ScopeId × Forest :=
  (f.scopes.length, ⟨f.scopes ++ [s]⟩)

/-- A scope and those that enclose it, innermost first. -/
def lineage (f : Forest) (id : ScopeId) : List ScopeId :=
  id :: (f.scope id).enclosing

/-- Adds an empty scope inside another one, or on its own. -/
def openChild (f : Forest) (parent? : Option ScopeId) : ScopeId × Forest :=
  f.push ⟨(parent?.map f.lineage).getD [], []⟩

/-- Adds a root scope. -/
def openGlobal (f : Forest) (natives : Ordered Native) : Except Cause (ScopeId × Forest) :=
  (Scope.global natives).map f.push

/-- The nearest scope in the lineage that binds a name. -/
def resolve (f : Forest) (id : ScopeId) (name : String) : Except Cause ScopeId :=
  match (f.lineage id).find? fun i => (f.scope i).owns name with
  | some owner => .ok owner
  | none => .error (.unresolved name)

def lookup (f : Forest) (id : ScopeId) (name : String) : Except Cause Value :=
  match (f.lineage id).findSome? fun i => (f.scope i).find? name with
  | some binding => .ok binding.value
  | none => .error (.unresolved name)

/-- Binds a name in the scope itself. -/
def declare (f : Forest) (id : ScopeId) (b : Binding) : Except Cause Forest :=
  ((f.scope id).declare b).map fun s => ⟨f.scopes.set id s⟩

/-- Gives another value to the nearest binding of a name, unless it is constant. -/
def assign (f : Forest) (id : ScopeId) (name : String) (value : Value) : Except Cause Forest :=
  match f.resolve id name with
  | .error cause => .error cause
  | .ok owner =>
    match (f.scope owner).find? name with
    | some ⟨_, _, true⟩ => .error (.constant name)
    | _ => .ok ⟨f.scopes.set owner ((f.scope owner).update name value)⟩

end Forest

end Ember
