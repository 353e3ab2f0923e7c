import Ember.Proofs.Growth
import Ember.Proofs.Lockstep

/-!
Limits on nesting. A run that is not cut off by its limit is the same under any larger one, and one
that is cut off has done the first of the things that are done under a larger limit.
-/

namespace Ember

set_option autoImplicit true

namespace Grammar

theorem parse_ofDepth_le (h : depth ≤ depth') (tokens : List Token) :
    (ofDepth depth).parse tokens = .error .tooDeep ∨
      (ofDepth depth').parse tokens = (ofDepth depth).parse tokens := by
  unfold parse
  rcases program_ofDepth_le h (.ofTokens tokens) with ⟨c, hc⟩ | hc
  · rw [hc]
    exact .inl rfl
  · rw [hc]
    exact .inr rfl

theorem parseSource_ofDepth_le (h : depth ≤ depth')
    (hd : (ofDepth depth).parseSource keywords source ≠ .error (.parse .tooDeep)) :
    (ofDepth depth').parseSource keywords source = (ofDepth depth).parseSource keywords source := by
  unfold parseSource at *
  cases hs : scanTokens keywords source with
  | error e => rfl
  | ok tokens =>
    rw [hs] at hd
    rcases parse_ofDepth_le h tokens with hp | hp
    · simp [hp] at hd
    · simp only [hp]

end Grammar

/-- One thing that is done in a scope or written down. -/
inductive Feat where
  | declare (binding : Binding)
  | assign (name : String) (value : Value)
  | record (event : Event)

/-- Worlds that feats lead to, carried out in a scope one after the other. -/
inductive World.Undergoes (scope : ScopeId) : World → List Feat → World → Prop where
  | nothing : Undergoes scope w [] w
  | declare : w.forest.declare scope b = .ok f → Undergoes scope { w with forest := f } feats v →
      Undergoes scope w (.declare b :: feats) v
  | assign : w.forest.assign scope name value = .ok f →
      Undergoes scope { w with forest := f } feats v →
      Undergoes scope w (.assign name value :: feats) v
  | record : Undergoes scope { w with journal := event :: w.journal } feats v →
      Undergoes scope w (.record event :: feats) v

namespace World.Undergoes

variable {scope : ScopeId}

theorem append (h : Undergoes scope w feats v) (h' : Undergoes scope v feats' u) :
    Undergoes scope w (feats ++ feats') u := by
  induction h with
  | nothing => exact h'
  | declare hd _ ih => exact .declare hd (ih h')
  | assign ha _ ih => exact .assign ha (ih h')
  | record _ ih => exact .record (ih h')

theorem journal_suffix (h : Undergoes scope w feats v) : w.journal <:+ v.journal := by
  induction h with
  | nothing => exact List.suffix_rfl
  | declare _ _ ih | assign _ _ ih => exact ih
  | record _ ih => exact (List.suffix_cons _ _).trans ih

end World.Undergoes

namespace Eval

/-- Two runs from a world: the second one ends as the first one does, unless the first one is cut
off, and then it goes on from where the first one stops. -/
inductive Outlasts {α : Type} (scope : ScopeId) (w : World) :
    EStateM.Result Failure World α → EStateM.Result Failure World α → Prop where
  | ok : w.Undergoes scope done v → Outlasts scope w (.ok a v) (.ok a v)
  | error : w.Undergoes scope done v → Outlasts scope w (.error e v) (.error e v)
  | cutOk : w.Undergoes scope done v → v.Undergoes scope more u →
      Outlasts scope w (.error .tooDeep v) (.ok a u)
  | cutError : w.Undergoes scope done v → v.Undergoes scope more u →
      Outlasts scope w (.error .tooDeep v) (.error e u)

/-- The second step does what the first one does, and more only where the first one is cut off. -/
def Extends (scope : ScopeId) (x y : Eval α) : Prop := ∀ w, Outlasts scope w (x w) (y w)

section

variable {scope : ScopeId} {r s : EStateM.Result Failure World α}

theorem Outlasts.prepend (h : w.Undergoes scope done v) (hr : Outlasts scope v r s) :
    Outlasts scope w r s := by
  cases hr with
  | ok h' => exact .ok (h.append h')
  | error h' => exact .error (h.append h')
  | cutOk h' hm => exact .cutOk (h.append h') hm
  | cutError h' hm => exact .cutError (h.append h') hm

/-- Where the first run was cut off before, the second one still goes on from there. -/
theorem Outlasts.cut (h : w.Undergoes scope done v) (hv : v.Undergoes scope more u)
    (hr : Outlasts scope u r s) : Outlasts scope w (.error .tooDeep v) s := by
  cases hr with
  | ok h' => exact .cutOk h (hv.append h')
  | error h' => exact .cutError h (hv.append h')
  | cutOk h' hm => exact .cutOk h (hv.append (h'.append hm))
  | cutError h' hm => exact .cutError h (hv.append (h'.append hm))

theorem Outlasts.eq (hr : Outlasts scope w r s) (h : ∀ v, r ≠ .error .tooDeep v) : s = r := by
  cases hr with
  | ok | error => rfl
  | cutOk | cutError => exact absurd rfl (h _)

/-- A run that is cut off has done the first part of what the other one does. -/
theorem Extends.exists_feats {x y : Eval α} (hx : Extends scope x y)
    (h : x w = .error .tooDeep v) :
    ∃ done more, w.Undergoes scope done v ∧ v.Undergoes scope more (y.after w) := by
  have hxy := hx w
  unfold after
  rw [h] at hxy
  generalize y w = s at hxy
  cases hxy with
  | error h => exact ⟨_, [], h, .nothing⟩
  | cutOk h hm | cutError h hm => exact ⟨_, _, h, hm⟩

theorem extends_pure (a : α) : Extends scope (pure a) (pure a) := fun _ => .ok .nothing

theorem extends_throw (e : Failure) : Extends scope (throw e : Eval α) (throw e) :=
  fun _ => .error .nothing

theorem extends_exhausted {y : Eval α} (hy : Extends scope y y) :
    Extends scope (throw .tooDeep) y :=
  fun w => (hy w).cut .nothing .nothing

theorem extends_bind {x y : Eval α} {f g : α → Eval β} (hx : Extends scope x y)
    (hf : ∀ a, Extends scope (f a) (g a)) : Extends scope (x >>= f) (y >>= g) := by
  intro w
  have hxy := hx w
  simp only [bind, EStateM.bind]
  generalize x w = r, y w = s at hxy
  cases hxy with
  | ok h => exact (hf _ _).prepend h
  | error h => exact .error h
  | cutOk h hm => exact (hf _ _).cut h hm
  | cutError h hm => exact .cutError h hm

theorem extends_showable (h : depth ≤ depth') (value : Value) :
    Extends scope (showable depth value) (showable depth' value) := by
  unfold showable
  by_cases hv : value.nesting ≤ depth
  · rw [if_pos hv, if_pos (hv.trans h)]
    exact extends_pure _
  · rw [if_neg hv]
    apply extends_exhausted
    split
    · exact extends_pure _
    · exact extends_throw _

theorem extends_record (path : Path) (deed : Deed) :
    Extends scope (record path deed) (record path deed) :=
  fun _ => .ok (.record .nothing)

theorem extends_lookup (name : String) : Extends scope (lookup scope name) (lookup scope name) := by
  intro w
  simp only [lookup, bind, EStateM.bind, get, getThe, MonadStateOf.get, EStateM.get]
  cases w.forest.lookup scope name with
  | ok value => exact extends_pure value w
  | error cause => exact extends_throw _ w

theorem extends_declare (b : Binding) : Extends scope (declare scope b) (declare scope b) := by
  intro w
  simp only [declare, bind, EStateM.bind, get, getThe, MonadStateOf.get, EStateM.get]
  cases h : w.forest.declare scope b with
  | ok f => exact .ok (.declare h .nothing)
  | error cause => exact extends_throw _ w

theorem extends_assign (name : String) (value : Value) :
    Extends scope (assign scope name value) (assign scope name value) := by
  intro w
  simp only [assign, bind, EStateM.bind, get, getThe, MonadStateOf.get, EStateM.get]
  cases h : w.forest.assign scope name value with
  | ok f => exact .ok (.assign h .nothing)
  | error cause => exact extends_throw _ w

theorem extends_congruence (scope : ScopeId) (path : Path) (h : depth ≤ depth') :
    Congruence (fun x y => Extends scope x y) Set.univ ⟨scope, path, depth⟩
      ⟨scope, path, depth'⟩ where
  pure := extends_pure
  throw := extends_throw
  bind := extends_bind
  showable := extends_showable h
  record := extends_record path
  lookup name _ := extends_lookup name
  declare b _ := extends_declare b
  assign name _ := extends_assign name

theorem extends_located {x y : Eval α} (kind : NodeKind) (h : Extends scope x y) :
    Extends scope (located kind x) (located kind y) := by
  intro w
  have hxy := h w
  unfold located
  generalize x w = r, y w = s at hxy
  cases hxy with
  | ok h => exact .ok h
  | cutOk h hm => exact .cutOk h hm
  | @error _ _ e h =>
    cases e with
    | fault cause site => cases site <;> exact .error h
    | tooDeep | crash => exact .error h
  | @cutError _ _ _ _ e h hm =>
    cases e with
    | fault cause site => cases site <;> exact .cutError h hm
    | tooDeep | crash => exact .cutError h hm

end

end Eval

open Eval

theorem Node.extends_succ (host : Host) (scope : ScopeId) (h : depth ≤ depth')
    (hc : ∀ path (n : Node),
      Extends scope (n.eval host scope depth path) (n.eval host scope depth' path))
    (path : Path) (n : Node) :
    Extends scope (n.eval host scope (depth + 1) path) (n.eval host scope (depth' + 1) path) := by
  apply extends_located
  exact (extends_congruence scope path h).node host.within_univ (fun i m _ => hc (i :: path) m)
    n.within_univ

theorem Node.extends_eval (host : Host) (scope : ScopeId) (h : depth ≤ depth') (path : Path)
    (n : Node) : Extends scope (n.eval host scope depth path) (n.eval host scope depth' path) := by
  have hself (d : Nat) (path : Path) (n : Node) :
      Extends scope (n.eval host scope d path) (n.eval host scope d path) := by
    induction d generalizing path n with
    | zero => exact extends_throw _
    | succ d ih => exact extends_succ host scope (Nat.le_refl d) ih path n
  induction depth generalizing depth' path n with
  | zero => exact extends_exhausted (hself depth' path n)
  | succ depth ih =>
    cases depth' with
    | zero => exact absurd h (Nat.not_succ_le_zero depth)
    | succ depth' =>
      have h := Nat.le_of_succ_le_succ h
      exact extends_succ host scope h (fun path n => ih h path n) path n

/-- A limit on nesting cuts off and changes nothing else. What does not run out of depth is the same
with more of it, both when parsing and when evaluating; an evaluation that runs out has done, in
this order, the first of the things that are done with more depth. -/
theorem nesting_limit (h : depth ≤ depth') :
    (∀ keywords source,
      (Grammar.ofDepth depth).parseSource keywords source ≠ .error (.parse .tooDeep) →
        (Grammar.ofDepth depth').parseSource keywords source =
          (Grammar.ofDepth depth).parseSource keywords source) ∧
    ∀ host scope path (n : Node) w,
      ((∀ v, n.eval host scope depth path w ≠ .error .tooDeep v) →
        n.eval host scope depth' path w = n.eval host scope depth path w) ∧
      ∀ v, n.eval host scope depth path w = .error .tooDeep v →
        v.journal.reverse <+: ((n.eval host scope depth' path).after w).journal.reverse ∧
        ∃ done more, w.Undergoes scope done v ∧
          w.Undergoes scope (done ++ more) ((n.eval host scope depth' path).after w) := by
  refine ⟨fun keywords source hd => Grammar.parseSource_ofDepth_le h hd, ?_⟩
  intro host scope path n w
  have he := n.extends_eval host scope h path
  refine ⟨(he w).eq, fun v hv => ?_⟩
  obtain ⟨done, more, hdone, hmore⟩ := he.exists_feats hv
  exact ⟨List.reverse_prefix.2 hmore.journal_suffix, done, more, hdone, hdone.append hmore⟩

/-- A name is bound and printed, before a sum of itself that nests as deep as it is long. -/
def longSum (length : Nat) : Node :=
  .program
    [.declaration "n" false (some (.string "a")), .call (.identifier "print") [.identifier "n"],
     (List.range length).foldl (fun sum _ => .binary sum (.identifier "n") "+") (.identifier "n")]

theorem nesting_limit_longSum :
    let w := World.ofForest ⟨[⟨[], [⟨"print", .native ⟨"print", "print"⟩, true⟩]⟩]⟩
    let cut := (longSum 12).eval (.standard 0) 0 12 []
    let whole := (longSum 12).eval (.standard 0) 0 100 []
    (Grammar.ofDepth 100).parseSource .standard "n" =
        (Grammar.ofDepth 12).parseSource .standard "n" ∧
      (longSum 3).eval (.standard 0) 0 100 [] w = (longSum 3).eval (.standard 0) 0 12 [] w ∧
      (cut.after w).journal.reverse.map (·.deed) =
        [.declared "n", .wrote "a\n", .called ⟨"print", "print"⟩] ∧
      (cut.after w).journal.reverse <+: (whole.after w).journal.reverse ∧
      ∃ done more, w.Undergoes 0 done (cut.after w) ∧
        w.Undergoes 0 (done ++ more) (whole.after w) := by
  intro w cut whole
  obtain ⟨hparse, heval⟩ := nesting_limit (show 12 ≤ 100 by decide)
  have hsource : (Grammar.ofDepth 12).parseSource .standard "n" ≠ .error (.parse .tooDeep) :=
    nofun
  have hshort : ∀ v, (longSum 3).eval (.standard 0) 0 12 [] w ≠ .error .tooDeep v := nofun
  have hlong : cut w = .error .tooDeep (cut.after w) := rfl
  obtain ⟨hjournal, hfeats⟩ := (heval (.standard 0) 0 [] (longSum 12) w).2 _ hlong
  exact ⟨hparse _ _ hsource, (heval (.standard 0) 0 [] (longSum 3) w).1 hshort, rfl, hjournal,
    hfeats⟩

end Ember
