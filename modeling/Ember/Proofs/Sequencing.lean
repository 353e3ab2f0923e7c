import Ember.Proofs.Agreement
import Ember.Proofs.Concatenation
import Ember.Proofs.Range

/-!
Programs that follow each other. The text of two programs, one after the other on lines of their
own, is the program of all their statements, and to run it is to run the first and then, if that
went well, the second.
-/

namespace Ember

set_option autoImplicit true

def Terminal.relocate (place : Position → Position) (t : Terminal k) : Terminal k :=
  ⟨t.token.relocate place, t.isKind⟩

namespace Derivation

def relocate (place : Position → Position) : Derivation s → Derivation s
  | .program ss stop => .program (ss.relocate place) (stop.relocate place)
  | .noStatements => .noStatements
  | .moreStatements s ss => .moreStatements (s.relocate place) (ss.relocate place)
  | .uninitialized word name stop =>
    .uninitialized (word.relocate place) (name.relocate place) (stop.relocate place)
  | .initialized word name equals value stop =>
    .initialized ⟨word.token.relocate place, word.opens⟩ (name.relocate place)
      (equals.relocate place) (value.relocate place) (stop.relocate place)
  | .function word name params opening body closing =>
    .function (word.relocate place) (name.relocate place) (params.relocate place)
      (opening.relocate place) (body.relocate place) (closing.relocate place)
  | .evaluated e => .evaluated (e.relocate place)
  | .plain o => .plain (o.relocate place)
  | .assigned o equals value stop =>
    .assigned (o.relocate place) (equals.relocate place) (value.relocate place)
      (stop.relocate place)
  | .braces opening ps closing =>
    .braces (opening.relocate place) (ps.relocate place) (closing.relocate place)
  | .sum e => .sum (e.relocate place)
  | .noProperties => .noProperties
  | .lastProperty p => .lastProperty (p.relocate place)
  | .moreProperties p comma ps =>
    .moreProperties (p.relocate place) (comma.relocate place) (ps.relocate place)
  | .shorthand key => .shorthand (key.relocate place)
  | .keyed key colon value =>
    .keyed (key.relocate place) (colon.relocate place) (value.relocate place)
  | .chain first more => .chain (first.relocate place) (more.relocate place)
  | .noOperations => .noOperations
  | .moreOperations operator operand more =>
    .moreOperations ⟨operator.token.relocate place, operator.isOperator, operator.isOfLevel⟩
      (operand.relocate place) (more.relocate place)
  | .term e => .term (e.relocate place)
  | .factor e => .factor (e.relocate place)
  | .call callee more => .call (callee.relocate place) (more.relocate place)
  | .noCalls => .noCalls
  | .moreCalls arguments more => .moreCalls (arguments.relocate place) (more.relocate place)
  | .member owner more => .member (owner.relocate place) (more.relocate place)
  | .noAccesses => .noAccesses
  | .named dot name more =>
    .named (dot.relocate place) (name.relocate place) (more.relocate place)
  | .computed opening key closing more =>
    .computed (opening.relocate place) (key.relocate place) (closing.relocate place)
      (more.relocate place)
  | .identifier t => .identifier (t.relocate place)
  | .number t => .number (t.relocate place)
  | .string t => .string (t.relocate place)
  | .parenthesized opening e closing =>
    .parenthesized (opening.relocate place) (e.relocate place) (closing.relocate place)
  | .emptyTuple opening closing => .emptyTuple (opening.relocate place) (closing.relocate place)
  | .tuple opening first more closing =>
    .tuple (opening.relocate place) (first.relocate place) (more.relocate place)
      (closing.relocate place)
  | .noItems => .noItems
  | .moreItems comma i more =>
    .moreItems (comma.relocate place) (i.relocate place) (more.relocate place)
  | .parameter name e => .parameter name (e.relocate place)
  | .argument e => .argument (e.relocate place)

variable (place : Position → Position)

theorem tokens_relocate (d : Derivation s) :
    (d.relocate place).tokens = d.tokens.map (Token.relocate place) := by
  induction d <;> simp [relocate, tokens, Terminal.relocate, *]

theorem tree_relocate (d : Derivation s) : (d.relocate place).tree = d.tree := by
  induction d <;> simp [relocate, tree, Terminal.relocate, *]

theorem nesting_relocate (d : Derivation s) : (d.relocate place).nesting = d.nesting := by
  induction d <;> simp [relocate, nesting, *]

theorem endsInCall_relocate (d : Derivation s) :
    (d.relocate place).EndsInCall ↔ d.EndsInCall := by
  induction d <;> simp [relocate, EndsInCall, *]

theorem Legal.relocate {d : Derivation s} (h : d.Legal) : (d.relocate place).Legal := by
  induction d <;>
    simp_all [Derivation.relocate, Legal, tokens_relocate, tree_relocate, endsInCall_relocate]

def append : Derivation .statements → Derivation .statements → Derivation .statements
  | .noStatements, more => more
  | .moreStatements s ss, more => .moreStatements s (ss.append more)

theorem tokens_append (d e : Derivation .statements) :
    (d.append e).tokens = d.tokens ++ e.tokens := by
  fun_induction append d e with
  | case1 e => rfl
  | case2 s ss e ih => rw [tokens, ih, tokens, List.append_assoc]

theorem tree_append (d e : Derivation .statements) : (d.append e).tree = d.tree ++ e.tree := by
  fun_induction append d e with
  | case1 e => rfl
  | case2 s ss e ih => rw [tree, ih, tree, List.cons_append]

theorem nesting_append (d e : Derivation .statements) :
    (d.append e).nesting = max d.nesting e.nesting := by
  fun_induction append d e with
  | case1 e => simp [nesting]
  | case2 s ss e ih => rw [nesting, ih, nesting, Nat.max_assoc]

theorem Legal.append {d e : Derivation .statements} (hd : d.Legal) (he : e.Legal)
    (hp : ∀ t ∈ e.tokens.head?, t.kind ≠ .leftParen) : (d.append e).Legal := by
  fun_induction Derivation.append d e with
  | case1 e => exact he
  | case2 s ss e ih =>
    obtain ⟨hs, hss, hcall⟩ := hd
    refine ⟨hs, ih hss he hp, fun hends t ht => ?_⟩
    rw [tokens_append, List.head?_append] at ht
    rcases Option.or_eq_some_iff.1 ht with ht | ⟨-, ht⟩
    · exact hcall hends t ht
    · exact hp t ht

end Derivation

namespace Grammar

theorem parseSource_of_nesting (depth : Nat) {d : Derivation .program} (hd : d.Legal)
    (hscan : scanTokens .standard source = .ok d.tokens) :
    (ofDepth depth).parseSource .standard source =
      if d.nesting ≤ depth then .ok d.tree else .error (.parse .tooDeep) := by
  have hr : Readable d.tokens := fun t ht => ((proper_of_scanTokens hscan).2 t ht).isDigits
  rcases parse_of_nesting depth hd hr with ⟨hn, h⟩ | ⟨hn, h⟩
  · simp only [parseSource, hscan, h, if_pos hn]
  · simp only [parseSource, hscan, h, if_neg (Nat.not_le.2 hn)]

/-- A text spells a program if and only if its tokens have a derivation of the program that nests no
deeper than rules may. -/
theorem parseSource_eq_ok_iff {node : Node} :
    (ofDepth depth).parseSource .standard source = .ok node ↔
      ∃ d : Derivation .program, d.Legal ∧ scanTokens .standard source = .ok d.tokens ∧
        d.nesting ≤ depth ∧ d.tree = node := by
  constructor
  · intro h
    obtain ⟨tokens, hscan, -, d, ⟨hd, rfl⟩, htree⟩ := exists_derivation h
    rw [parseSource_of_nesting depth hd hscan] at h
    split at h
    · next hn => exact ⟨d, hd, hscan, hn, htree⟩
    · cases h
  · rintro ⟨d, hd, hscan, hn, rfl⟩
    rw [parseSource_of_nesting depth hd hscan, if_pos hn]

theorem parseSource_newline {first second : String} {node node' : Node}
    (h : (ofDepth depth).parseSource .standard first = .ok node)
    (h' : (ofDepth depth).parseSource .standard second = .ok node')
    (he : Even (first.toList.count '"'))
    (hp : ∀ tokens, scanTokens .standard second = .ok tokens →
      ∀ t ∈ tokens.head?, t.kind ≠ .leftParen) :
    ∃ body body', node = .program body ∧ node' = .program body' ∧
      (ofDepth depth).parseSource .standard (first ++ "\n" ++ second) =
        .ok (.program (body ++ body')) := by
  obtain ⟨d, hd, hscan, hn, rfl⟩ := parseSource_eq_ok_iff.1 h
  obtain ⟨d', hd', hscan', hn', rfl⟩ := parseSource_eq_ok_iff.1 h'
  cases d with
  | program ss stop =>
    cases d' with
    | program ss' stop' =>
      have hboth := scanTokens_newline hscan he hscan'
      generalize (Position.ofText (first ++ "\n").toList).within = place at hboth
      -- The statements of both, the second ones at the places that they have in the whole text.
      refine ⟨_, _, rfl, rfl, parseSource_eq_ok_iff.2
        ⟨.program (ss.append (ss'.relocate place)) (stop'.relocate place), ?_, ?_, ?_, ?_⟩⟩
      · apply Derivation.Legal.append hd (Derivation.Legal.relocate place hd')
        intro t ht
        rw [Derivation.tokens_relocate, List.head?_map] at ht
        obtain ⟨u, hu, rfl⟩ := Option.map_eq_some_iff.1 ht
        exact hp _ hscan' u (by simp [Derivation.tokens, hu])
      · rw [hboth]
        simp [Derivation.tokens, Derivation.tokens_append, Derivation.tokens_relocate,
          Terminal.relocate]
      · simp only [Derivation.nesting, Derivation.nesting_append, Derivation.nesting_relocate]
          at hn hn' ⊢
        omega
      · simp only [Derivation.tree, Derivation.tree_append, Derivation.tree_relocate]

end Grammar

namespace Eval

theorem statements_append (child : Child) (i : Nat) (last : Value) (nodes more : List Node) :
    statements child i last (nodes ++ more) =
      statements child i last nodes >>= fun value =>
        statements child (i + nodes.length) value more := by
  induction nodes generalizing i last with
  | nil => rfl
  | cons node rest ih =>
    simp only [List.cons_append, statements, bind_assoc, ih, List.length_cons,
      Nat.add_assoc, Nat.add_comm 1]

theorem located_bind (kind : NodeKind) (x : Eval α) (f : α → Eval β) :
    located kind (x >>= f) = located kind x >>= fun a => located kind (f a) := by
  funext w
  simp only [located, bind, EStateM.bind]
  cases x w with
  | ok a w' => rfl
  | error e w' =>
    cases e with
    | fault cause site => cases site <;> rfl
    | tooDeep | crash => rfl

/-- A program goes on with the statements of another one, whose value is the last if it has any. -/
theorem agree_program_append (host : Host) (scope : ScopeId) (depth : Nat)
    (body body' : List Node) :
    Agree ((Node.program (body ++ body')).eval host scope depth []) (do
      let value ← (Node.program body).eval host scope depth []
      let value' ← (Node.program body').eval host scope depth []
      pure (if body'.isEmpty then value else value')) := by
  cases depth with
  | zero => exact agree_throw _
  | succ depth =>
    have hc : ChildrenAgree (fun i m => m.eval host scope depth [i])
        (fun i m => m.eval host scope depth [i]) :=
      fun i j m => m.agree_eval host scope depth [i] [j]
    simp only [Node.eval, node, Node.kind, statements_append, located_bind]
    apply agree_bind (agree_located _ (agree_statements hc))
    intro value
    cases body' with
    | nil => exact agree_pure value
    | cons n rest =>
      -- The value before the first statement is dropped, whichever it was.
      simp only [List.isEmpty_cons, Bool.false_eq_true, if_false, bind_pure]
      exact agree_located _ (agree_bind (hc _ _ n) fun _ => agree_statements hc)

end Eval

def Eval.toRun (x : Eval α) : Run α := fun w =>
  match x w with
  | .ok a w' => .ok a w'
  | .error e w' => .error (.evaluation e) w'

namespace Eval

theorem toRun_bind (x : Eval α) (f : α → Eval β) :
    (x >>= f).toRun = x.toRun >>= fun a => (f a).toRun := by
  funext w
  simp only [toRun, bind, EStateM.bind]
  cases x w <;> rfl

theorem Agree.toRun {x y : Eval α} (h : Agree x y) : Agree x.toRun y.toRun := by
  intro w v hw
  have hxy := h w v hw
  unfold Eval.toRun
  generalize x w = r, y v = s at hxy
  cases hxy with
  | ok done hf hl hr => exact .ok done hf hl hr
  | error done hf hl hr => exact .error done hf hl hr

end Eval

/-- What shows of how a run ended: its value or error, the scopes and the text written. -/
def Run.observed : EStateM.Result RunError World Value → Except RunError Value × Forest × String
  | .ok value w => (.ok value, w.forest, w.output)
  | .error e w => (.error e, w.forest, w.output)

theorem Eval.Together.observed_eq {r s : EStateM.Result RunError World Value}
    (h : Together w w r s) : Run.observed r = Run.observed s := by
  cases h with
  | ok done hf hl hr =>
    rw [Run.observed, Run.observed, hf, World.output_eq_of_deeds (hl.trans hr.symm)]
  | error done hf hl hr =>
    rw [Run.observed, Run.observed, hf, World.output_eq_of_deeds (hl.trans hr.symm)]

namespace Interpreter

theorem run_of_parse {i : Interpreter} (h : i.parse source = .ok node) (scope : ScopeId) :
    i.run (some scope) source = (node.eval i.host scope i.evalDepth []).toRun := by
  funext w
  have he : i.evaluate (some scope) node w = node.eval i.host scope i.evalDepth [] w := rfl
  simp only [run, h, he, Eval.toRun]
  cases node.eval i.host scope i.evalDepth [] w <;> rfl

/-- Two programs on lines of their own run as one, if the first leaves no string open and the second
starts with no parenthesis: the text is the program of all their statements, and to run it in a scope
is to run the first program in this scope and then, if that went well, the second. The value is that
of the last statement. -/
theorem run_newline (i : Interpreter) (first second : String) (node node' : Node)
    (h : i.parse first = .ok node) (h' : i.parse second = .ok node')
    (he : Even (first.toList.count '"'))
    (hp : ∀ tokens, scanTokens .standard second = .ok tokens →
      ∀ t ∈ tokens.head?, t.kind ≠ .leftParen) :
    ∃ body body', node = .program body ∧ node' = .program body' ∧
      i.parse (first ++ "\n" ++ second) = .ok (.program (body ++ body')) ∧
      ∀ scope w, Run.observed (i.run (some scope) (first ++ "\n" ++ second) w) =
        Run.observed ((do
          let value ← i.run (some scope) first
          let value' ← i.run (some scope) second
          pure (if body'.isEmpty then value else value') : Run Value) w) := by
  obtain ⟨body, body', rfl, rfl, hboth⟩ := Grammar.parseSource_newline h h' he hp
  refine ⟨body, body', rfl, rfl, hboth, fun scope w => ?_⟩
  have hagree := (Eval.agree_program_append i.host scope i.evalDepth body body').toRun
  simp only [Eval.toRun_bind] at hagree
  rw [run_of_parse h, run_of_parse h', run_of_parse hboth]
  exact (hagree w w rfl).observed_eq

theorem exists_of_isOk {x : Except ε α} (h : x.isOk) : ∃ a, x = .ok a := by
  cases x with
  | error e => cases h
  | ok a => exact ⟨a, rfl⟩

/-- Two lines of a session, where the second goes on with what the first declared. -/
theorem run_newline_session :
    ∃ body body', (standard 0).parse "let n = 2; print(\"n;\", n)" = .ok (.program body) ∧
      (standard 0).parse "n = n * 21; n" = .ok (.program body') ∧
      ∀ w, Run.observed ((standard 0).run (some 0)
          ("let n = 2; print(\"n;\", n)" ++ "\n" ++ "n = n * 21; n") w) =
        Run.observed ((do
          let value ← (standard 0).run (some 0) "let n = 2; print(\"n;\", n)"
          let value' ← (standard 0).run (some 0) "n = n * 21; n"
          pure (if body'.isEmpty then value else value') : Run Value) w) := by
  obtain ⟨node, h⟩ := exists_of_isOk
    (show ((standard 0).parse "let n = 2; print(\"n;\", n)").isOk by decide +kernel)
  obtain ⟨node', h'⟩ := exists_of_isOk
    (show ((standard 0).parse "n = n * 21; n").isOk by decide +kernel)
  have he : Even ("let n = 2; print(\"n;\", n)".toList.count '"') := by decide
  have hp : ∀ tokens, scanTokens .standard "n = n * 21; n" = .ok tokens →
      ∀ t ∈ tokens.head?, t.kind ≠ .leftParen := by
    intro tokens hs
    have hfirst : (scanTokens .standard "n = n * 21; n").toOption.all
        (fun tokens => tokens.head?.all (·.kind != .leftParen)) := by
      decide +kernel
    rw [hs] at hfirst
    intro t ht
    simpa [Except.toOption, Option.mem_def.1 ht] using hfirst
  obtain ⟨body, body', rfl, rfl, -, hrun⟩ := run_newline (standard 0) _ _ _ _ h h' he hp
  exact ⟨body, body', h, h', hrun 0⟩

end Interpreter

end Ember
