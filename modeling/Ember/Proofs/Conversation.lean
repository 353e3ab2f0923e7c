import Ember.Proofs.Interception
import Ember.Proofs.Showing
import Mathlib.Data.List.DropRight

/-!
Sessions as a whole. The scopes that a session ends with are those that its programs leave, one
after the other, since the last reset. Nothing else that is typed matters to them or to the
programs, and what comes after the end is not read.
-/

namespace Ember

set_option autoImplicit true

namespace Session

/-- What an input is for. -/
inductive Purpose where
  | stop
  | nothing
  | command (c : Command)
  | program (text : String)
deriving DecidableEq

def Input.purpose : Input → Purpose
  | .endOfInput => .stop
  | .interrupt => .nothing
  | .line text =>
    if isExitLine text then .stop
    else if isBlankLine text then .nothing
    else
      match Command.read? text with
      | some c => .command c
      | none => .program text

namespace Purpose

/-- Purposes that have nothing to do with programs: interrupts, blank lines, and all commands but
resets. -/
inductive Idle : Purpose → Prop where
  | nothing : Idle .nothing
  | command {c : Command} : c ≠ .reset → Idle (.command c)

def program? : Purpose → Option String
  | .program text => some text
  | _ => none

def tree? : Purpose → Option String
  | .command (.tree argument) => some argument
  | _ => none

def traceback? : Purpose → Option String
  | .command (.traceback argument) => some argument
  | _ => none

end Purpose

/-- How a program ends in the root scope. -/
def attempt (clock : Int) (f : Forest) (text : String) : EStateM.Result RunError World Value :=
  (Interpreter.standard clock).run (some root) text (.ofForest f)

/-- The scopes that a program leaves, whether or not it fails. -/
def leave (clock : Int) (f : Forest) (text : String) : Forest :=
  match attempt clock f text with
  | .ok _ w => w.forest
  | .error _ w => w.forest

def verdict (clock : Int) (s : Session) (text : String) : Status :=
  match (s.evaluate clock text).2.2 with
  | .ok _ => .running
  | .error e => if e.isReported then .running else .crashed e

namespace Purpose

def scopes (clock : Int) (f : Forest) : Purpose → Forest
  | .command .reset => freshForest
  | .program text => leave clock f text
  | .stop | .nothing | .command _ => f

def status (clock : Int) (s : Session) : Purpose → Status
  | .stop => .finished
  | .nothing | .command _ => .running
  | .program text => verdict clock s text

def tried (clock : Int) (f : Forest) (p : Purpose) :
    List (String × EStateM.Result RunError World Value) :=
  p.program?.toList.map fun text => (text, attempt clock f text)

end Purpose

def turnTree (flag : Bool) (argument : String) : Bool :=
  (toggle? argument flag).getD flag

def turnTrace (setting : Option String) (argument : String) : Option String :=
  match toggle? argument (traceEnabled setting) with
  | some flag => if flag then some "1" else none
  | none => setting

/-- The session after an input. Its scopes and its settings have nothing to do with each other. -/
def Purpose.apply (clock : Int) (s : Session) (p : Purpose) : Session where
  forest := p.scopes clock s.forest
  showTree :=
    match p.tree? with
    | some argument => turnTree s.showTree argument
    | none => s.showTree
  trace :=
    match p.traceback? with
    | some argument => turnTrace s.trace argument
    | none => s.trace

variable {clock : Int} {clearing : String} {s s' : Session}

theorem Purpose.Idle.scopes {p : Purpose} (h : p.Idle) (f : Forest) : p.scopes clock f = f := by
  cases h with
  | nothing => rfl
  | @command c hc =>
    cases c with
    | reset => exact absurd rfl hc
    | clear | tree | traceback | unknown => rfl

theorem Purpose.Idle.status {p : Purpose} (h : p.Idle) (s : Session) :
    p.status clock s = .running := by
  cases h <;> rfl

theorem Purpose.Idle.tried {p : Purpose} (h : p.Idle) (f : Forest) : p.tried clock f = [] := by
  cases h <;> rfl

theorem obey_eq (clearing : String) (s : Session) (c : Command) :
    (s.obey clearing c).1 = (Purpose.command c).apply clock s := by
  cases c with
  | clear | reset | unknown => rfl
  | tree argument =>
    simp only [obey, Purpose.apply, Purpose.tree?, turnTree]
    cases toggle? argument s.showTree <;> rfl
  | traceback argument =>
    simp only [obey, Purpose.apply, Purpose.traceback?, turnTrace]
    cases toggle? argument (traceEnabled s.trace) <;> rfl

theorem evaluate_of_ok (hp : (Interpreter.standard clock).parse text = .ok program)
    (ha : attempt clock s.forest text = .ok value w) :
    s.evaluate clock text = ({ s with forest := w.forest }, w.output,
      (Interpreter.standard clock).present s.showTree program value) := by
  simp only [attempt, Interpreter.run, hp] at ha
  simp only [evaluate, hp]
  cases he : (Interpreter.standard clock).evaluate (some root) program (.ofForest s.forest) with
  | ok =>
    rw [he] at ha
    cases ha
    rfl
  | error =>
    rw [he] at ha
    cases ha

theorem evaluate_of_error (ha : attempt clock s.forest text = .error e w) :
    s.evaluate clock text = ({ s with forest := w.forest }, w.output, .error e) := by
  simp only [attempt, Interpreter.run] at ha
  simp only [evaluate]
  cases hp : (Interpreter.standard clock).parse text with
  | error =>
    rw [hp] at ha
    cases ha
    rfl
  | ok program =>
    rw [hp] at ha
    dsimp only at ha ⊢
    cases he : (Interpreter.standard clock).evaluate (some root) program (.ofForest s.forest) with
    | ok =>
      rw [he] at ha
      cases ha
    | error =>
      rw [he] at ha
      cases ha
      rfl

theorem exists_program_of_attempt (ha : attempt clock f text = .ok value w) :
    ∃ program, (Interpreter.standard clock).parse text = .ok program := by
  cases hp : (Interpreter.standard clock).parse text with
  | ok program => exact ⟨program, rfl⟩
  | error =>
    simp only [attempt, Interpreter.run, hp] at ha
    cases ha

theorem evaluate_fst (clock : Int) (s : Session) (text : String) :
    (s.evaluate clock text).1 = { s with forest := leave clock s.forest text } := by
  unfold leave
  cases ha : attempt clock s.forest text with
  | ok value w =>
    obtain ⟨program, hp⟩ := exists_program_of_attempt ha
    rw [evaluate_of_ok hp ha]
  | error e w => rw [evaluate_of_error ha]

/-- Of the settings, only that for trees has to do with how a program ends. -/
theorem Purpose.status_congr (hf : s'.forest = s.forest) (ht : s'.showTree = s.showTree)
    (p : Purpose) : p.status clock s' = p.status clock s := by
  cases p with
  | stop | nothing | command => rfl
  | program text =>
    simp only [Purpose.status, verdict]
    cases ha : attempt clock s.forest text with
    | ok value w =>
      obtain ⟨program, hp⟩ := exists_program_of_attempt ha
      rw [evaluate_of_ok hp ha, evaluate_of_ok hp (hf ▸ ha), ht]
    | error e w => rw [evaluate_of_error ha, evaluate_of_error (hf ▸ ha)]

/-- Where one session goes on, another with the same scopes goes on too, or fails to show a tree. -/
theorem Purpose.status_of_running {p : Purpose} (hf : s'.forest = s.forest)
    (h : p.status clock s = .running) :
    p.status clock s' = .running ∨ p.status clock s' = .crashed (.outline .tooDeep) := by
  cases p with
  | stop => cases h
  | nothing | command => exact .inl rfl
  | program text =>
    simp only [Purpose.status, verdict] at h ⊢
    cases ha : attempt clock s.forest text with
    | ok value w =>
      obtain ⟨program, hp⟩ := exists_program_of_attempt ha
      rw [evaluate_of_ok hp ha] at h
      rw [evaluate_of_ok hp (hf ▸ ha)]
      cases hshown : (Interpreter.standard clock).present s.showTree program value with
      | ok shown =>
        rcases Interpreter.present_of_present hp hshown s'.showTree with ⟨shown', h'⟩ | h'
        · exact .inl (by rw [h'])
        · exact .inr (by rw [h']; rfl)
      | error e =>
        rw [hshown] at h
        rcases Interpreter.present_eq_error hp hshown with rfl | rfl <;> cases h
    | error e w =>
      rw [evaluate_of_error ha] at h
      rw [evaluate_of_error (hf ▸ ha)]
      exact .inl h

/-- One input: what the session is after it, and whether it goes on. -/
theorem respond_eq (clock : Int) (clearing : String) (s : Session) (input : Input) :
    (s.respond clock clearing input).1 = input.purpose.apply clock s ∧
      (s.respond clock clearing input).2.2 = input.purpose.status clock s := by
  cases input with
  | interrupt | endOfInput => exact ⟨rfl, rfl⟩
  | line text =>
    simp only [respond, Input.purpose]
    split
    · exact ⟨rfl, rfl⟩
    · split
      · exact ⟨rfl, rfl⟩
      · cases Command.read? text with
        | some c => exact ⟨obey_eq clearing s c, rfl⟩
        | none =>
          have hs := evaluate_fst clock s text
          simp only [Purpose.apply, Purpose.scopes, Purpose.tree?, Purpose.traceback?,
            Purpose.status, verdict]
          generalize s.evaluate clock text = answer at hs ⊢
          rcases answer with ⟨next, out, e | shown⟩
          · dsimp only at hs ⊢
            split <;> exact ⟨hs, rfl⟩
          · exact ⟨hs, rfl⟩

theorem converse_cons (s : Session) (input : Input) (rest : List Input) :
    s.converse clock clearing (input :: rest) =
      let next := input.purpose.apply clock s
      let printed := (s.respond clock clearing input).2.1
      match input.purpose.status clock s with
      | .running =>
        let later := next.converse clock clearing rest
        { later with printed := printed :: later.printed }
      | .finished => ⟨[printed], rest.length, next, none⟩
      | .crashed e => ⟨[printed], rest.length, next, some e⟩ := by
  obtain ⟨hs, hstatus⟩ := respond_eq clock clearing s input
  rw [← hs, ← hstatus, converse]
  rcases s.respond clock clearing input with ⟨next, printed, status⟩
  cases status <;> rfl

theorem converse_stop (h : input.purpose = .stop) (s : Session) (rest : List Input) :
    s.converse clock clearing (input :: rest) =
      ⟨[(s.respond clock clearing input).2.1], rest.length, s, none⟩ := by
  rw [converse_cons, h]
  rfl

theorem converse_running (h : input.purpose.status clock s = .running) (rest : List Input) :
    s.converse clock clearing (input :: rest) =
      let later := (input.purpose.apply clock s).converse clock clearing rest
      { later with printed := (s.respond clock clearing input).2.1 :: later.printed } := by
  rw [converse_cons, h]

theorem converse_crashed (h : input.purpose.status clock s = .crashed e) (rest : List Input) :
    s.converse clock clearing (input :: rest) =
      ⟨[(s.respond clock clearing input).2.1], rest.length, input.purpose.apply clock s, some e⟩ := by
  rw [converse_cons, h]

theorem Purpose.status_ne_finished {p : Purpose} (hp : p ≠ .stop) (s : Session) :
    p.status clock s ≠ .finished := by
  cases p with
  | stop => exact absurd rfl hp
  | nothing | command => nofun
  | program text =>
    simp only [Purpose.status, verdict]
    split
    · nofun
    · split <;> nofun

theorem running_of_crash_eq_none (h : (s.converse clock clearing (input :: rest)).crash = none)
    (hp : input.purpose ≠ .stop) : input.purpose.status clock s = .running := by
  cases hstatus : input.purpose.status clock s with
  | running => rfl
  | finished => exact absurd hstatus (Purpose.status_ne_finished hp s)
  | crashed e =>
    rw [converse_crashed hstatus] at h
    cases h

/-- The inputs that a session hears: those before the first one that ends it. -/
def heard (inputs : List Input) : List Input := inputs.takeWhile fun input => input.purpose != .stop

theorem heard_cons (h : input.purpose ≠ .stop) (rest : List Input) :
    heard (input :: rest) = input :: heard rest :=
  List.takeWhile_cons_of_pos (by simpa using h)

theorem heard_cons_stop (h : input.purpose = .stop) (rest : List Input) :
    heard (input :: rest) = [] :=
  List.takeWhile_cons_of_neg (by simp [h])

theorem final_eq (inputs : List Input) (h : (s.converse clock clearing inputs).crash = none) :
    (s.converse clock clearing inputs).final =
      (heard inputs).foldl (fun s input => input.purpose.apply clock s) s := by
  induction inputs generalizing s with
  | nil => rfl
  | cons input rest ih =>
    by_cases hr : input.purpose = .stop
    · rw [converse_stop hr, heard_cons_stop hr]
      rfl
    · have hrun := running_of_crash_eq_none h hr
      rw [converse_running hrun] at h ⊢
      rw [heard_cons hr]
      exact ih h

theorem converse_append_stop (before after : List Input)
    (hb : ∀ input ∈ before, input.purpose ≠ .stop) (hs : stop.purpose = .stop)
    (h : (s.converse clock clearing (before ++ stop :: after)).crash = none) (after' : List Input) :
    (s.converse clock clearing (before ++ stop :: after)).unread = after.length ∧
      s.converse clock clearing (before ++ stop :: after') =
        { s.converse clock clearing (before ++ stop :: after) with unread := after'.length } := by
  induction before generalizing s with
  | nil =>
    rw [List.nil_append, List.nil_append, converse_stop hs, converse_stop hs]
    exact ⟨rfl, rfl⟩
  | cons input before ih =>
    obtain ⟨hr, hb⟩ := List.forall_mem_cons.1 hb
    rw [List.cons_append] at h
    have hrun := running_of_crash_eq_none h hr
    rw [converse_running hrun] at h
    obtain ⟨hu, ht⟩ := ih hb h
    rw [List.cons_append, List.cons_append, converse_running hrun, converse_running hrun, ht]
    exact ⟨hu, rfl⟩

/-- The programs among inputs that a session hears, each with how it ends. -/
def attempts (clock : Int) (clearing : String) (s : Session) :
    List Input → List (String × EStateM.Result RunError World Value)
  | [] => []
  | input :: rest =>
    input.purpose.tried clock s.forest ++
      match s.respond clock clearing input with
      | (s', _, .running) => attempts clock clearing s' rest
      | _ => []

theorem attempts_cons (s : Session) (input : Input) (rest : List Input) :
    attempts clock clearing s (input :: rest) =
      input.purpose.tried clock s.forest ++
        match input.purpose.status clock s with
        | .running => attempts clock clearing (input.purpose.apply clock s) rest
        | _ => [] := by
  obtain ⟨hs, hstatus⟩ := respond_eq clock clearing s input
  rw [← hs, ← hstatus, attempts]
  rcases s.respond clock clearing input with ⟨next, printed, status⟩
  cases status <;> rfl

theorem attempts_stop (h : input.purpose = .stop) (s : Session) (rest : List Input) :
    attempts clock clearing s (input :: rest) = [] := by
  rw [attempts_cons, h]
  rfl

theorem attempts_running (h : input.purpose.status clock s = .running) (rest : List Input) :
    attempts clock clearing s (input :: rest) =
      input.purpose.tried clock s.forest ++
        attempts clock clearing (input.purpose.apply clock s) rest := by
  rw [attempts_cons, h]

theorem ends_running (clearing : String) (h : input.purpose.status clock s = .running)
    (ha : input.purpose.apply clock s = s') (rest : List Input) :
    (s.converse clock clearing (input :: rest)).crash = (s'.converse clock clearing rest).crash ∧
      (s.converse clock clearing (input :: rest)).final =
        (s'.converse clock clearing rest).final ∧
      attempts clock clearing s (input :: rest) =
        input.purpose.tried clock s.forest ++ attempts clock clearing s' rest := by
  rw [converse_running h, attempts_running h, ha]
  exact ⟨rfl, rfl, rfl⟩

theorem ends_tree (clock : Int) (clearing : String)
    (hp : input.purpose = .command (.tree argument))
    (hs : { s with showTree := turnTree s.showTree argument } = s') (rest : List Input) :
    (s.converse clock clearing (input :: rest)).crash = (s'.converse clock clearing rest).crash ∧
      (s.converse clock clearing (input :: rest)).final =
        (s'.converse clock clearing rest).final ∧
      attempts clock clearing s (input :: rest) = attempts clock clearing s' rest := by
  have hidle : input.purpose.Idle := hp ▸ .command nofun
  have hnext : input.purpose.apply clock s = s' := by
    rw [hp, ← hs]
    rfl
  have hends := ends_running clearing (hidle.status s) hnext rest
  rwa [hidle.tried, List.nil_append] at hends

/-- What is left of a list of inputs, once some for such purposes are removed. -/
inductive Thinned (P : Purpose → Prop) : List Input → List Input → Prop where
  | nil : Thinned P [] []
  | keep : Thinned P inputs thinner → Thinned P (input :: inputs) (input :: thinner)
  | drop : P input.purpose → Thinned P inputs thinner → Thinned P (input :: inputs) thinner

theorem apply_forest (h : s'.forest = s.forest) (p : Purpose) :
    (p.apply clock s').forest = (p.apply clock s).forest := by
  rw [Purpose.apply, Purpose.apply, h]

theorem apply_showTree (h : s'.showTree = s.showTree) (p : Purpose) :
    (p.apply clock s').showTree = (p.apply clock s).showTree := by
  rw [Purpose.apply, Purpose.apply, h]

/-- Idle inputs can be removed, and neither the scopes nor the programs that are left change, unless
a tree is shown that was not shown before and nests too deeply. -/
theorem Thinned.converse (ht : Thinned Purpose.Idle inputs thinner) (hf : s'.forest = s.forest)
    (h : (s.converse clock clearing inputs).crash = none) :
    ((s'.converse clock clearing thinner).crash = none ∧
      (s'.converse clock clearing thinner).final.forest =
        (s.converse clock clearing inputs).final.forest ∧
      attempts clock clearing s' thinner = attempts clock clearing s inputs) ∨
    ((s'.converse clock clearing thinner).crash = some (.outline .tooDeep) ∧
      attempts clock clearing s' thinner <+: attempts clock clearing s inputs) := by
  induction ht generalizing s s' with
  | nil => exact .inl ⟨rfl, hf, rfl⟩
  | @keep inputs thinner input ht ih =>
    by_cases hp : input.purpose = .stop
    · rw [converse_stop hp, converse_stop hp, attempts_stop hp, attempts_stop hp]
      exact .inl ⟨rfl, hf, rfl⟩
    · have hrun := running_of_crash_eq_none h hp
      rw [converse_running hrun] at h ⊢
      rw [attempts_running hrun]
      rcases Purpose.status_of_running hf hrun with hrun' | hcrash
      · rw [converse_running hrun', attempts_running hrun', hf]
        rcases ih (apply_forest hf _) h with ⟨hc, hforest, ha⟩ | ⟨hc, ha⟩
        · exact .inl ⟨hc, hforest, by rw [ha]⟩
        · exact .inr ⟨hc, (List.prefix_append_right_inj _).2 ha⟩
      · rw [converse_crashed hcrash, attempts_cons, hcrash, hf, List.append_nil]
        exact .inr ⟨rfl, List.prefix_append _ _⟩
  | @drop inputs thinner input hidle ht ih =>
    have hrun : input.purpose.status clock s = .running := hidle.status s
    have hnext : s'.forest = (input.purpose.apply clock s).forest := by
      rw [hf, Purpose.apply, hidle.scopes]
    rw [converse_running hrun] at h ⊢
    rw [attempts_running hrun, hidle.tried]
    exact ih hnext h

/-- Without commands about trees among what is removed, there is no crash. -/
theorem Thinned.crash_eq_none (ht : Thinned (fun p => p.Idle ∧ p.tree? = none) inputs thinner)
    (hf : s'.forest = s.forest) (hs : s'.showTree = s.showTree)
    (h : (s.converse clock clearing inputs).crash = none) :
    (s'.converse clock clearing thinner).crash = none := by
  induction ht generalizing s s' with
  | nil => rfl
  | @keep inputs thinner input ht ih =>
    by_cases hp : input.purpose = .stop
    · rw [converse_stop hp]
    · have hrun := running_of_crash_eq_none h hp
      have hrun' := (Purpose.status_congr hf hs _).trans hrun
      rw [converse_running hrun] at h
      rw [converse_running hrun']
      exact ih (apply_forest hf _) (apply_showTree hs _) h
  | @drop inputs thinner input hdrop ht ih =>
    obtain ⟨hidle, htree⟩ := hdrop
    rw [converse_running (hidle.status s)] at h
    refine ih ?_ ?_ h
    · rw [hf, Purpose.apply, hidle.scopes]
    · rw [hs, Purpose.apply, htree]

def sinceReset (inputs : List Input) : List Input :=
  inputs.rtakeWhile fun input => input.purpose != .command .reset

def programs (inputs : List Input) : List String :=
  inputs.filterMap fun input => input.purpose.program?

/-- What inputs make of the scopes, one after the other. -/
def advance (clock : Int) (f : Forest) (inputs : List Input) : Forest :=
  inputs.foldl (fun f input => input.purpose.scopes clock f) f

theorem advance_append_singleton (f : Forest) (inputs : List Input) (input : Input) :
    advance clock f (inputs ++ [input]) = input.purpose.scopes clock (advance clock f inputs) :=
  List.foldl_concat _ _ _ _

theorem advance_sinceReset (clock : Int) (inputs : List Input) :
    advance clock freshForest inputs = advance clock freshForest (sinceReset inputs) := by
  induction inputs using List.reverseRecOn with
  | nil => rfl
  | append_singleton inputs input ih =>
    rw [advance_append_singleton]
    by_cases hr : input.purpose = .command .reset
    · rw [sinceReset, List.rtakeWhile_concat_neg _ _ _ (by simp [hr]), hr]
      rfl
    · rw [sinceReset, List.rtakeWhile_concat_pos _ _ _ (by simpa using hr),
        advance_append_singleton, ih, sinceReset]

theorem ne_reset_of_mem (h : input ∈ sinceReset inputs) : input.purpose ≠ .command .reset := by
  simpa using List.mem_rtakeWhile_imp h

theorem advance_eq_programs (f : Forest) (inputs : List Input)
    (h : ∀ input ∈ inputs, input.purpose ≠ .command .reset) :
    advance clock f inputs = (programs inputs).foldl (leave clock) f := by
  induction inputs generalizing f with
  | nil => rfl
  | cons input rest ih =>
    obtain ⟨hr, hrest⟩ := List.forall_mem_cons.1 h
    rw [advance, List.foldl_cons, ← advance, ih _ hrest, programs, programs, List.filterMap_cons]
    cases hpurpose : input.purpose with
    | stop | nothing | program text => rfl
    | command c =>
      cases c with
      | reset => exact absurd hpurpose hr
      | clear | tree | traceback | unknown => rfl

theorem final_forest (inputs : List Input) (h : (s.converse clock clearing inputs).crash = none) :
    (s.converse clock clearing inputs).final.forest = advance clock s.forest (heard inputs) := by
  rw [final_eq inputs h, advance]
  exact (List.foldl_hom Session.forest fun _ _ => rfl).symm

theorem final_showTree (inputs : List Input) (h : (s.converse clock clearing inputs).crash = none) :
    (s.converse clock clearing inputs).final.showTree =
      ((heard inputs).filterMap fun input => input.purpose.tree?).foldl turnTree s.showTree := by
  rw [final_eq inputs h, List.foldl_filterMap]
  apply (List.foldl_hom Session.showTree _).symm
  intro s input
  rw [Purpose.apply]
  cases input.purpose.tree? <;> rfl

theorem final_trace (inputs : List Input) (h : (s.converse clock clearing inputs).crash = none) :
    (s.converse clock clearing inputs).final.trace =
      ((heard inputs).filterMap fun input => input.purpose.traceback?).foldl turnTrace s.trace := by
  rw [final_eq inputs h, List.foldl_filterMap]
  apply (List.foldl_hom Session.trace _).symm
  intro s input
  rw [Purpose.apply]
  cases input.purpose.traceback? <;> rfl

theorem transcript_crash (trace : Option String) (inputs : List Input) :
    (transcript clock clearing trace inputs).crash =
      ((start trace).converse clock clearing inputs).crash :=
  rfl

theorem transcript_final (trace : Option String) (inputs : List Input) :
    (transcript clock clearing trace inputs).final =
      ((start trace).converse clock clearing inputs).final :=
  rfl

theorem purpose_of_head (h : text.toList = c :: rest) (hb : Text.isBlank c = false)
    (hc : c ≠ '/' ∧ c ≠ 'e') : (Input.line text).purpose = .program text := by
  have hhead : (Text.strip text).toList.head? = some c :=
    Text.head?_strip_eq_some_iff.2 ⟨hb, [], rest, h, nofun⟩
  have hexit : isExitLine text = false := by
    refine beq_eq_false_iff_ne.2 fun he => hc.2 ?_
    rw [he] at hhead
    exact (Option.some.inj hhead).symm
  have hblank : isBlankLine text = false := by
    refine beq_eq_false_iff_ne.2 fun he => ?_
    rw [he] at hhead
    cases hhead
  have hread : Command.read? text = none := by
    unfold Command.read?
    dsimp only
    split
    · next hs =>
      rw [hs] at hhead
      exact absurd (Option.some.inj hhead).symm hc.1
    · rfl
  simp [Input.purpose, hexit, hblank, hread]

theorem purpose_display {v : Value} (h : 0 < v.nesting) :
    (Input.line v.display).purpose = .program v.display := by
  cases v with
  | object slots =>
    have htext : (Value.object slots).display.toList =
        '\x7b' :: ' ' :: (", ".intercalate (Value.displaySlots slots) ++ " \x7d").toList := by
      simp [Value.display]
    exact purpose_of_head htext (by decide) (by decide)
  | null | number | boolean | string | native => cases h

/-- A program that is the display of a value with more than 245 objects inside each other ends well
and changes nothing, but its tree cannot be shown. -/
theorem apply_display (clock : Int) {s : Session} (hf : s.forest.Knows root) {v : Value}
    (hv : v.Readable) (hlow : 245 < v.nesting) (hhigh : v.nesting ≤ 328) :
    (Purpose.program v.display).apply clock s = s ∧
      (Purpose.program v.display).status clock s =
        if s.showTree then .crashed (.outline .tooDeep) else .running := by
  have hp : (Interpreter.standard clock).parse v.display = .ok (.program [v.literal]) :=
    Interpreter.parse_display hv (show 3 * v.nesting + 10 ≤ 1000 by omega)
  have he : (Node.program [v.literal]).eval (.standard clock) root 330 [] (.ofForest s.forest) =
      .ok v (.ofForest s.forest) := hv.eval_program hf (by omega)
  have ha : attempt clock s.forest v.display = .ok v (.ofForest s.forest) := by
    rw [attempt, Interpreter.run_of_parse hp]
    simp only [Eval.toRun, Interpreter.standard, Node.standardDepth, he]
  have hdeep : ¬(Node.program [v.literal]).outline.nesting ≤ 980 := by
    have hn := hv.nesting_program
    omega
  have houtline : (Interpreter.standard clock).outline (.program [v.literal]) =
      .error (.outline .tooDeep) :=
    (Interpreter.outline_of_parse hp).trans (if_neg hdeep)
  have hdisplay : (Interpreter.standard clock).display v = .ok v.display :=
    if_pos (show v.nesting ≤ 330 by omega)
  constructor
  · simp only [Purpose.apply, Purpose.scopes, leave, ha]
    rfl
  · simp only [Purpose.status, verdict, evaluate_of_ok hp ha, Interpreter.present]
    cases s.showTree with
    | false =>
      rw [hdisplay]
      rfl
    | true =>
      rw [houtline]
      rfl

/-- With trees turned on and off again, the display of such a value ends well and a later program is
run. With trees turned on, it ends the session. -/
theorem crash_of_thinned {v : Value} (hv : v.Readable) (hlow : 245 < v.nesting)
    (hhigh : v.nesting ≤ 328) :
    let inputs : List Input :=
      [.line "/ast on", .line "/ast off", .line v.display, .line "let z = 1;"]
    let thinner : List Input := [.line "/ast on", .line v.display, .line "let z = 1;"]
    Thinned Purpose.Idle inputs thinner ∧
      (transcript 0 "" none inputs).crash = none ∧
      (transcript 0 "" none thinner).crash = some (.outline .tooDeep) ∧
      (transcript 0 "" none inputs).final.forest = leave 0 freshForest "let z = 1;" ∧
      (transcript 0 "" none thinner).final.forest = freshForest ∧
      (attempts 0 "" (start none) inputs).map Prod.fst = [v.display, "let z = 1;"] ∧
      (attempts 0 "" (start none) thinner).map Prod.fst = [v.display] := by
  dsimp only
  let shown : Session := ⟨freshForest, true, none⟩
  let hidden : Session := ⟨freshForest, false, none⟩
  have hknows : freshForest.Knows root := ⟨rfl, rfl, rfl⟩
  have hon : (Input.line "/ast on").purpose = .command (.tree "on") := by
    decide +kernel
  have hoff : (Input.line "/ast off").purpose = .command (.tree "off") := by
    decide +kernel
  have hshown : { start none with showTree := turnTree false "on" } = shown :=
    congrArg (Session.mk freshForest · none) (by decide +kernel)
  have hhidden : { shown with showTree := turnTree true "off" } = hidden :=
    congrArg (Session.mk freshForest · none) (by decide +kernel)
  have hdisplay : (Input.line v.display).purpose = .program v.display :=
    purpose_display (by omega)
  have hlast : (Input.line "let z = 1;").purpose = .program "let z = 1;" := by
    decide +kernel
  have hidle : (Input.line "/ast off").purpose.Idle := by
    rw [hoff]
    exact .command nofun
  obtain ⟨hsame, hgoes⟩ := apply_display 0 (s := hidden) hknows hv hlow hhigh
  obtain ⟨hsame', hends⟩ := apply_display 0 (s := shown) hknows hv hlow hhigh
  rw [← hdisplay] at hsame hgoes hsame' hends
  have hgoes := hgoes.trans (if_neg Bool.false_ne_true)
  have hends := hends.trans (if_pos rfl)
  have hcrash : (hidden.converse 0 "" [.line "let z = 1;"]).crash = none :=
    Option.isNone_iff_eq_none.1
      (show (hidden.converse 0 "" [.line "let z = 1;"]).crash.isNone = true by decide +kernel)
  have hrun := running_of_crash_eq_none hcrash (by rw [hlast]; nofun)
  obtain ⟨hcrash₁, hfinal₁, htried₁⟩ := ends_tree 0 "" hon hshown
    [.line "/ast off", .line v.display, .line "let z = 1;"]
  obtain ⟨hcrash₂, hfinal₂, htried₂⟩ := ends_tree 0 "" hoff hhidden
    [.line v.display, .line "let z = 1;"]
  obtain ⟨hcrash₃, hfinal₃, htried₃⟩ := ends_running "" hgoes hsame
    [.line "let z = 1;"]
  obtain ⟨hcrash₄, hfinal₄, htried₄⟩ := ends_tree 0 "" hon hshown
    [.line v.display, .line "let z = 1;"]
  refine ⟨.keep (.drop hidle (.keep (.keep .nil))), ?_, ?_, ?_, ?_, ?_, ?_⟩
  · rw [transcript_crash, hcrash₁, hcrash₂, hcrash₃, hcrash]
  · rw [transcript_crash, hcrash₄, converse_crashed hends]
  · have hheard : heard [.line "let z = 1;"] = [.line "let z = 1;"] :=
      heard_cons (by rw [hlast]; nofun) []
    rw [transcript_final, hfinal₁, hfinal₂, hfinal₃, final_forest _ hcrash, hheard]
    simp only [advance, List.foldl_cons, List.foldl_nil, hlast, Purpose.scopes, hidden]
  · rw [transcript_final, hfinal₄, converse_crashed hends, hsame']
  · rw [htried₁, htried₂, htried₃, attempts_running hrun, hdisplay, hlast]
    rfl
  · rw [htried₄, attempts_cons, hends, hdisplay]
    rfl

/-- A session that does not crash. Inputs after its end are not read and change nothing. Its scopes
at the end are those that its programs since the last reset leave in fresh ones, one after the other
and whether or not they fail. Without some interrupts, blank lines and commands other than resets,
all programs end the same and the scopes are the same, but for a crash at the first tree that is now
shown and nests too deeply; there is none if no command about trees is removed. The settings come
from the commands that are about them. -/
theorem transcript_of_programs (clock : Int) (clearing : String) (trace : Option String)
    (inputs : List Input) (h : (transcript clock clearing trace inputs).crash = none) :
    (∀ before stop after, inputs = before ++ stop :: after → stop.purpose = .stop →
      (∀ input ∈ before, input.purpose ≠ .stop) →
        (transcript clock clearing trace inputs).unread = after.length ∧
        ∀ after', transcript clock clearing trace (before ++ stop :: after') =
          { transcript clock clearing trace inputs with unread := after'.length }) ∧
    (transcript clock clearing trace inputs).final.forest =
      (programs (sinceReset (heard inputs))).foldl (leave clock) freshForest ∧
    (∀ thinner, Thinned Purpose.Idle inputs thinner →
      ((transcript clock clearing trace thinner).crash = none ∧
        (transcript clock clearing trace thinner).final.forest =
          (transcript clock clearing trace inputs).final.forest ∧
        attempts clock clearing (start trace) thinner =
          attempts clock clearing (start trace) inputs) ∨
      ((transcript clock clearing trace thinner).crash = some (.outline .tooDeep) ∧
        attempts clock clearing (start trace) thinner <+:
          attempts clock clearing (start trace) inputs)) ∧
    (∀ thinner, Thinned (fun p => p.Idle ∧ p.tree? = none) inputs thinner →
      (transcript clock clearing trace thinner).crash = none) ∧
    (transcript clock clearing trace inputs).final.showTree =
      ((heard inputs).filterMap fun input => input.purpose.tree?).foldl turnTree false ∧
    (transcript clock clearing trace inputs).final.trace =
      ((heard inputs).filterMap fun input => input.purpose.traceback?).foldl turnTrace trace := by
  have hc : ((start trace).converse clock clearing inputs).crash = none := h
  refine ⟨?_, ?_, fun thinner ht => ht.converse rfl hc,
    fun thinner ht => ht.crash_eq_none rfl rfl hc, final_showTree inputs hc, final_trace inputs hc⟩
  · rintro before stop after rfl hs hb
    refine ⟨(converse_append_stop before after hb hs hc []).1, fun after' => ?_⟩
    rw [transcript, (converse_append_stop before after hb hs hc after').2]
    rfl
  · calc (transcript clock clearing trace inputs).final.forest
        = advance clock freshForest (heard inputs) := final_forest inputs hc
      _ = advance clock freshForest (sinceReset (heard inputs)) := advance_sinceReset clock _
      _ = (programs (sinceReset (heard inputs))).foldl (leave clock) freshForest :=
        advance_eq_programs _ _ fun _ => ne_reset_of_mem

/-- A session with a reset, a program that fails, and a line after its end. -/
theorem transcript_of_programs_reset :
    let inputs : List Input := [.line "let x = 1;", .interrupt, .line "/ast on", .line "/reset",
      .line "let y = 2; y = x", .line "", .line " exit ", .line "y"]
    let thinner : List Input := [.line "let x = 1;", .line "/reset", .line "let y = 2; y = x",
      .line " exit ", .line "y"]
    let t := transcript 0 "" none inputs
    t.crash = none ∧ t.unread = 1 ∧
      t.final.forest = leave 0 freshForest "let y = 2; y = x" ∧
      (transcript 0 "" none thinner).final.forest = t.final.forest ∧
      attempts 0 "" (start none) thinner = attempts 0 "" (start none) inputs ∧
      t.final.showTree = true := by
  intro inputs thinner t
  have hc : t.crash = none :=
    Option.isNone_iff_eq_none.1 (show t.crash.isNone = true by decide +kernel)
  have hc' : (transcript 0 "" none thinner).crash = none :=
    Option.isNone_iff_eq_none.1
      (show (transcript 0 "" none thinner).crash.isNone = true by decide +kernel)
  have hast : (Input.line "/ast on").purpose = .command (.tree "on") := by
    decide +kernel
  have hblank : (Input.line "").purpose = .nothing := by
    decide +kernel
  have hexit : (Input.line " exit ").purpose = .stop := by
    decide +kernel
  have hbefore : ∀ input ∈ inputs.take 6, input.purpose ≠ .stop := by
    decide +kernel
  have hprograms : programs (sinceReset (heard inputs)) = ["let y = 2; y = x"] := by
    decide +kernel
  have htrees : ((heard inputs).filterMap fun input => input.purpose.tree?) = ["on"] := by
    decide +kernel
  have hturn : turnTree false "on" = true := by
    decide +kernel
  have hast' : (Input.line "/ast on").purpose.Idle := by
    rw [hast]
    exact .command nofun
  have hblank' : (Input.line "").purpose.Idle := by
    rw [hblank]
    exact .nothing
  have ht : Thinned Purpose.Idle inputs thinner :=
    .keep (.drop .nothing (.drop hast' (.keep (.keep (.drop hblank' (.keep (.keep .nil)))))))
  obtain ⟨hstop, hforest, hthin, -, htree, -⟩ := transcript_of_programs 0 "" none inputs hc
  rw [hprograms, List.foldl_cons, List.foldl_nil] at hforest
  rw [htrees, List.foldl_cons, hturn, List.foldl_nil] at htree
  obtain ⟨hunread, -⟩ := hstop (inputs.take 6) (.line " exit ") [.line "y"] rfl hexit hbefore
  rcases hthin thinner ht with ⟨-, hsame, hattempts⟩ | ⟨hcrash, -⟩
  · exact ⟨hc, hunread, hforest, hsame, hattempts, htree⟩
  · rw [hc'] at hcrash
    cases hcrash

/-- Idle inputs cannot always be removed. -/
theorem exists_crash_of_thinned :
    ∃ inputs thinner, Thinned Purpose.Idle inputs thinner ∧
      (transcript 0 "" none inputs).crash = none ∧
      (transcript 0 "" none thinner).crash = some (.outline .tooDeep) ∧
      (transcript 0 "" none thinner).final.forest ≠ (transcript 0 "" none inputs).final.forest ∧
      attempts 0 "" (start none) thinner ≠ attempts 0 "" (start none) inputs := by
  have hn : (Value.nested 280).nesting = 281 := Value.nesting_nested 280
  obtain ⟨ht, hcrash, hcrash', hforest, hforest', htried, htried'⟩ :=
    crash_of_thinned (Value.readable_nested 280) (by omega) (by omega)
  refine ⟨_, _, ht, hcrash, hcrash', fun h => ?_, fun h => ?_⟩
  · rw [hforest, hforest'] at h
    have hbound : freshForest.scopes.map (·.bindings.length) ≠
        (leave 0 freshForest "let z = 1;").scopes.map (·.bindings.length) := by
      decide +kernel
    exact hbound (congrArg (·.scopes.map (·.bindings.length)) h)
  · rw [h, htried] at htried'
    cases htried'

end Session

end Ember
