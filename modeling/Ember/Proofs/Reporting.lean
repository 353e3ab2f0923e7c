import Ember.CommandLine
import Ember.Proofs.Faults
import Ember.Proofs.Rounding
import Ember.Proofs.Showing
import Ember.Proofs.Stray

/-!
Which errors are reported. Everything that goes wrong with a program is reported to the user, but
for the remainder of an infinite dividend, and for a tree or a final value that nests too deeply to
be shown; these end the session or the command.
-/

namespace Ember

set_option autoImplicit true

theorem Grammar.isReported_of_parseSource
    (h : (ofDepth depth).parseSource .standard source = .error e) :
    (RunError.source e).isReported = true := by
  unfold parseSource at h
  cases hs : scanTokens .standard source with
  | error scanError =>
    rw [hs] at h
    cases h
    obtain ⟨i, c, -, rfl⟩ := scanTokens_eq_error_iff.1 hs
    rfl
  | ok tokens =>
    rw [hs] at h
    obtain ⟨hended, hproper⟩ := proper_of_scanTokens hs
    have hreadable : Readable tokens := fun t ht => (hproper t ht).isDigits
    rcases parse_outcome depth hended hreadable with ⟨d, -, hp⟩ | ⟨x, t, hp⟩ | ⟨hp, -⟩
    · simp only [hp] at h
      cases h
    all_goals
      simp only [hp] at h
      cases h
      rfl

/-- Errors that are reported, and the remainder of an infinite dividend. -/
def RunError.Settled (e : RunError) : Prop :=
  e.isReported = true ∨ e = .evaluation (.crash .undefinedRemainder)

/-- Errors that end a session or a command. -/
def RunError.Final (e : RunError) : Prop :=
  e = .evaluation (.crash .undefinedRemainder) ∨ e = .outline .tooDeep ∨ e = .display

/-- The time is a number that a double holds. -/
def Timely (clock : Int) : Prop :=
  ∀ negative, Double.ofInt (clock.fdiv 1000000) ≠ .infinite negative

theorem timely_of_lt (h : clock.natAbs < 2 ^ (64 : Nat)) : Timely clock := by
  intro negative hn
  have hz : (clock.fdiv 1000000).natAbs < 2 ^ (65 : Nat) := by
    rw [Int.fdiv_eq_ediv_of_nonneg _ (by decide)]
    omega
  obtain ⟨m, hm⟩ := Double.exists_ofInt_eq hz (by decide)
  rw [hm] at hn
  cases hn

theorem Failure.AtSite.settled (h : AtSite clock e) (hc : Timely clock) :
    (RunError.evaluation e).Settled := by
  cases e with
  | fault => exact .inl rfl
  | tooDeep => exact .inl rfl
  | crash error =>
    cases error with
    | undefinedRemainder => exact .inr rfl
    | clockOverflow =>
      obtain ⟨negative, hn⟩ := h
      exact absurd hn (hc negative)
    | missingArgument | missingPart => exact h.elim

namespace Interpreter

theorem settled_of_evaluate {parseDepth evalDepth outlineDepth : Nat} (hc : Timely clock)
    (hp : (⟨.standard clock, Native.standard, parseDepth, evalDepth, outlineDepth⟩ :
      Interpreter).parse source = .ok program)
    (he : evaluate ⟨.standard clock, Native.standard, parseDepth, evalDepth, outlineDepth⟩ scope?
      program w = .error e w') : (RunError.evaluation e).Settled := by
  obtain ⟨hw, -, -⟩ := Grammar.parseSource_eq_ok .chosen hp
  exact ((failsAs_evaluate clock parseDepth evalDepth outlineDepth scope? hw).of_eq_error
    he).settled hc

theorem settled_of_run {parseDepth evalDepth outlineDepth : Nat} (hc : Timely clock)
    (h : run ⟨.standard clock, Native.standard, parseDepth, evalDepth, outlineDepth⟩ scope? source
      w = .error e w') : e.Settled := by
  unfold run at h
  split at h
  · next hp =>
    cases h
    exact .inl (Grammar.isReported_of_parseSource hp)
  · next hp =>
    split at h
    · cases h
    · next he =>
      cases h
      exact settled_of_evaluate hc hp he

end Interpreter

namespace RunError

theorem Settled.final {e : RunError} (h : e.Settled) (hr : e.isReported = false) : e.Final := by
  rcases h with h | h
  · rw [hr] at h
    cases h
  · exact .inl h

end RunError

namespace Session

variable {s s' : Session}

theorem final_of_evaluate (hc : Timely clock) (h : s.evaluate clock text = (s', out, .error e))
    (hr : e.isReported = false) : e.Final := by
  unfold evaluate at h
  dsimp only at h
  split at h
  · next hp =>
    cases h
    rw [Grammar.isReported_of_parseSource hp] at hr
    cases hr
  · next program hp =>
    split at h
    · next value w he =>
      simp only [Prod.mk.injEq] at h
      exact .inr (Interpreter.present_eq_error hp h.2.2)
    · next failure w he =>
      cases h
      exact (Interpreter.settled_of_evaluate hc hp he).final hr

theorem final_of_respond (hc : Timely clock)
    (h : s.respond clock clearing input = (s', printed, .crashed e)) : e.Final := by
  cases input with
  | interrupt | endOfInput => cases h
  | line text =>
    unfold respond at h
    dsimp only at h
    split at h
    · cases h
    · split at h
      · cases h
      · split at h
        · cases h
        · split at h
          · cases h
          · next he =>
            split at h
            · cases h
            · next hr =>
              cases h
              exact final_of_evaluate hc he (by simpa using hr)

theorem final_of_converse (hc : Timely clock) (inputs : List Input)
    (h : (s.converse clock clearing inputs).crash = some e) : e.Final := by
  induction inputs generalizing s with
  | nil => cases h
  | cons input rest ih =>
    unfold converse at h
    split at h
    · exact ih h
    · cases h
    · next he =>
      cases h
      exact final_of_respond hc he

end Session

namespace CommandLine

theorem ofError_eq_escaped (h : Ending.ofError e = .escaped e') :
    e = e' ∧ e'.isReported = false := by
  unfold Ending.ofError at h
  split at h
  · cases h
  · next hr =>
    cases h
    exact ⟨rfl, by simpa using hr⟩

theorem final_of_execute (hc : Timely clock)
    (h : (execute (.standard clock) showTree source).ending = .escaped e) : e.Final := by
  unfold execute at h
  split at h
  · split at h
    · next hp =>
      split at h
      · cases h
      · next ho =>
        obtain ⟨rfl, -⟩ := ofError_eq_escaped h
        exact .inr (.inl (Interpreter.outline_eq_error hp ho))
    · next hp =>
      obtain ⟨rfl, hr⟩ := ofError_eq_escaped h
      rw [Grammar.isReported_of_parseSource hp] at hr
      cases hr
  · split at h
    · split at h
      · cases h
      · next hd =>
        obtain ⟨rfl, -⟩ := ofError_eq_escaped h
        exact .inr (.inr (Interpreter.display_eq_error hd))
    · next he =>
      obtain ⟨rfl, hr⟩ := ofError_eq_escaped h
      exact (Interpreter.settled_of_run hc he).final hr

theorem final_of_run (hc : Timely clock)
    (h : (run (.standard clock) script? stdin arguments).ending = .escaped e) : e.Final := by
  unfold run at h
  split at h
  · cases h
  · split at h
    · cases h
    · cases h
    · exact final_of_execute hc h

end CommandLine

/-- With the standard functions, a run ends with a value, with an error that is reported, or with the
remainder of an infinite dividend. What ends a session other than by its inputs, or escapes from a
command, is this remainder, or a tree or a final value that nests too deeply to be shown. -/
theorem unreported_errors (clock : Int) (hc : Timely clock) :
    (∀ parseDepth evalDepth outlineDepth scope? source w e w',
      Interpreter.run ⟨.standard clock, Native.standard, parseDepth, evalDepth, outlineDepth⟩ scope?
        source w = .error e w' → e.Settled) ∧
    (∀ clearing trace inputs e,
      (Session.transcript clock clearing trace inputs).crash = some e → e.Final) ∧
    ∀ script? stdin arguments e,
      (CommandLine.run (.standard clock) script? stdin arguments).ending = .escaped e →
        e.Final :=
  ⟨fun _ _ _ _ _ _ _ _ => Interpreter.settled_of_run hc,
    fun _ _ inputs _ => Session.final_of_converse hc inputs,
    fun _ _ _ _ => CommandLine.final_of_run hc⟩

/-- At the epoch, a run that asks for the time ends with a value and one that calls a number is
reported. -/
theorem unreported_errors_epoch :
    Timely 0 ∧ ∀ e w', Interpreter.run ⟨.standard 0, Native.standard, 1000, 500, 1000⟩ none
      "time(); 1()" (.ofForest .empty) = .error e w' → e.Settled :=
  have hc : Timely 0 := timely_of_lt (by decide)
  ⟨hc, fun _ _ => (unreported_errors 0 hc).1 _ _ _ _ _ _ _ _⟩

def RunError.crash? : EStateM.Result RunError World Value → Option Crash
  | .error (.evaluation (.crash error)) _ => some error
  | _ => none

theorem RunError.crash?_eq_some {r : EStateM.Result RunError World Value}
    (h : crash? r = some error) : ∃ w, r = .error (.evaluation (.crash error)) w := by
  unfold crash? at h
  split at h
  · cases h
    exact ⟨_, rfl⟩
  · cases h

/-- Not every error is reported: a numeral of twenty-one digits is enough for a product that
overflows, and its remainder ends the run. -/
theorem exists_unreported_error :
    ∃ e w', Interpreter.run (.standard 0) none
      "let a = 100000000000000000000; let b = a * a * a * a; b * b * b * b % 3"
      (.ofForest .empty) = .error e w' ∧ e.isReported = false := by
  have hcrash : RunError.crash? (Interpreter.run (.standard 0) none
      "let a = 100000000000000000000; let b = a * a * a * a; b * b * b * b % 3"
      (.ofForest .empty)) = some .undefinedRemainder := by
    decide +kernel
  obtain ⟨w', h⟩ := RunError.crash?_eq_some hcrash
  exact ⟨_, w', h, rfl⟩

end Ember
