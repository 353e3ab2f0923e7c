import Ember.Proofs.Termination
import Ember.Proofs.Viability

/-!
Where the input ends. A token list is parsed as it is up to its first end of input, and a list
without one as if it stood after the last token.
-/

namespace Ember

set_option autoImplicit true

def closing (tokens : List Token) : Token :=
  .endOfInput ((tokens.getLast?.map (·.position)).getD ⟨0, 0⟩)

/-- A list up to its first end of input; if it has none, with one past its last token. -/
def closed (tokens : List Token) : List Token :=
  match tokens.findIdx? (·.kind == .endOfInput) with
  | some i => tokens.take (i + 1)
  | none => tokens ++ [closing tokens]

/-- What a cursor will come to pass: the pending tokens up to an end of input, which stands at the
last place if they have none. -/
def closedFrom (last : Position) : List Token → List Token
  | [] => [.endOfInput last]
  | t :: rest => if t.kind = .endOfInput then [t] else t :: closedFrom t.position rest

theorem closedFrom_eq (last : Position) (tokens : List Token) :
    closedFrom last tokens =
      match tokens.findIdx? (·.kind == .endOfInput) with
      | some i => tokens.take (i + 1)
      | none => tokens ++ [.endOfInput ((tokens.getLast?.map (·.position)).getD last)] := by
  induction tokens generalizing last with
  | nil => rfl
  | cons t rest ih =>
    by_cases ht : t.kind = .endOfInput
    · simp [closedFrom, List.findIdx?_cons, ht]
    · have hlast : ((t :: rest).getLast?.map (·.position)).getD last =
          (rest.getLast?.map (·.position)).getD t.position := by
        rw [List.getLast?_cons]
        cases rest.getLast? <;> rfl
      rw [closedFrom, if_neg ht, ih, List.findIdx?_cons, if_neg (by simpa using ht), hlast]
      cases rest.findIdx? (·.kind == .endOfInput) <;> rfl

theorem closed_eq (tokens : List Token) : closed tokens = closedFrom ⟨0, 0⟩ tokens := by
  rw [closedFrom_eq]
  rfl

theorem closedFrom_closedFrom (last last' : Position) (tokens : List Token) :
    closedFrom last' (closedFrom last tokens) = closedFrom last tokens := by
  induction tokens generalizing last last' with
  | nil => simp [closedFrom, Token.endOfInput]
  | cons t rest ih =>
    by_cases ht : t.kind = .endOfInput
    · simp [closedFrom, ht]
    · simp [closedFrom, ht, ih]

theorem closed_closed (tokens : List Token) : closed (closed tokens) = closed tokens := by
  rw [closed_eq tokens, closed_eq, closedFrom_closedFrom]

theorem closedFrom_append (last : Position) (front : List Token) {stop : Token}
    (hs : stop.kind = .endOfInput) (rest rest' : List Token) :
    closedFrom last (front ++ stop :: rest) = closedFrom last (front ++ stop :: rest') := by
  induction front generalizing last with
  | nil => simp [closedFrom, hs]
  | cons t front ih => simp only [List.cons_append, closedFrom, ih]

theorem ended_closedFrom (last : Position) (tokens : List Token) :
    Ended (closedFrom last tokens) := by
  induction tokens generalizing last with
  | nil => exact ⟨[], _, rfl, rfl, nofun⟩
  | cons t rest ih =>
    unfold closedFrom
    split
    · next ht => exact ⟨[], t, rfl, ht, nofun⟩
    · next ht =>
      obtain ⟨body, stop, he, hstop, hbody⟩ := ih t.position
      exact ⟨t :: body, stop, by rw [he, List.cons_append], hstop,
        List.forall_mem_cons.2 ⟨ht, hbody⟩⟩

theorem Cursor.closedFrom_eq_cons (c : Cursor) :
    closedFrom c.last c.pending =
      c.current :: if c.current.kind = .endOfInput then []
        else closedFrom c.advance.last c.advance.pending := by
  obtain ⟨pending, taken, last⟩ := c
  cases pending with
  | nil => rfl
  | cons t rest =>
    show (if t.kind = .endOfInput then [t] else t :: closedFrom t.position rest) =
      t :: if t.kind = .endOfInput then [] else closedFrom t.position rest
    split <;> rfl

def Lockstep.ending : Lockstep where
  __ := same
  cursors c c' := closedFrom c.last c.pending = closedFrom c'.last c'.pending
  current := by
    intro c c' h
    rw [c.closedFrom_eq_cons, c'.closedFrom_eq_cons] at h
    exact (List.cons.inj h).1
  advance := by
    intro c c' h hk
    rw [c.closedFrom_eq_cons, c'.closedFrom_eq_cons] at h
    obtain ⟨hcurrent, hrest⟩ := List.cons.inj h
    rw [if_neg hk, if_neg (hcurrent ▸ hk)] at hrest
    exact .inr hrest

namespace Grammar

/-- Lists that are the same up to their end of input are parsed in the same way. -/
theorem parse_eq_of_closed (h : closed tokens = closed tokens') (depth : Nat) :
    (ofDepth depth).parse tokens = (ofDepth depth).parse tokens' := by
  rw [closed_eq, closed_eq] at h
  rcases Lockstep.ending.parse_cases (fun _ hb => hb) h depth with
    hdeep | ⟨node, hn, hn'⟩ | ⟨e, e', he, he', herrors⟩
  · rcases Lockstep.ending.parse_cases (fun _ hb => hb) h.symm depth with
      hdeep' | ⟨node, -, hn⟩ | ⟨e, e', -, he', herrors⟩
    · rw [hdeep, hdeep']
    · rw [hdeep] at hn
      cases hn
    · rw [hdeep] at he'
      cases he'
      cases herrors
  · rw [hn, hn']
  · rw [he, he', herrors.eq_of_tokens rfl]

theorem exists_outcome (tokens : List Token) :
    ∃ outcome, outcome ≠ .error .tooDeep ∧
      ∀ depth, 10 * tokens.length + 10 ≤ depth → (ofDepth depth).parse tokens = outcome := by
  generalize hbound : 10 * tokens.length + 10 = bound
  have hne := program_ne_tooDeep (.ofTokens tokens) (Nat.le_of_eq hbound)
  refine ⟨(ofDepth bound).parse tokens, fun h => ?_, fun depth hd => ?_⟩
  · obtain ⟨c, hc⟩ := parse_eq_error h
    exact hne c hc
  · unfold parse
    rcases program_ofDepth_le hd (.ofTokens tokens) with ⟨c, hc⟩ | hsame
    · exact absurd hc (hne c)
    · rw [hsame]

/-- Parsing comes to an end on every token list: with enough depth its outcome is always the same,
and a program is returned where the input ends. It is the outcome for the list up to its first end
of input or, if it has none, with one past its last token, so what stands after an end of input does
not matter. -/
theorem parse_closed (tokens : List Token) :
    (∃ outcome, outcome ≠ .error .tooDeep ∧
      ∀ depth, 10 * tokens.length + 10 ≤ depth → (ofDepth depth).parse tokens = outcome) ∧
    Ended (closed tokens) ∧
    ∀ depth,
      (∀ node c, (ofDepth depth).program (.ofTokens tokens) = .ok node c →
        c.current.kind = .endOfInput) ∧
      (ofDepth depth).parse tokens = (ofDepth depth).parse (closed tokens) ∧
      ∀ front stop rest rest', tokens = front ++ stop :: rest → stop.kind = .endOfInput →
        (ofDepth depth).parse (front ++ stop :: rest') = (ofDepth depth).parse tokens := by
  refine ⟨exists_outcome tokens, closed_eq tokens ▸ ended_closedFrom _ tokens, fun depth =>
    ⟨fun _ _ => kind_of_program_eq_ok, ?_, ?_⟩⟩
  · exact parse_eq_of_closed (closed_closed tokens).symm depth
  · rintro front stop rest rest' rfl hs
    apply parse_eq_of_closed
    rw [closed_eq, closed_eq, closedFrom_append _ front hs rest' rest]

/-- The tokens of `x ( 1`, with an end of input after the first, and a declaration without its name.
-/
theorem parse_closed_cut :
    (ofDepth 90).parse [⟨.identifier, "x", ⟨1, 1⟩⟩, .endOfInput ⟨4, 0⟩, ⟨.leftParen, "(", ⟨1, 2⟩⟩,
        ⟨.number, "1", ⟨1, 3⟩⟩] = .ok (.program [.identifier "x"]) ∧
      (ofDepth 90).parse [⟨.letWord, "let", ⟨7, 3⟩⟩] =
        .error (.unexpected .declaredName (.endOfInput ⟨7, 3⟩)) := by
  have hcut := (parse_closed [⟨.identifier, "x", ⟨1, 1⟩⟩, .endOfInput ⟨4, 0⟩]).2.2 90
  have hopen := (parse_closed [⟨.letWord, "let", ⟨7, 3⟩⟩]).2.2 90
  exact ⟨hcut.2.2 [_] _ [] _ rfl rfl, hopen.2.1⟩

end Grammar

end Ember
