import Ember.Interpreter
import Ember.Proofs.Concatenation
import Ember.Proofs.Ending

/-!
Layout does not matter. The grammar reads the kinds and the texts of tokens and passes their places
on to errors: lists that agree but for places are parsed to the same program, or fail in the same
way at the same index.
-/

namespace Ember

set_option autoImplicit true

/-- All of a token but its place. -/
def Token.reading (t : Token) : TokenKind × String := (t.kind, t.text)

/-- Tokens at the same index of two lists, or the ends of input past both. -/
inductive SameIndex (tokens tokens' : List Token) : Token → Token → Prop where
  | within (i : Nat) : tokens[i]? = some t → tokens'[i]? = some t' → SameIndex tokens tokens' t t'
  | past : SameIndex tokens tokens' (closing tokens) (closing tokens')

/-- Outcomes that differ in the tokens of errors at most, and in these no more than the lists do. -/
inductive Alongside (tokens tokens' : List Token) :
    Except ParseError Node → Except ParseError Node → Prop where
  | ok (node : Node) : Alongside tokens tokens' (.ok node) (.ok node)
  | unexpected (e : Expectation) : SameIndex tokens tokens' t t' →
      Alongside tokens tokens' (.error (.unexpected e t)) (.error (.unexpected e t'))
  | malformedNumber (text : String) :
      Alongside tokens tokens' (.error (.malformedNumber text)) (.error (.malformedNumber text))
  | tooDeep : Alongside tokens tokens' (.error .tooDeep) (.error .tooDeep)

theorem Alongside.eq_tooDeep {r : Except ParseError Node}
    (h : Alongside tokens tokens' r (.error .tooDeep)) : r = .error .tooDeep := by
  cases h
  rfl

structure Cursor.StandsAfter (c : Cursor) (front tokens : List Token) : Prop where
  tokens_eq : tokens = front ++ c.pending
  last_eq : .endOfInput c.last = closing front

theorem Cursor.standsAfter_nil (tokens : List Token) : (ofTokens tokens).StandsAfter [] tokens :=
  ⟨rfl, rfl⟩

theorem Cursor.StandsAfter.advance {c : Cursor} (h : c.StandsAfter front tokens)
    (hp : c.pending = t :: rest) : c.advance.StandsAfter (front ++ [t]) tokens where
  tokens_eq := by
    rw [h.tokens_eq, pending_advance, hp]
    simp
  last_eq := by
    rw [Cursor.advance, hp]
    simp [closing]

section

variable {tokens tokens' : List Token} (h : tokens.map Token.reading = tokens'.map Token.reading)

include h

theorem SameIndex.reading_eq (hs : SameIndex tokens tokens' t t') : t.reading = t'.reading := by
  cases hs with
  | within i ht ht' =>
    have hi := congrArg (·[i]?) h
    simpa [ht, ht'] using hi
  | past => rfl

theorem sameIndex_current {c c' : Cursor} (hc : c.StandsAfter front tokens)
    (hc' : c'.StandsAfter front' tokens') (hl : front.length = front'.length) :
    SameIndex tokens tokens' c.current c'.current := by
  have hlength := congrArg List.length h
  simp only [List.length_map, hc.tokens_eq, hc'.tokens_eq, List.length_append] at hlength
  cases hp : c.pending with
  | nil =>
    have hp' : c'.pending = [] := by
      apply List.eq_nil_of_length_eq_zero
      rw [hp, List.length_nil] at hlength
      omega
    have ht : c.current = closing tokens := by
      rw [hc.tokens_eq, hp, List.append_nil, ← hc.last_eq, Cursor.current, hp]
    have ht' : c'.current = closing tokens' := by
      rw [hc'.tokens_eq, hp', List.append_nil, ← hc'.last_eq, Cursor.current, hp']
    rw [ht, ht']
    exact .past
  | cons t rest =>
    obtain ⟨t', rest', hp'⟩ : ∃ t' rest', c'.pending = t' :: rest' := by
      apply List.exists_cons_of_length_pos
      rw [hp, List.length_cons] at hlength
      omega
    rw [c.current_of_pending hp, c'.current_of_pending hp']
    refine .within front.length ?_ ?_
    · rw [hc.tokens_eq, hp]
      simp
    · rw [hc'.tokens_eq, hp', hl]
      simp

end

/-- Cursors after equally many tokens of two lists that agree but for places. Tokens that correspond
have the same index if the second one is the one in question, whichever that is: a parser that made
tokens of its own might as well have made another one. -/
def Lockstep.aligned {tokens tokens' : List Token}
    (h : tokens.map Token.reading = tokens'.map Token.reading) (questioned : Token) :
    Lockstep where
  tokens t t' := t.reading = t'.reading ∧ (t' = questioned → SameIndex tokens tokens' t t')
  cursors c c' := ∃ front front', front.length = front'.length ∧ c.StandsAfter front tokens ∧
    c'.StandsAfter front' tokens'
  beyond _ := False
  total t := by
    refine ⟨{ t with position := ⟨questioned.position.line + 1, 0⟩ }, rfl, fun hq => ?_⟩
    have hline : questioned.position.line + 1 = questioned.position.line :=
      congrArg (·.position.line) hq
    omega
  kind h := congrArg Prod.fst h.1
  text h := congrArg Prod.snd h.1
  current := by
    rintro c c' ⟨front, front', hl, hc, hc'⟩
    have hs := sameIndex_current h hc hc' hl
    exact ⟨hs.reading_eq h, fun _ => hs⟩
  advance := by
    rintro c c' ⟨front, front', hl, hc, hc'⟩ hk
    have hreading := (sameIndex_current h hc hc' hl).reading_eq h
    have hk' : c'.current.kind ≠ .endOfInput :=
      fun hend => hk ((congrArg Prod.fst hreading).trans hend)
    refine .inr ⟨front ++ [c.current], front' ++ [c'.current], by simp [hl], ?_, ?_⟩
    · exact hc.advance (c.pending_eq_cons hk)
    · exact hc'.advance (c'.pending_eq_cons hk')
  past _ h := h

namespace Grammar

theorem alongside_of_ne_tooDeep (h : tokens.map Token.reading = tokens'.map Token.reading)
    (depth : Nat) (hd : (ofDepth depth).parse tokens ≠ .error .tooDeep) :
    Alongside tokens tokens' ((ofDepth depth).parse tokens) ((ofDepth depth).parse tokens') := by
  have hstart := Cursor.standsAfter_nil tokens
  have hstart' := Cursor.standsAfter_nil tokens'
  have hcases (questioned : Token) := (Lockstep.aligned h questioned).parse_cases
    (fun _ hb => hb) ⟨[], [], rfl, hstart, hstart'⟩ depth
  rcases hcases (closing tokens') with hdeep | ⟨node, hn, hn'⟩ | ⟨e, e', he, he', herrors⟩
  · exact absurd hdeep hd
  · rw [hn, hn']
    exact .ok node
  · cases herrors with
    | malformedNumber =>
      rw [he, he']
      exact .malformedNumber _
    | @unexpected t t' x _ =>
      -- The token that the second list is blamed for is known now, and it is the one in question.
      rcases hcases t' with hdeep | ⟨node, hn, -⟩ | ⟨e, e', hf, hf', herrors⟩
      · exact absurd hdeep hd
      · rw [he] at hn
        cases hn
      · rw [he] at hf
        rw [he'] at hf'
        cases hf
        cases hf'
        cases herrors with
        | unexpected ht =>
          rw [he, he']
          exact .unexpected x (ht.2 rfl)

/-- Lists that agree but for places are parsed alike, also where depth runs out. -/
theorem alongside_of_reading (h : tokens.map Token.reading = tokens'.map Token.reading)
    (depth : Nat) :
    Alongside tokens tokens' ((ofDepth depth).parse tokens) ((ofDepth depth).parse tokens') := by
  by_cases hd : (ofDepth depth).parse tokens = .error .tooDeep
  · by_cases hd' : (ofDepth depth).parse tokens' = .error .tooDeep
    · rw [hd, hd']
      exact .tooDeep
    · have halong := alongside_of_ne_tooDeep h.symm depth hd'
      rw [hd] at halong
      exact absurd halong.eq_tooDeep hd'
  · exact alongside_of_ne_tooDeep h depth hd

/-- The places of tokens are for diagnostics only. Token lists that agree on kinds and texts are
parsed to the same program, or fail at the same index with the same expectation, with the same text
that is no number, or for want of depth; and source texts with such tokens run alike. -/
theorem parse_layout (tokens tokens' : List Token)
    (h : tokens.map Token.reading = tokens'.map Token.reading) :
    (∀ depth, Alongside tokens tokens' ((ofDepth depth).parse tokens)
      ((ofDepth depth).parse tokens')) ∧
    ∀ source source', scanTokens .standard source = .ok tokens →
      scanTokens .standard source' = .ok tokens' → ∀ i : Interpreter,
        (∃ node, i.parse source = .ok node ∧ i.parse source' = .ok node ∧
          ∀ scope? w, i.run scope? source w = i.run scope? source' w) ∨
        ∃ e e', i.parse source = .error (.parse e) ∧ i.parse source' = .error (.parse e') ∧
          Alongside tokens tokens' (.error e) (.error e') := by
  refine ⟨alongside_of_reading h, fun source source' hs hs' i => ?_⟩
  have halong := alongside_of_reading h i.parseDepth
  simp only [Interpreter.run, Interpreter.parse, parseSource, hs, hs']
  generalize (ofDepth i.parseDepth).parse tokens = r at halong ⊢
  generalize (ofDepth i.parseDepth).parse tokens' = r' at halong ⊢
  cases halong with
  | ok node => exact .inl ⟨node, rfl, rfl, fun _ _ => rfl⟩
  | unexpected e hs => exact .inr ⟨_, _, rfl, rfl, .unexpected e hs⟩
  | malformedNumber text => exact .inr ⟨_, _, rfl, rfl, .malformedNumber text⟩
  | tooDeep => exact .inr ⟨_, _, rfl, rfl, .tooDeep⟩

/-- The tokens of `fn f(a.b)`, where the blame falls on a token that was passed already. -/
def misnamed : List Token :=
  [⟨.fnWord, "fn", ⟨1, 1⟩⟩, ⟨.identifier, "f", ⟨1, 4⟩⟩, ⟨.leftParen, "(", ⟨1, 5⟩⟩,
    ⟨.identifier, "a", ⟨1, 6⟩⟩, ⟨.dot, ".", ⟨1, 7⟩⟩, ⟨.identifier, "b", ⟨1, 8⟩⟩,
    ⟨.rightParen, ")", ⟨1, 9⟩⟩, .endOfInput ⟨1, 10⟩]

theorem parse_layout_misnamed :
    let flat := misnamed.map (Token.relocate fun _ => ⟨0, 0⟩)
    let i : Interpreter := ⟨.standard 0, Native.standard, 90, 330, 980⟩
    misnamed.map Token.reading = flat.map Token.reading ∧
      Alongside misnamed flat
        (.error (.unexpected (.parameterName .member) ⟨.identifier, "a", ⟨1, 6⟩⟩))
        (.error (.unexpected (.parameterName .member) ⟨.identifier, "a", ⟨0, 0⟩⟩)) ∧
      ∀ scope? w, i.run scope? "a+1" w = i.run scope? "a\n\t+ 1" w := by
  intro flat i
  have h : misnamed.map Token.reading = flat.map Token.reading := rfl
  have hscan : scanTokens .standard "a+1" = .ok [⟨.identifier, "a", ⟨1, 1⟩⟩,
    ⟨.operator, "+", ⟨1, 2⟩⟩, ⟨.number, "1", ⟨1, 3⟩⟩, .endOfInput ⟨1, 4⟩] := by decide +kernel
  have hscan' : scanTokens .standard "a\n\t+ 1" = .ok [⟨.identifier, "a", ⟨1, 1⟩⟩,
    ⟨.operator, "+", ⟨2, 2⟩⟩, ⟨.number, "1", ⟨2, 4⟩⟩, .endOfInput ⟨2, 5⟩] := by decide +kernel
  obtain ⟨node, hnode⟩ : ∃ node, i.parse "a+1" = .ok node := ⟨_, rfl⟩
  have hruns := fun h => (parse_layout _ _ h).2 _ _ hscan hscan' i
  refine ⟨h, (parse_layout misnamed flat h).1 90, ?_⟩
  rcases hruns rfl with ⟨_, -, -, hrun⟩ | ⟨e, _, he, -⟩
  · exact hrun
  · rw [he] at hnode
    cases hnode

end Grammar

end Ember
