import Ember.Proofs.Completeness

/-!
The parser accepts exactly the grammar: a token list with its end of input is parsed if and only if
it is derived, and then in one way and to the tree of its derivation.
-/

namespace Ember

set_option autoImplicit true

/-- The last token is the end of input, and no other is. -/
def Ended (tokens : List Token) : Prop :=
  ∃ body stop, tokens = body ++ [stop] ∧ stop.kind = .endOfInput ∧
    ∀ t ∈ body, t.kind ≠ .endOfInput

theorem Ended.eq_singleton {taken rest : List Token} (h : Ended (taken ++ t :: rest))
    (ht : t.kind = .endOfInput) : rest = [] := by
  obtain ⟨body, stop, he, -, hbody⟩ := h
  rcases List.eq_nil_or_concat rest with hr | ⟨rest, last, rfl⟩
  · exact hr
  · rw [List.concat_eq_append, ← List.cons_append, ← List.append_assoc] at he
    have hinit := (List.append_inj' he rfl).1
    exact absurd ht (hbody t (by simp [← hinit]))

namespace Derivation

/-- A derivation of these tokens that the parser may find. -/
def Spells (d : Derivation .program) (spelled : List Token) : Prop :=
  d.Legal ∧ d.tokens = spelled

theorem Spells.unique {d e : Derivation .program} (hd : d.Spells spelled) (he : e.Spells spelled) :
    d = e :=
  program_unique d e hd.1 he.1 (hd.2.trans he.2.symm)

theorem kind_ne_endOfInput (d : Derivation s) (hs : s ≠ .program) :
    ∀ t ∈ d.tokens, t.kind ≠ .endOfInput := by
  induction d with
  | program => exact absurd rfl hs
  | initialized word =>
    rcases word.opens with hw | hw <;> simp_all [tokens, Terminal.isKind, or_imp]
  | moreOperations operator => simp_all [tokens, operator.isOperator, or_imp]
  | _ => simp_all [tokens, Terminal.isKind, or_imp]

end Derivation

namespace Grammar

/-- Parsing finds a derivation, expects something else, or runs out of depth. -/
theorem parse_outcome (depth : Nat) (he : Ended tokens) (hr : Readable tokens) :
    (∃ d : Derivation .program, d.Spells tokens ∧ (ofDepth depth).parse tokens = .ok d.tree) ∨
      (∃ x t, (ofDepth depth).parse tokens = .error (.unexpected x t)) ∨
      (ofDepth depth).parse tokens = .error .tooDeep ∧ depth < 10 * tokens.length + 10 := by
  rcases parse_cases (ensures_program depth (c := .ofTokens tokens) hr) with
    ⟨m, c, h, ss, hss, rfl, hp, hk⟩ | ⟨e, h, ⟨x, t, rfl⟩ | ⟨rfl, hd⟩⟩
  · have hp : tokens = ss.tokens ++ c.pending := hp
    left
    cases hc : c.pending with
    | nil =>
      obtain ⟨body, stop, rfl, hstop, -⟩ := he
      rw [hc, List.append_nil] at hp
      exact absurd hstop (ss.kind_ne_endOfInput nofun stop (by simp [← hp]))
    | cons t rest =>
      rw [c.current_of_pending hc] at hk
      rw [hc] at hp
      obtain rfl := (hp ▸ he).eq_singleton hk
      exact ⟨.program ss ⟨t, hk⟩, ⟨hss, hp.symm⟩, h⟩
  · exact .inr (.inl ⟨x, t, h⟩)
  · exact .inr (.inr ⟨h, hd⟩)

/-- With enough depth, a token list is parsed if and only if it is derived. Its derivation is then
the only one, and the tree of it is returned; any other token list does not meet an expectation. -/
theorem parse_recognizes (depth : Nat) (tokens : List Token) (he : Ended tokens)
    (hr : Readable tokens) :
    (10 * tokens.length + 10 ≤ depth → (ofDepth depth).parse tokens ≠ .error .tooDeep) ∧
    ((ofDepth depth).parse tokens ≠ .error .tooDeep →
      ((∃ node, (ofDepth depth).parse tokens = .ok node) ↔
        ∃ d : Derivation .program, d.Spells tokens) ∧
      (∀ d : Derivation .program, d.Spells tokens → (ofDepth depth).parse tokens = .ok d.tree ∧
        ∀ e : Derivation .program, e.Spells tokens → e = d) ∧
      ((¬∃ d : Derivation .program, d.Spells tokens) →
        ∃ x t, (ofDepth depth).parse tokens = .error (.unexpected x t))) := by
  have houtcome := parse_outcome depth he hr
  have hreturned : ∀ d : Derivation .program, d.Spells tokens →
      (ofDepth depth).parse tokens ≠ .error .tooDeep →
      (ofDepth depth).parse tokens = .ok d.tree := by
    rintro d ⟨hd, rfl⟩ hdeep
    exact (parse_of_derivation depth hd hr).resolve_right hdeep
  refine ⟨fun hd h => ?_, fun hdeep => ⟨⟨?_, ?_⟩, ?_, ?_⟩⟩
  · rcases houtcome with ⟨d, -, h'⟩ | ⟨x, t, h'⟩ | ⟨-, hlt⟩
    · rw [h'] at h
      cases h
    · rw [h'] at h
      cases h
    · omega
  · rintro ⟨node, h⟩
    rcases houtcome with ⟨d, hd, -⟩ | ⟨x, t, h'⟩ | ⟨h', -⟩
    · exact ⟨d, hd⟩
    · rw [h] at h'
      cases h'
    · exact absurd h' hdeep
  · rintro ⟨d, hd⟩
    exact ⟨d.tree, hreturned d hd hdeep⟩
  · intro d hd
    exact ⟨hreturned d hd hdeep, fun e he => he.unique hd⟩
  · intro hnone
    rcases houtcome with ⟨d, hd, -⟩ | h' | ⟨h', -⟩
    · exact absurd ⟨d, hd⟩ hnone
    · exact h'
    · exact absurd h' hdeep

/-- The derivation of `{a,} (1)`, an object and then a number: braces end in no call. -/
def juxtaposed : Derivation .program :=
  .program
    (.moreStatements
      (.evaluated (.plain (.braces ⟨⟨.leftBrace, "\x7b", ⟨1, 1⟩⟩, rfl⟩
        (.moreProperties (.shorthand ⟨⟨.identifier, "a", ⟨1, 2⟩⟩, rfl⟩)
          ⟨⟨.comma, ",", ⟨1, 3⟩⟩, rfl⟩ .noProperties)
        ⟨⟨.rightBrace, "\x7d", ⟨1, 4⟩⟩, rfl⟩)))
      (.moreStatements
        (.evaluated (.plain (.sum (.chain (.term (.chain (.factor (.call (.member
          (.parenthesized ⟨⟨.leftParen, "(", ⟨1, 6⟩⟩, rfl⟩
            (.plain (.sum (.chain (.term (.chain (.factor (.call (.member
              (.number ⟨⟨.number, "1", ⟨1, 7⟩⟩, rfl⟩) .noAccesses) .noCalls)) .noOperations))
              .noOperations)))
            ⟨⟨.rightParen, ")", ⟨1, 8⟩⟩, rfl⟩)
          .noAccesses) .noCalls)) .noOperations)) .noOperations))))
        .noStatements))
    ⟨.endOfInput ⟨1, 9⟩, rfl⟩

theorem parse_recognizes_juxtaposed :
    Ended juxtaposed.tokens ∧ Readable juxtaposed.tokens ∧ juxtaposed.Spells juxtaposed.tokens ∧
      (ofDepth 90).parse juxtaposed.tokens = .ok juxtaposed.tree := by
  have he : Ended juxtaposed.tokens := ⟨_, _, rfl, rfl, by decide⟩
  have hr : Readable juxtaposed.tokens := by
    have hd : Numeral.IsDigits "1" := ⟨by decide, List.all_eq_true.1 rfl⟩
    simp [Readable, juxtaposed, Derivation.tokens, Token.endOfInput, hd]
  have hs : juxtaposed.Spells juxtaposed.tokens := by
    simp [juxtaposed, Derivation.Spells, Derivation.Legal, Derivation.EndsInCall,
      Derivation.tokens]
  obtain ⟨hdepth, hparse⟩ := parse_recognizes 90 juxtaposed.tokens he hr
  exact ⟨he, hr, hs, ((hparse (hdepth (by decide))).2.1 juxtaposed hs).1⟩

end Grammar

end Ember
