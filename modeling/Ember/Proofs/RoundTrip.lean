import Ember.Proofs.Printing
import Ember.Proofs.Recognition

/-!
What is printed is parsed again: the words of a program are derived, whatever places their tokens
have, and the derivation stands for the program.
-/

namespace Ember

set_option autoImplicit true

namespace Derivation

theorem exists_operation_after (operator : Operator level) (operand : Derivation (.operand level))
    (ho : operand.Legal) : (more : Derivation (.operations level)) → more.Legal →
    ∃ d : Derivation (.operations level), d.Legal ∧
      d.tokens = more.tokens ++ operator.token :: operand.tokens ∧
      ∀ left, d.tree left = .binary (more.tree left) operand.tree operator.token.text
  | .noOperations, _ => ⟨.moreOperations operator operand .noOperations, ⟨ho, trivial⟩,
      by simp [tokens], fun _ => rfl⟩
  | .moreOperations operator' operand' more, hm => by
    obtain ⟨d, hd, htokens, htree⟩ := exists_operation_after operator operand ho more hm.2
    exact ⟨.moreOperations operator' operand' d, ⟨hm.1, hd⟩, by simp [tokens, htokens],
      fun left => htree _⟩

theorem exists_call_after (arguments : Derivation (.tuple .argument)) (ha : arguments.Legal) :
    (more : Derivation .calls) → more.Legal →
    ∃ d : Derivation .calls, d.Legal ∧ d.tokens = more.tokens ++ arguments.tokens ∧
      ∀ callee, d.tree callee = .call (more.tree callee) arguments.tree
  | .noCalls, _ => ⟨.moreCalls arguments .noCalls, ⟨ha, trivial⟩, by simp [tokens], fun _ => rfl⟩
  | .moreCalls arguments' more, hm => by
    obtain ⟨d, hd, htokens, htree⟩ := exists_call_after arguments ha more hm.2
    exact ⟨.moreCalls arguments' d, ⟨hm.1, hd⟩, by simp [tokens, htokens], fun callee => htree _⟩

theorem exists_access_after (last : Derivation .accesses) (hl : last.Legal) :
    (more : Derivation .accesses) → more.Legal →
    ∃ d : Derivation .accesses, d.Legal ∧ d.tokens = more.tokens ++ last.tokens ∧
      ∀ owner, d.tree owner = last.tree (more.tree owner)
  | .noAccesses, _ => ⟨last, hl, rfl, fun _ => rfl⟩
  | .named dot name more, hm => by
    obtain ⟨d, hd, htokens, htree⟩ := exists_access_after last hl more hm
    exact ⟨.named dot name d, hd, by simp [tokens, htokens], fun owner => htree _⟩
  | .computed opening key closing more, hm => by
    obtain ⟨d, hd, htokens, htree⟩ := exists_access_after last hl more hm.2
    exact ⟨.computed opening key closing d, ⟨hm.1, hd⟩, by simp [tokens, htokens],
      fun owner => htree _⟩

end Derivation

/-- Words of which all tokens that spell them are derived, with this meaning; if the derivation ends
in a call, then `called` holds. -/
structure Written (s : Symbol) (m : s.Meaning) (words : List Word) (called : Prop) : Prop where
  scans : Word.AllScan words
  derives : ∀ tokens : List Token, tokens.map Token.word = words →
    ∃ d : Derivation s, d.Legal ∧ d.tokens = tokens ∧ d.tree = m ∧ (d.EndsInCall → called)

theorem exists_terminal (h : tokens.map Token.word = ⟨k, text⟩ :: words) :
    ∃ (t : Terminal k) (rest : List Token), tokens = t.token :: rest ∧ t.token.text = text ∧
      rest.map Token.word = words := by
  obtain ⟨t, rest, rfl, ht, hr⟩ := List.map_eq_cons_iff.1 h
  exact ⟨⟨t, congrArg Word.kind ht⟩, rest, rfl, congrArg Word.text ht, hr⟩

theorem exists_last (h : tokens.map Token.word = words ++ [⟨k, text⟩]) :
    ∃ (init : List Token) (t : Terminal k), tokens = init ++ [t.token] ∧ t.token.text = text ∧
      init.map Token.word = words := by
  obtain ⟨init, tokens, rfl, h₁, h₂⟩ := List.map_eq_append_iff.1 h
  obtain ⟨t, tokens, rfl, ht, h₃⟩ := exists_terminal h₂
  obtain rfl := List.map_eq_nil_iff.1 h₃
  exact ⟨init, t, rfl, ht, h₁⟩

namespace Written

open Ember.Derivation

/-- What is derived from the same tokens has the same words. -/
theorem unit (h : Written s m words called)
    (hd : ∀ d : Derivation s, d.Legal → d.tree = m → (d.EndsInCall → called) →
      ∃ e : Derivation s', e.Legal ∧ e.tokens = d.tokens ∧ e.tree = m' ∧
        (e.EndsInCall → called')) : Written s' m' words called' where
  scans := h.scans
  derives tokens ht := by
    obtain ⟨d, hlegal, rfl, htree, hc⟩ := h.derives tokens ht
    exact hd d hlegal htree hc

theorem single (hs : Word.Scans ⟨k, text⟩)
    (hd : ∀ t : Terminal k, t.token.text = text →
      ∃ d : Derivation s, d.Legal ∧ d.tokens = [t.token] ∧ d.tree = m) :
    Written s m [⟨k, text⟩] True where
  scans := by simp [hs]
  derives tokens ht := by
    obtain ⟨t, tokens, rfl, htext, h₁⟩ := exists_terminal ht
    obtain rfl := List.map_eq_nil_iff.1 h₁
    obtain ⟨d, hlegal, htokens, htree⟩ := hd t htext
    exact ⟨d, hlegal, htokens, htree, fun _ => trivial⟩

theorem mono (h : Written s m words called) (hc : called → called') :
    Written s m words called' :=
  h.unit fun d hd hm he => ⟨d, hd, rfl, hm, hc ∘ he⟩

theorem plain (h : Written .object n words called) : Written .expression n words called :=
  h.unit fun d hd hm hc => ⟨.plain d, hd, rfl, hm, hc⟩

theorem assigned (ho : Written .object target words called)
    (hv : Written .expression value words' called') :
    Written .expression (.assignment target value)
      (words ++ .sign .equals :: (words' ++ [.sign .semicolon])) False where
  scans := by simp (disch := decide) [ho.scans, hv.scans]
  derives tokens ht := by
    obtain ⟨ts, tokens, rfl, h₁, h₂⟩ := List.map_eq_append_iff.1 ht
    obtain ⟨equals, tokens, rfl, -, h₃⟩ := exists_terminal h₂
    obtain ⟨ts', stop, rfl, -, h₄⟩ := exists_last h₃
    obtain ⟨d, hd, rfl, rfl, -⟩ := ho.derives ts h₁
    obtain ⟨e, he, rfl, rfl, -⟩ := hv.derives ts' h₄
    exact ⟨.assigned d equals e stop, ⟨hd, he⟩, rfl, rfl, id⟩

theorem braces (h : Written .properties ps words called) :
    Written .object (.object ps) (.sign .leftBrace :: (words ++ [.sign .rightBrace])) False where
  scans := by simp (disch := decide) [h.scans]
  derives tokens ht := by
    obtain ⟨opening, tokens, rfl, -, h₁⟩ := exists_terminal ht
    obtain ⟨ts, closing, rfl, -, h₂⟩ := exists_last h₁
    obtain ⟨d, hd, rfl, rfl, -⟩ := h.derives ts h₂
    exact ⟨.braces opening d closing, hd, rfl, rfl, id⟩

theorem properties {print : Node → List Word} {ps : List Node}
    (h : ∀ p ∈ ps, Written .property p (print p) True) :
    Written .properties ps (Word.separated (ps.map print)) True := by
  induction ps with
  | nil => exact ⟨Word.allScan_nil, fun tokens ht =>
      ⟨.noProperties, trivial, (List.map_eq_nil_iff.1 ht).symm, rfl, fun _ => trivial⟩⟩
  | cons p ps ih =>
    have hp := h p List.mem_cons_self
    have hps := ih fun q hq => h q (List.mem_cons_of_mem _ hq)
    cases ps with
    | nil =>
      simp only [List.map_cons, List.map_nil, Word.separated, List.flatMap_nil, List.append_nil]
      refine ⟨hp.scans, fun tokens ht => ?_⟩
      obtain ⟨d, hd, htokens, rfl, -⟩ := hp.derives tokens ht
      exact ⟨.lastProperty d, hd, htokens, rfl, fun _ => trivial⟩
    | cons q ps =>
      have hwords : Word.separated ((p :: q :: ps).map print) =
          print p ++ .sign .comma :: Word.separated ((q :: ps).map print) := rfl
      rw [hwords]
      refine ⟨by simpa (disch := decide) [hp.scans] using hps.scans, fun tokens ht => ?_⟩
      obtain ⟨ts, tokens, rfl, h₁, h₂⟩ := List.map_eq_append_iff.1 ht
      obtain ⟨comma, tokens, rfl, -, h₃⟩ := exists_terminal h₂
      obtain ⟨d, hd, rfl, rfl, -⟩ := hp.derives ts h₁
      obtain ⟨e, he, rfl, hem, -⟩ := hps.derives tokens h₃
      exact ⟨.moreProperties d comma e, ⟨hd, he⟩, rfl, congrArg _ hem, fun _ => trivial⟩

theorem shorthand (h : IsName key) :
    Written .property (.property key none) [⟨.identifier, key⟩] True :=
  single (Word.scans_name h) fun t ht => ⟨.shorthand t, trivial, rfl, by rw [← ht]; rfl⟩

theorem keyed (h : IsName key) (hv : Written .expression value words called) :
    Written .property (.property key (some value)) (⟨.identifier, key⟩ :: .sign .colon :: words)
      True where
  scans := by simp (disch := decide) [Word.scans_name h, hv.scans]
  derives tokens ht := by
    obtain ⟨t, tokens, rfl, rfl, h₁⟩ := exists_terminal ht
    obtain ⟨colon, tokens, rfl, -, h₂⟩ := exists_terminal h₁
    obtain ⟨d, hd, rfl, rfl, -⟩ := hv.derives tokens h₂
    exact ⟨.keyed t colon d, hd, rfl, rfl, fun _ => trivial⟩

theorem sum (h : Written (.chain .sum) n words called) : Written .object n words True :=
  h.unit fun d hd hm _ => ⟨.sum d, hd, rfl, hm, fun _ => trivial⟩

theorem term (h : Written (.chain .product) n words called) :
    Written (.operand .sum) n words True :=
  h.unit fun d hd hm _ => ⟨.term d, hd, rfl, hm, fun _ => trivial⟩

theorem factor (h : Written .call n words called) : Written (.operand .product) n words True :=
  h.unit fun d hd hm _ => ⟨.factor d, hd, rfl, hm, fun _ => trivial⟩

theorem chain (h : Written (.operand level) n words called) :
    Written (.chain level) n words True :=
  h.unit fun d hd hm _ =>
    ⟨.chain d .noOperations, ⟨hd, trivial⟩, List.append_nil _, hm, fun _ => trivial⟩

theorem binary (ho : operator ∈ level.operators) (hl : Written (.chain level) left words called)
    (hr : Written (.operand level) right words' called') :
    Written (.chain level) (.binary left right operator)
      (words ++ ⟨.operator, operator⟩ :: words') True where
  scans := by
    have hs : Word.Scans ⟨.operator, operator⟩ := by
      apply Word.scans_operator
      cases level
      · exact .inl ho
      · exact .inr ho
    simp [hl.scans, hr.scans, hs]
  derives tokens ht := by
    obtain ⟨ts, tokens, rfl, h₁, h₂⟩ := List.map_eq_append_iff.1 ht
    obtain ⟨t, tokens, rfl, rfl, h₃⟩ := exists_terminal h₂
    obtain ⟨d, hd, rfl, rfl, -⟩ := hl.derives ts h₁
    obtain ⟨e, he, rfl, rfl, -⟩ := hr.derives tokens h₃
    cases d with
    | chain first more =>
      obtain ⟨more', hm, htokens, htree⟩ :=
        exists_operation_after ⟨t.token, t.isKind, ho⟩ e he more hd.2
      exact ⟨.chain first more', ⟨hd.1, hm⟩, by simp [tokens, htokens], htree _, fun _ => trivial⟩

theorem uncalled (h : Written .member n words called) : Written .call n words True :=
  h.unit fun d hd hm _ =>
    ⟨.call d .noCalls, ⟨hd, trivial⟩, List.append_nil _, hm, fun _ => trivial⟩

theorem call (hc : Written .call callee words called)
    (ha : Written (.tuple .argument) arguments words' called') :
    Written .call (.call callee arguments) (words ++ words') True where
  scans := by simp [hc.scans, ha.scans]
  derives tokens ht := by
    obtain ⟨ts, tokens, rfl, h₁, h₂⟩ := List.map_eq_append_iff.1 ht
    obtain ⟨d, hd, rfl, rfl, -⟩ := hc.derives ts h₁
    obtain ⟨e, he, rfl, rfl, -⟩ := ha.derives tokens h₂
    cases d with
    | call callee more =>
      obtain ⟨more', hm, htokens, htree⟩ := exists_call_after e he more hd.2
      exact ⟨.call callee more', ⟨hd.1, hm⟩, by simp [tokens, htokens], htree _, fun _ => trivial⟩

theorem unaccessed (h : Written .primary n words called) : Written .member n words True :=
  h.unit fun d hd hm _ =>
    ⟨.member d .noAccesses, ⟨hd, trivial⟩, List.append_nil _, hm, fun _ => trivial⟩

theorem named (ho : Written .member owner words called) (hn : IsName name) :
    Written .member (.member owner (.identifier name) false)
      (words ++ .sign .dot :: [⟨.identifier, name⟩]) True where
  scans := by simp (disch := decide) [ho.scans, Word.scans_name hn]
  derives tokens ht := by
    obtain ⟨ts, tokens, rfl, h₁, h₂⟩ := List.map_eq_append_iff.1 ht
    obtain ⟨dot, tokens, rfl, -, h₃⟩ := exists_terminal h₂
    obtain ⟨t, tokens, rfl, rfl, h₄⟩ := exists_terminal h₃
    obtain rfl := List.map_eq_nil_iff.1 h₄
    obtain ⟨d, hd, rfl, rfl, -⟩ := ho.derives ts h₁
    cases d with
    | member owner more =>
      obtain ⟨more', hm, htokens, htree⟩ :=
        exists_access_after (.named dot t .noAccesses) trivial more hd.2
      exact ⟨.member owner more', ⟨hd.1, hm⟩, by simp [tokens, htokens], htree _, fun _ => trivial⟩

theorem computed (ho : Written .member owner words called)
    (hk : Written .expression key words' called') :
    Written .member (.member owner key true)
      (words ++ .sign .leftBracket :: (words' ++ [.sign .rightBracket])) True where
  scans := by simp (disch := decide) [ho.scans, hk.scans]
  derives tokens ht := by
    obtain ⟨ts, tokens, rfl, h₁, h₂⟩ := List.map_eq_append_iff.1 ht
    obtain ⟨opening, tokens, rfl, -, h₃⟩ := exists_terminal h₂
    obtain ⟨ts', closing, rfl, -, h₄⟩ := exists_last h₃
    obtain ⟨d, hd, rfl, rfl, -⟩ := ho.derives ts h₁
    obtain ⟨e, he, rfl, rfl, -⟩ := hk.derives ts' h₄
    cases d with
    | member owner more =>
      obtain ⟨more', hm, htokens, htree⟩ :=
        exists_access_after (.computed opening e closing .noAccesses) ⟨he, trivial⟩ more hd.2
      exact ⟨.member owner more', ⟨hd.1, hm⟩, by simp [tokens, htokens], htree _, fun _ => trivial⟩

theorem identifier (h : IsName name) :
    Written .primary (.identifier name) [⟨.identifier, name⟩] True :=
  single (Word.scans_name h) fun t ht => ⟨.identifier t, trivial, rfl, by rw [← ht]; rfl⟩

theorem number (h : Numeral.IsDigits text) :
    Written .primary (.number (Numeral.value text)) [⟨.number, text⟩] True :=
  single (Word.scans_number h) fun t ht => ⟨.number t, trivial, rfl, by rw [← ht]; rfl⟩

theorem string (h : '"' ∉ text.toList) :
    Written .primary (.string text) [⟨.string, text⟩] True :=
  single (Word.scans_string h) fun t ht => ⟨.string t, trivial, rfl, by rw [← ht]; rfl⟩

theorem parenthesized (h : Written .expression n words called) :
    Written .primary n (.sign .leftParen :: (words ++ [.sign .rightParen])) True where
  scans := by simp (disch := decide) [h.scans]
  derives tokens ht := by
    obtain ⟨opening, tokens, rfl, -, h₁⟩ := exists_terminal ht
    obtain ⟨ts, closing, rfl, -, h₂⟩ := exists_last h₁
    obtain ⟨d, hd, rfl, rfl, -⟩ := h.derives ts h₂
    exact ⟨.parenthesized opening d closing, hd, rfl, rfl, fun _ => trivial⟩

theorem parameter (h : IsName name) :
    Written (.item .parameter) name [⟨.identifier, name⟩] True := by
  have he := (identifier h).unaccessed.uncalled.factor.chain.term.chain.sum.plain
  exact he.unit fun d hd hm _ => ⟨.parameter name d, ⟨hd, hm⟩, rfl, rfl, fun _ => trivial⟩

theorem argument (h : Written .expression n words called) :
    Written (.item .argument) n words True :=
  h.unit fun d hd hm _ => ⟨.argument d, hd, rfl, hm, fun _ => trivial⟩

theorem items {print : i.Meaning → List Word} {xs : List i.Meaning}
    (h : ∀ x ∈ xs, Written (.item i) x (print x) True) :
    Written (.items i) xs ((xs.map print).flatMap fun words => .sign .comma :: words) True := by
  induction xs with
  | nil => exact ⟨Word.allScan_nil, fun tokens ht =>
      ⟨.noItems, trivial, (List.map_eq_nil_iff.1 ht).symm, rfl, fun _ => trivial⟩⟩
  | cons x xs ih =>
    have hx := h x List.mem_cons_self
    have hxs := ih fun y hy => h y (List.mem_cons_of_mem _ hy)
    rw [List.map_cons, List.flatMap_cons, List.cons_append]
    refine ⟨by simp (disch := decide) only [Word.allScan_cons, Word.allScan_append, Word.scans_sign,
      hx.scans, hxs.scans, and_self], fun tokens ht => ?_⟩
    obtain ⟨comma, tokens, rfl, -, h₁⟩ := exists_terminal ht
    obtain ⟨ts, tokens, rfl, h₂, h₃⟩ := List.map_eq_append_iff.1 h₁
    obtain ⟨d, hd, rfl, rfl, -⟩ := hx.derives ts h₂
    obtain ⟨e, he, rfl, hem, -⟩ := hxs.derives tokens h₃
    exact ⟨.moreItems comma d e, ⟨hd, he⟩, rfl, congrArg _ hem, fun _ => trivial⟩

theorem tuple {print : i.Meaning → List Word} {xs : List i.Meaning}
    (h : ∀ x ∈ xs, Written (.item i) x (print x) True) :
    Written (.tuple i) xs
      (.sign .leftParen :: (Word.separated (xs.map print) ++ [.sign .rightParen])) True := by
  cases xs with
  | nil =>
    refine ⟨by simp (disch := decide) [Word.separated], fun tokens ht => ?_⟩
    obtain ⟨opening, tokens, rfl, -, h₁⟩ := exists_terminal ht
    obtain ⟨ts, closing, rfl, -, h₂⟩ := exists_last h₁
    obtain rfl := List.map_eq_nil_iff.1 h₂
    exact ⟨.emptyTuple opening closing, trivial, rfl, rfl, fun _ => trivial⟩
  | cons x xs =>
    have hx := h x List.mem_cons_self
    have hxs := items fun y hy => h y (List.mem_cons_of_mem _ hy)
    rw [List.map_cons, Word.separated, List.append_assoc]
    refine ⟨by simp (disch := decide) only [Word.allScan_cons, Word.allScan_append, Word.scans_sign,
      hx.scans, hxs.scans, Word.allScan_nil, and_self], fun tokens ht => ?_⟩
    obtain ⟨opening, tokens, rfl, -, h₁⟩ := exists_terminal ht
    obtain ⟨ts, tokens, rfl, h₂, h₃⟩ := List.map_eq_append_iff.1 h₁
    obtain ⟨ts', closing, rfl, -, h₄⟩ := exists_last h₃
    obtain ⟨d, hd, rfl, rfl, -⟩ := hx.derives ts h₂
    obtain ⟨e, he, rfl, hem, -⟩ := hxs.derives ts' h₄
    exact ⟨.tuple opening d e closing, ⟨hd, he⟩, rfl, congrArg _ hem, fun _ => trivial⟩

theorem uninitialized (h : IsName name) :
    Written .statement (.declaration name false none)
      [.sign .letWord, ⟨.identifier, name⟩, .sign .semicolon] False where
  scans := by simp (disch := decide) [Word.scans_name h]
  derives tokens ht := by
    obtain ⟨word, tokens, rfl, -, h₁⟩ := exists_terminal ht
    obtain ⟨t, tokens, rfl, rfl, h₂⟩ := exists_terminal h₁
    obtain ⟨stop, tokens, rfl, -, h₃⟩ := exists_terminal h₂
    obtain rfl := List.map_eq_nil_iff.1 h₃
    exact ⟨.uninitialized word t stop, trivial, rfl, rfl, id⟩

theorem initialized (h : IsName name) (hv : Written .expression value words called) :
    Written .statement (.declaration name constant (some value))
      (.sign (if constant then .constWord else .letWord) :: ⟨.identifier, name⟩ :: .sign .equals ::
        (words ++ [.sign .semicolon])) False where
  scans := by
    have hw : Word.Scans (.sign (if constant then .constWord else .letWord)) := by
      cases constant <;> exact Word.scans_sign (by decide)
    simp (disch := decide) [Word.scans_name h, hv.scans, hw]
  derives tokens ht := by
    obtain ⟨word, tokens, rfl, -, h₁⟩ := exists_terminal ht
    obtain ⟨t, tokens, rfl, rfl, h₂⟩ := exists_terminal h₁
    obtain ⟨equals, tokens, rfl, -, h₃⟩ := exists_terminal h₂
    obtain ⟨ts, stop, rfl, -, h₄⟩ := exists_last h₃
    obtain ⟨d, hd, rfl, rfl, -⟩ := hv.derives ts h₄
    have hk := word.isKind
    have ho : word.token.kind = .letWord ∨ word.token.kind = .constWord := by
      cases constant <;> simp [hk]
    have hc : (word.token.kind == .constWord) = constant := by
      cases constant <;> simp [hk]
    exact ⟨.initialized ⟨word.token, ho⟩ t equals d stop, hd, rfl, by simp [tree, hc], id⟩

theorem function (h : IsName name) (hp : Written (.tuple .parameter) params words called)
    (hb : Written .statements body words' called') :
    Written .statement (.function name params body)
      (.sign .fnWord :: ⟨.identifier, name⟩ ::
        (words ++ .sign .leftBrace :: (words' ++ [.sign .rightBrace]))) False where
  scans := by simp (disch := decide) [Word.scans_name h, hp.scans, hb.scans]
  derives tokens ht := by
    obtain ⟨word, tokens, rfl, -, h₁⟩ := exists_terminal ht
    obtain ⟨t, tokens, rfl, rfl, h₂⟩ := exists_terminal h₁
    obtain ⟨ts, tokens, rfl, h₃, h₄⟩ := List.map_eq_append_iff.1 h₂
    obtain ⟨opening, tokens, rfl, -, h₅⟩ := exists_terminal h₄
    obtain ⟨ts', closing, rfl, -, h₆⟩ := exists_last h₅
    obtain ⟨d, hd, rfl, rfl, -⟩ := hp.derives ts h₃
    obtain ⟨e, he, rfl, rfl, -⟩ := hb.derives ts' h₆
    exact ⟨.function word t d opening e closing, ⟨hd, he⟩, rfl, rfl, id⟩

theorem evaluated (h : Written .expression n words called) :
    Written .statement n words called :=
  h.unit fun d hd hm hc => ⟨.evaluated d, hd, rfl, hm, hc⟩

theorem ne_nil (h : Written .statement n words called) : words ≠ [] := by
  rintro rfl
  obtain ⟨d, -, ht, -, -⟩ := h.derives [] rfl
  obtain ⟨t, rest, hd, -⟩ := d.exists_first (by simp [Symbol.first])
  rw [hd] at ht
  cases ht

theorem statements {spelling : Numeral.Spelling} {body : List Node}
    (h : ∀ s ∈ body, Written .statement s (s.words spelling) (s.isOpen = true))
    (hs : Node.SeparatedAll spelling body) :
    Written .statements body (Node.wordsEach spelling body).flatten True := by
  induction body with
  | nil => exact ⟨Word.allScan_nil, fun tokens ht =>
      ⟨.noStatements, trivial, (List.map_eq_nil_iff.1 ht).symm, rfl, fun _ => trivial⟩⟩
  | cons s body ih =>
    obtain ⟨-, hbody, hnext⟩ := hs
    have hs := h s List.mem_cons_self
    have hss := ih (fun s' hs' => h s' (List.mem_cons_of_mem _ hs')) hbody
    rw [Node.wordsEach, List.flatten_cons]
    refine ⟨Word.allScan_append.2 ⟨hs.scans, hss.scans⟩, fun tokens ht => ?_⟩
    obtain ⟨ts, tokens, rfl, h₁, h₂⟩ := List.map_eq_append_iff.1 ht
    obtain ⟨d, hd, rfl, rfl, hc⟩ := hs.derives ts h₁
    obtain ⟨e, he, rfl, rfl, -⟩ := hss.derives tokens h₂
    refine ⟨.moreStatements d e, ⟨hd, he, fun hcall t ht hk => ?_⟩, rfl, rfl, fun _ => trivial⟩
    -- A parenthesis here is the first word of the next statement.
    cases e with
    | noStatements => cases ht
    | moreStatements next more =>
      have hw := (h next.tree (by simp [tree])).ne_nil
      obtain ⟨w, rest, hw⟩ := List.exists_cons_of_ne_nil hw
      have hhead := congrArg List.head? h₂
      rw [List.head?_map, ht, tree, Node.wordsEach, List.flatten_cons, hw] at hhead
      apply hnext (hc hcall) next.tree rfl w (by rw [hw]; rfl)
      cases hhead
      exact hk

end Written

def FitsAt (level : Nat) (n : Node) (words : List Word) : Prop :=
  match level with
  | 0 => Written .expression n words True
  | 1 => Written .object n words True
  | 2 => Written (.chain .sum) n words True
  | 3 => Written (.chain .product) n words True
  | 4 => Written .call n words True
  | 5 => Written .member n words True
  | _ => Written .primary n words True

namespace FitsAt

variable {n : Node} {words : List Word}

theorem lower (level : Nat) (h : FitsAt (level + 1) n words) : FitsAt level n words := by
  match level with
  | 0 => exact h.plain
  | 1 => exact h.sum
  | 2 => exact h.term.chain
  | 3 => exact h.factor.chain
  | 4 => exact h.uncalled
  | 5 => exact h.unaccessed
  | _ + 6 => exact h

theorem mono (h : FitsAt level n words) (hl : level' ≤ level) : FitsAt level' n words := by
  induction hl with
  | refl => exact h
  | step _ ih => exact ih (lower _ h)

theorem wrapped (h : FitsAt n.level n words) (level : Nat) (hl : level ≤ 6) :
    FitsAt level n (Node.wrapped level n words) := by
  unfold Node.wrapped
  split
  · have hp : FitsAt 6 n (.sign .leftParen :: (words ++ [.sign .rightParen])) :=
      Written.parenthesized (h.mono (Nat.zero_le _))
    exact hp.mono hl
  · next hn => exact h.mono (Nat.le_of_not_lt hn)

end FitsAt

/-- What is written for a node in its role. An expression may also stand as a statement. -/
def Role.Writes (spelling : Numeral.Spelling) : Role → Node → Prop
  | .expression, n => FitsAt n.level n (n.words spelling) ∧
      Written .statement n (n.words spelling) (n.isOpen = true)
  | .property, n => Written .property n (n.words spelling) True
  | .statement, n => n.Separated spelling →
      Written .statement n (n.words spelling) (n.isOpen = true)
  | .program, n => n.Separated spelling →
      ∃ body, n = .program body ∧ Written .statements body (n.words spelling) True

namespace Node.WellFormed

variable {spelling : Numeral.Spelling}

theorem writes_of_open {n : Node} (h : FitsAt n.level n (n.words spelling))
    (ho : n.isOpen = true) : Role.expression.Writes spelling n :=
  ⟨h, (Written.evaluated (h.mono (Nat.zero_le _))).mono fun _ => ho⟩

theorem writes_binary (ho : operator ∈ Level.sum.operators ∨ operator ∈ Level.product.operators)
    (hl : Role.expression.Writes spelling left) (hr : Role.expression.Writes spelling right) :
    Role.expression.Writes spelling (.binary left right operator) := by
  refine writes_of_open ?_ rfl
  rw [level, words]
  have hlevel : operatorLevel operator ≤ 3 := by
    unfold operatorLevel
    split <;> decide
  have hleft := hl.1.wrapped (operatorLevel operator) (by omega)
  have hright := hr.1.wrapped (operatorLevel operator + 1) (by omega)
  by_cases hs : operator ∈ Level.sum.operators
  · have hlevel : operatorLevel operator = 2 := if_pos hs
    rw [hlevel] at hleft hright ⊢
    exact hleft.binary hs hright.term
  · have hlevel : operatorLevel operator = 3 := if_neg hs
    rw [hlevel] at hleft hright ⊢
    exact hleft.binary (ho.resolve_left hs) hright.factor

theorem writes (h : WellFormed role n) : role.Writes spelling n := by
  induction h with
  | @program body _ ih =>
    exact fun hs => ⟨body, rfl, Written.statements (fun s h => ih s h (hs.separated s h)) hs⟩
  | uninitialized hn => exact fun _ => (Written.uninitialized hn).mono False.elim
  | initialized hn _ ih =>
    exact fun _ => (Written.initialized hn (ih.1.mono (Nat.zero_le _))).mono False.elim
  | @function name params body hn hp _ ih =>
    intro hs
    have hbody := Written.statements (fun s h => ih s h (hs.separated s h)) hs
    have hparams : Written (.tuple .parameter) params _ _ :=
      Written.tuple fun p h => Written.parameter (hp p h)
    have h := Written.function hn hparams hbody
    simp only [List.cons_append, List.append_assoc, List.nil_append] at h
    exact h.mono False.elim
  | evaluated _ ih => exact fun _ => ih.2
  | assignment _ _ iht ihv =>
    have ht := iht.1.wrapped 1 (by decide)
    have h := Written.assigned ht (ihv.1.mono (Nat.zero_le _))
    exact ⟨h.mono False.elim, h.evaluated.mono False.elim⟩
  | @object properties _ ih =>
    have h := (Written.properties ih).braces
    rw [← wordsEach_eq] at h
    exact ⟨h.mono False.elim, h.plain.evaluated.mono False.elim⟩
  | binary ho _ _ ihl ihr => exact writes_binary ho ihl ihr
  | @call callee arguments _ _ ihc iha =>
    have hc := ihc.1.wrapped 4 (by decide)
    have ha : Written (.tuple .argument) arguments _ _ :=
      Written.tuple fun a ha => Written.argument ((iha a ha).1.mono (Nat.zero_le _))
    rw [← wordsEach_eq] at ha
    exact writes_of_open (hc.call ha) rfl
  | named _ hn ih =>
    exact writes_of_open ((ih.1.wrapped 5 (by decide)).named hn) rfl
  | computed _ _ iho ihk =>
    have ho := iho.1.wrapped 5 (by decide)
    exact writes_of_open (ho.computed (ihk.1.mono (Nat.zero_le _))) rfl
  | identifier hn => exact writes_of_open (Written.identifier hn) rfl
  | @number text hd =>
    have h := Written.number (spelling.isDigits_spell text hd)
    rw [spelling.value_spell text hd] at h
    exact writes_of_open h rfl
  | string hq => exact writes_of_open (Written.string hq) rfl
  | shorthand hn => exact Written.shorthand hn
  | keyed hn _ ih => exact Written.keyed hn (ih.1.mono (Nat.zero_le _))

/-- The text of a program is scanned as its words, and these are derived. -/
theorem exists_derivation {program : Node} (h : WellFormed .program program)
    (hs : program.Separated spelling) :
    ∃ tokens, scanTokens .standard (program.print spelling) = .ok tokens ∧
      tokens.map Token.word = program.words spelling ++ [.sign .endOfInput] ∧
      ∃ d : Derivation .program, d.Spells tokens ∧ d.tree = program := by
  obtain ⟨body, rfl, hw⟩ := h.writes hs
  obtain ⟨tokens, hscan, ht⟩ := Word.scanTokens_spaced hw.scans
  obtain ⟨init, stop, rfl, -, hinit⟩ := exists_last ht
  obtain ⟨d, hd, rfl, rfl, -⟩ := hw.derives init hinit
  exact ⟨_, hscan, ht, .program d stop, ⟨hd, rfl⟩, rfl⟩

end Node.WellFormed

end Ember
