import Ember.Proofs.RoundTrip

/-!
The programs that source texts spell: what is parsed is well formed and separated, and no tokens
spell a program that are fewer than its words.
-/

namespace Ember

set_option autoImplicit true

theorem Keywords.standard_kindOf (name : String) :
    (standard.kindOf name = .identifier ∧ name ∉ ["let", "const", "fn"]) ∨
      standard.kindOf name ∈ [TokenKind.letWord, .constWord, .fnWord] := by
  by_cases h : name ∈ ["let", "const", "fn"]
  · simp only [List.mem_cons, List.not_mem_nil, or_false] at h
    rcases h with rfl | rfl | rfl <;> exact .inr (by decide)
  · exact .inl ⟨standard_kindOf_of_notMem h, h⟩

/-- What the texts of scanned tokens hold. -/
structure Token.Proper (t : Token) : Prop where
  isName : t.kind = .identifier → IsName t.text
  isDigits : t.kind = .number → Numeral.IsDigits t.text
  unquoted : t.kind = .string → '"' ∉ t.text.toList

theorem Forms.proper (h : Forms .standard lexeme rest kind text) (position : Position) :
    Token.Proper ⟨kind, text, position⟩ ∧ kind ≠ .endOfInput := by
  cases h with
  | mark hm =>
    unfold Lexeme.mark? at hm
    split at hm <;> cases hm <;> exact ⟨⟨nofun, nofun, nofun⟩, nofun⟩
  | number hn hd =>
    refine ⟨⟨nofun, fun _ => ?_, nofun⟩, nofun⟩
    exact ⟨by simpa using hn, by simpa using hd⟩
  | word hn ha =>
    rcases Keywords.standard_kindOf (String.ofList lexeme) with ⟨hk, hname⟩ | hk
    · rw [hk]
      refine ⟨⟨fun _ => ?_, nofun, nofun⟩, nofun⟩
      exact ⟨by simpa using hn, by simpa using ha, hname⟩
    · generalize Keywords.standard.kindOf (String.ofList lexeme) = kind at hk
      simp only [List.mem_cons, List.not_mem_nil, or_false] at hk
      rcases hk with rfl | rfl | rfl <;> exact ⟨⟨nofun, nofun, nofun⟩, nofun⟩
  | closed hq => exact ⟨⟨nofun, nofun, fun _ => by simpa using hq⟩, nofun⟩
  | unclosed hq => exact ⟨⟨nofun, nofun, fun _ => by simpa using hq⟩, nofun⟩

theorem Segmentation.ReadsFrom.proper {tail : List Char} {list : List Segment}
    (h : ReadsFrom .standard tail before list tokens) :
    Ended tokens ∧ ∀ t ∈ tokens, t.Proper := by
  induction h with
  | done _ => exact ⟨⟨[], _, rfl, rfl, by simp⟩, by simp; exact ⟨nofun, nofun, nofun⟩⟩
  | step segment rest _ hf _ ih =>
    obtain ⟨⟨body, stop, rfl, hstop, hbody⟩, hproper⟩ := ih
    obtain ⟨ht, hk⟩ := hf.proper _
    refine ⟨⟨_ :: body, stop, rfl, hstop, ?_⟩, ?_⟩
    · exact List.forall_mem_cons.2 ⟨hk, hbody⟩
    · exact List.forall_mem_cons.2 ⟨ht, hproper⟩

theorem proper_of_scanTokens (h : scanTokens .standard source = .ok tokens) :
    Ended tokens ∧ ∀ t ∈ tokens, t.Proper := by
  obtain ⟨d, -, hr⟩ := Segmentation.exists_of_scanTokens h
  exact hr.proper

def Item.Valid : (i : Item) → i.Meaning → Prop
  | .parameter, name => IsName name
  | .argument, n => n.WellFormed .expression

/-- What is well formed for a symbol; a repetition keeps expressions well formed. -/
def Symbol.Valid : (s : Symbol) → s.Meaning → Prop
  | .program, n => n.WellFormed .program
  | .statement, n => n.WellFormed .statement
  | .property, n => n.WellFormed .property
  | .expression, n | .object, n | .chain _, n | .operand _, n | .call, n | .member, n
  | .primary, n => n.WellFormed .expression
  | .statements, ns => ∀ n ∈ ns, n.WellFormed .statement
  | .properties, ns => ∀ n ∈ ns, n.WellFormed .property
  | .operations _, f | .calls, f | .accesses, f =>
    ∀ n : Node, n.WellFormed .expression → (f n).WellFormed .expression
  | .tuple i, xs | .items i, xs => ∀ x ∈ xs, i.Valid x
  | .item i, x => i.Valid x

namespace Derivation

theorem valid (d : Derivation s) (hl : d.Legal) (ht : ∀ t ∈ d.tokens, t.Proper) :
    s.Valid d.tree := by
  induction d with
  | program ss stop ih => exact .program (ih hl fun t h => ht t (by simp [tokens, h]))
  | noStatements | noProperties | noItems | emptyTuple => simp [Symbol.Valid, tree]
  | noOperations | noCalls | noAccesses => exact fun n hn => hn
  | moreStatements s ss ih ih' =>
    have hs := ih hl.1 fun t h => ht t (by simp [tokens, h])
    have hss := ih' hl.2.1 fun t h => ht t (by simp [tokens, h])
    exact List.forall_mem_cons.2 ⟨hs, hss⟩
  | uninitialized word name stop =>
    exact .uninitialized ((ht name.token (by simp [tokens])).isName name.isKind)
  | initialized word name equals value stop ih =>
    have hv := ih hl fun t h => ht t (by simp [tokens, h])
    exact .initialized ((ht name.token (by simp [tokens])).isName name.isKind) hv
  | function word name params opening body closing ih ih' =>
    have hp := ih hl.1 fun t h => ht t (by simp [tokens, h])
    have hb := ih' hl.2 fun t h => ht t (by simp [tokens, h])
    exact .function ((ht name.token (by simp [tokens])).isName name.isKind) hp hb
  | evaluated e ih => exact .evaluated (ih hl ht)
  | plain o ih => exact ih hl ht
  | assigned o equals value stop ih ih' =>
    have ho := ih hl.1 fun t h => ht t (by simp [tokens, h])
    have hv := ih' hl.2 fun t h => ht t (by simp [tokens, h])
    exact .assignment ho hv
  | braces opening ps closing ih => exact .object (ih hl fun t h => ht t (by simp [tokens, h]))
  | sum e ih => exact ih hl ht
  | lastProperty p ih => exact List.forall_mem_singleton.2 (ih hl ht)
  | moreProperties p comma ps ih ih' =>
    have hp := ih hl.1 fun t h => ht t (by simp [tokens, h])
    have hps := ih' hl.2 fun t h => ht t (by simp [tokens, h])
    exact List.forall_mem_cons.2 ⟨hp, hps⟩
  | shorthand key => exact .shorthand ((ht key.token (by simp [tokens])).isName key.isKind)
  | keyed key colon value ih =>
    have hv := ih hl fun t h => ht t (by simp [tokens, h])
    exact .keyed ((ht key.token (by simp [tokens])).isName key.isKind) hv
  | chain first more ih ih' =>
    have hf := ih hl.1 fun t h => ht t (by simp [tokens, h])
    exact ih' hl.2 (fun t h => ht t (by simp [tokens, h])) _ hf
  | @moreOperations level operator operand more ih ih' =>
    have ho := ih hl.1 fun t h => ht t (by simp [tokens, h])
    have hm := ih' hl.2 fun t h => ht t (by simp [tokens, h])
    have hop : operator.token.text ∈ Level.sum.operators ∨
        operator.token.text ∈ Level.product.operators := by
      cases level
      · exact .inl operator.isOfLevel
      · exact .inr operator.isOfLevel
    exact fun n hn => hm _ (.binary hop hn ho)
  | term e ih => exact ih hl ht
  | factor e ih => exact ih hl ht
  | call callee more ih ih' =>
    have hc := ih hl.1 fun t h => ht t (by simp [tokens, h])
    exact ih' hl.2 (fun t h => ht t (by simp [tokens, h])) _ hc
  | moreCalls arguments more ih ih' =>
    have ha := ih hl.1 fun t h => ht t (by simp [tokens, h])
    have hm := ih' hl.2 fun t h => ht t (by simp [tokens, h])
    exact fun n hn => hm _ (.call hn ha)
  | member owner more ih ih' =>
    have ho := ih hl.1 fun t h => ht t (by simp [tokens, h])
    exact ih' hl.2 (fun t h => ht t (by simp [tokens, h])) _ ho
  | named dot name more ih =>
    have hm := ih hl fun t h => ht t (by simp [tokens, h])
    have hn := (ht name.token (by simp [tokens])).isName name.isKind
    exact fun n h => hm _ (.named h hn)
  | computed opening key closing more ih ih' =>
    have hk := ih hl.1 fun t h => ht t (by simp [tokens, h])
    have hm := ih' hl.2 fun t h => ht t (by simp [tokens, h])
    exact fun n hn => hm _ (.computed hn hk)
  | identifier t => exact .identifier ((ht t.token (by simp [tokens])).isName t.isKind)
  | number t => exact .number ((ht t.token (by simp [tokens])).isDigits t.isKind)
  | string t => exact .string ((ht t.token (by simp [tokens])).unquoted t.isKind)
  | parenthesized opening e closing ih => exact ih hl fun t h => ht t (by simp [tokens, h])
  | tuple opening first more closing ih ih' =>
    have hf := ih hl.1 fun t h => ht t (by simp [tokens, h])
    have hm := ih' hl.2 fun t h => ht t (by simp [tokens, h])
    exact List.forall_mem_cons.2 ⟨hf, hm⟩
  | moreItems comma i more ih ih' =>
    have hi := ih hl.1 fun t h => ht t (by simp [tokens, h])
    have hm := ih' hl.2 fun t h => ht t (by simp [tokens, h])
    exact List.forall_mem_cons.2 ⟨hi, hm⟩
  | parameter name e ih =>
    have he := ih hl.1 ht
    rw [Symbol.Valid, hl.2] at he
    cases he with
    | identifier hn => exact hn
  | argument e ih => exact ih hl ht

end Derivation

namespace Node

variable {spelling : Numeral.Spelling} {level level' : Nat} {n n' : Node}

def wordsAt (spelling : Numeral.Spelling) (level : Nat) (n : Node) : List Word :=
  wrapped level n (n.words spelling)

theorem wordsAt_of_le (h : level ≤ n.level) : n.wordsAt spelling level = n.words spelling :=
  if_neg (Nat.not_lt.2 h)

theorem wordsAt_of_lt (h : n.level < level) :
    n.wordsAt spelling level = .sign .leftParen :: (n.words spelling ++ [.sign .rightParen]) :=
  if_pos h

/-- The tokens are not fewer than the words of a node where the given level is needed, and start
with a parenthesis if the words do. -/
structure CoveredAt (spelling : Numeral.Spelling) (level : Nat) (n : Node) (tokens : List Token) :
    Prop where
  ne_nil : n.words spelling ≠ []
  length_le : (n.wordsAt spelling level).length ≤ tokens.length
  opens : ∀ w ∈ (n.wordsAt spelling level).head?, w.kind = .leftParen →
    ∃ t ∈ tokens.head?, t.kind = .leftParen

namespace CoveredAt

theorem lower (h : n.CoveredAt spelling level tokens) (hl : level' ≤ level) :
    n.CoveredAt spelling level' tokens := by
  obtain ⟨hn, hlength, hopens⟩ := h
  by_cases hw : level ≤ n.level
  · rw [wordsAt_of_le hw] at hlength hopens
    rw [← wordsAt_of_le (Nat.le_trans hl hw)] at hlength hopens
    exact ⟨hn, hlength, hopens⟩
  · have hw : n.wordsAt spelling level = _ := wordsAt_of_lt (Nat.lt_of_not_le hw)
    by_cases hw' : level' ≤ n.level
    · have hopened := hopens (.sign .leftParen) (by rw [hw]; rfl) rfl
      refine ⟨hn, ?_, fun _ _ _ => hopened⟩
      rw [hw] at hlength
      rw [wordsAt_of_le hw']
      simp only [List.length_cons, List.length_append] at hlength
      omega
    · rw [hw, ← wordsAt_of_lt (Nat.lt_of_not_le hw')] at hlength hopens
      exact ⟨hn, hlength, hopens⟩

theorem length_words_le (h : n.CoveredAt spelling level tokens) :
    (n.words spelling).length ≤ tokens.length := by
  have hlength := (h.lower (Nat.zero_le _)).length_le
  rwa [wordsAt_of_le (Nat.zero_le _)] at hlength

/-- A node whose words go on after those of another. -/
theorem extend {more : List Word} {tokens' : List Token} (h : n.CoveredAt spelling level tokens)
    (hw : n'.words spelling = n.wordsAt spelling level ++ more)
    (hm : more.length ≤ tokens'.length) (hl : level' ≤ n'.level) :
    n'.CoveredAt spelling level' (tokens ++ tokens') := by
  obtain ⟨hn, hlength, hopens⟩ := h
  have hne : n.wordsAt spelling level ≠ [] := by
    unfold wordsAt wrapped
    split
    · simp
    · exact hn
  obtain ⟨w, words, hwords⟩ := List.exists_cons_of_ne_nil hne
  rw [hwords] at hw hlength hopens
  refine ⟨by simp [hw], ?_, ?_⟩
  · rw [wordsAt_of_le hl, hw]
    simp only [List.length_append]
    omega
  · rw [wordsAt_of_le hl, hw]
    intro v hv hk
    obtain ⟨t, ht, hk⟩ := hopens v hv hk
    obtain ⟨rest, rfl⟩ := List.head?_eq_some_iff.1 ht
    exact ⟨t, rfl, hk⟩

/-- A node whose first word is no parenthesis. -/
theorem of_words {words : List Word} (hw : n.words spelling = w :: words) (hk : w.kind ≠ .leftParen)
    (hlength : words.length + 1 ≤ tokens.length) (hl : level ≤ n.level) :
    n.CoveredAt spelling level tokens := by
  refine ⟨by simp [hw], ?_, ?_⟩
  · rw [wordsAt_of_le hl, hw]
    exact hlength
  · rw [wordsAt_of_le hl, hw]
    rintro v ⟨⟩ h
    exact absurd h hk

theorem parenthesized (h : n.CoveredAt spelling 0 tokens) (opening : Terminal .leftParen)
    (closing : Terminal .rightParen) :
    n.CoveredAt spelling level (opening.token :: (tokens ++ [closing.token])) := by
  have hlength := h.length_words_le
  refine ⟨h.ne_nil, ?_, fun _ _ _ => ⟨_, rfl, opening.isKind⟩⟩
  unfold wordsAt wrapped
  split <;> simp only [List.length_cons, List.length_append, List.length_nil] <;> omega

end CoveredAt

end Node

def Level.rank : Level → Nat
  | .sum => 2
  | .product => 3

theorem Level.operatorLevel_eq {level : Level} (h : operator ∈ level.operators) :
    Node.operatorLevel operator = level.rank := by
  cases level with
  | sum => exact if_pos h
  | product =>
    simp only [operators, List.mem_cons, List.not_mem_nil, or_false] at h
    rcases h with rfl | rfl | rfl <;> rfl

def Item.words (spelling : Numeral.Spelling) : (i : Item) → i.Meaning → List Word
  | .parameter, name => [⟨.identifier, name⟩]
  | .argument, n => n.words spelling

/-- Tokens that are enough for what they stand for: none could be left out. A repetition adds enough
to what stands before it. -/
def Symbol.Enough (spelling : Numeral.Spelling) : (s : Symbol) → s.Meaning → List Token → Prop
  | .program, n, ts => (n.words spelling).length < ts.length
  | .statements, ns, ts => (Node.wordsEach spelling ns).flatten.length ≤ ts.length
  | .statement, n, ts | .expression, n, ts | .property, n, ts => n.CoveredAt spelling 0 ts
  | .object, n, ts => n.CoveredAt spelling 1 ts
  | .chain level, n, ts => n.CoveredAt spelling level.rank ts
  | .operand level, n, ts => n.CoveredAt spelling (level.rank + 1) ts
  | .call, n, ts => n.CoveredAt spelling 4 ts
  | .member, n, ts => n.CoveredAt spelling 5 ts
  | .primary, n, ts => n.CoveredAt spelling 6 ts
  | .operations level, f, ts => ∀ left taken, left.CoveredAt spelling level.rank taken →
      (f left).CoveredAt spelling level.rank (taken ++ ts)
  | .calls, f, ts => ∀ callee taken, callee.CoveredAt spelling 4 taken →
      (f callee).CoveredAt spelling 4 (taken ++ ts)
  | .accesses, f, ts => ∀ owner taken, owner.CoveredAt spelling 5 taken →
      (f owner).CoveredAt spelling 5 (taken ++ ts)
  | .properties, ns, ts =>
    (Word.separated (Node.wordsEach spelling ns)).length ≤ ts.length
  | .tuple i, xs, ts => (Word.separated (xs.map (i.words spelling))).length + 2 ≤ ts.length
  | .items i, xs, ts =>
    ((xs.map (i.words spelling)).flatMap fun words => .sign .comma :: words).length ≤ ts.length
  | .item i, x, ts => (i.words spelling x).length ≤ ts.length

theorem Word.length_separated_cons (words : List Word) (more : List (List Word)) :
    (separated (words :: more)).length ≤ words.length + 1 + (separated more).length := by
  cases more with
  | nil => simp [separated]
  | cons words' more =>
    simp only [separated, List.length_append, List.flatMap_cons, List.length_cons]
    omega

namespace Derivation

open Node

/-- No derivation has fewer tokens than its tree has words. -/
theorem enough (spelling : Numeral.Spelling) (d : Derivation s) :
    s.Enough spelling d.tree d.tokens := by
  induction d with
  | program ss stop ih =>
    simp only [Symbol.Enough, tree, tokens, words, List.length_append] at ih ⊢
    exact Nat.lt_succ_of_le ih
  | noStatements | noProperties | noItems =>
    simp [Symbol.Enough, tree, wordsEach, Word.separated]
  | noOperations | noCalls | noAccesses =>
    intro n taken h
    rwa [tokens, List.append_nil]
  | moreStatements s ss ih ih' =>
    simp only [Symbol.Enough, tree, tokens, wordsEach, List.flatten_cons, List.length_append]
      at ih' ⊢
    exact Nat.add_le_add ih.length_words_le ih'
  | uninitialized word name stop =>
    exact .of_words rfl (by simp) (Nat.le_refl _) (Nat.zero_le _)
  | initialized word name equals value stop ih =>
    have hv := ih.length_words_le
    refine .of_words rfl ?_ ?_ (Nat.zero_le _)
    · cases word.token.kind == .constWord <;> decide
    · simp only [tokens, List.length_cons, List.length_append]
      omega
  | function word name params opening body closing ih ih' =>
    simp only [Symbol.Enough] at ih ih'
    refine .of_words rfl (by simp) ?_ (Nat.zero_le _)
    simp only [tokens, List.length_cons, List.length_append, List.length_nil]
    have hp : (params.tree.map fun p => [(⟨.identifier, p⟩ : Word)]) =
        params.tree.map (Item.words spelling .parameter) := rfl
    rw [hp]
    omega
  | evaluated e ih => exact ih
  | plain o ih => exact ih.lower (Nat.zero_le _)
  | assigned o equals value stop ih ih' =>
    have hv := ih'.length_words_le
    refine ih.extend rfl ?_ (Nat.zero_le _)
    simp only [List.length_cons, List.length_append]
    omega
  | braces opening ps closing ih =>
    refine .of_words rfl (by simp) ?_ (Nat.le_refl _)
    simp only [Symbol.Enough, tokens, List.length_cons, List.length_append] at ih ⊢
    omega
  | sum e ih => exact ih.lower (by decide)
  | lastProperty p ih =>
    have hp := ih.length_words_le
    simpa [Symbol.Enough, tree, tokens, wordsEach, Word.separated] using hp
  | moreProperties p comma ps ih ih' =>
    have hp := ih.length_words_le
    have hs := Word.length_separated_cons (p.tree.words spelling) (wordsEach spelling ps.tree)
    simp only [Symbol.Enough, tree, tokens, wordsEach, List.length_append, List.length_cons]
      at ih' ⊢
    omega
  | shorthand key => exact .of_words rfl (by simp) (Nat.le_refl _) (Nat.zero_le _)
  | keyed key colon value ih =>
    have hv := ih.length_words_le
    refine .of_words rfl (by simp) ?_ (Nat.zero_le _)
    simp only [tokens, List.length_cons]
    omega
  | chain first more ih ih' => exact ih' _ _ (ih.lower (Nat.le_succ _))
  | @moreOperations level operator operand more ih ih' =>
    intro left taken h
    have hlevel := Level.operatorLevel_eq operator.isOfLevel
    have ho : (Node.binary left operand.tree operator.token.text).CoveredAt spelling level.rank
        (taken ++ operator.token :: operand.tokens) := by
      refine h.extend (by rw [words, hlevel]; rfl) ?_ (by rw [Node.level, hlevel])
      exact Nat.succ_le_succ ih.length_le
    have hm := ih' _ _ ho
    rwa [List.append_assoc] at hm
  | term e ih => exact ih
  | factor e ih => exact ih
  | call callee more ih ih' => exact ih' _ _ (ih.lower (by decide))
  | moreCalls arguments more ih ih' =>
    intro callee taken h
    have hc : (Node.call callee arguments.tree).CoveredAt spelling 4
        (taken ++ arguments.tokens) := by
      refine h.extend rfl ?_ (Nat.le_refl _)
      rw [wordsEach_eq]
      simp only [List.length_cons, List.length_append]
      exact ih
    have hm := ih' _ _ hc
    rwa [List.append_assoc] at hm
  | member owner more ih ih' => exact ih' _ _ (ih.lower (by decide))
  | named dot name more ih =>
    intro owner taken h
    have ho : (Node.member owner (.identifier name.token.text) false).CoveredAt spelling 5
        (taken ++ [dot.token, name.token]) :=
      h.extend rfl (Nat.le_refl _) (Nat.le_refl _)
    have hm := ih _ _ ho
    rwa [List.append_assoc] at hm
  | computed opening key closing more ih ih' =>
    intro owner taken h
    have hk := ih.length_words_le
    have ho : (Node.member owner key.tree true).CoveredAt spelling 5
        (taken ++ opening.token :: (key.tokens ++ [closing.token])) := by
      refine h.extend rfl ?_ (Nat.le_refl _)
      simp only [List.length_cons, List.length_append]
      omega
    have hm := ih' _ _ ho
    rwa [List.append_assoc, List.cons_append, List.append_assoc] at hm
  | identifier t => exact .of_words rfl (by simp) (Nat.le_refl _) (Nat.le_refl _)
  | number t => exact .of_words rfl (by simp) (Nat.le_refl _) (Nat.le_refl _)
  | string t => exact .of_words rfl (by simp) (Nat.le_refl _) (Nat.le_refl _)
  | parenthesized opening e closing ih => exact ih.parenthesized opening closing
  | emptyTuple opening closing => simp [Symbol.Enough, tree, tokens, Word.separated]
  | tuple opening first more closing ih ih' =>
    simp only [Symbol.Enough, tree, tokens, List.map_cons, Word.separated, List.length_append,
      List.length_cons] at ih ih' ⊢
    omega
  | moreItems comma i more ih ih' =>
    simp only [Symbol.Enough, tree, tokens, List.map_cons, List.flatMap_cons, List.length_append,
      List.length_cons] at ih ih' ⊢
    omega
  | parameter name e ih =>
    obtain ⟨t, rest, ht, -⟩ := e.exists_first (by simp [Symbol.first])
    simp [Symbol.Enough, tree, tokens, ht, Item.words]
  | argument e ih => exact ih.length_words_le

end Derivation

def Symbol.Separated (spelling : Numeral.Spelling) : (s : Symbol) → s.Meaning → Prop
  | .program, n | .statement, n => n.Separated spelling
  | .statements, ns => Node.SeparatedAll spelling ns
  | _, _ => True

theorem Node.WellFormed.separated {spelling : Numeral.Spelling} (h : WellFormed .expression n) :
    n.Separated spelling := by
  cases h <;> trivial

namespace Derivation

theorem endsInCall_of_isOpen (d : Derivation .statement) (h : d.tree.isOpen = true) :
    d.EndsInCall := by
  cases d with
  | uninitialized | initialized | function => cases h
  | evaluated e =>
    cases e with
    | assigned => cases h
    | plain o =>
      cases o with
      | braces => cases h
      | sum => trivial

theorem separated (spelling : Numeral.Spelling) (d : Derivation s) (hl : d.Legal)
    (ht : ∀ t ∈ d.tokens, t.Proper) : s.Separated spelling d.tree := by
  induction d with
  | program ss stop ih => exact ih hl fun t h => ht t (by simp [tokens, h])
  | moreStatements s ss ih ih' =>
    have hs := ih hl.1 fun t h => ht t (by simp [tokens, h])
    have hss := ih' hl.2.1 fun t h => ht t (by simp [tokens, h])
    refine ⟨hs, hss, fun ho next hnext w hw hk => ?_⟩
    cases ss with
    | noStatements => cases hnext
    | moreStatements s' ss =>
      -- The next statement starts with a parenthesis because its words do.
      obtain rfl := Option.some.inj hnext
      have hcovered := s'.enough spelling
      rw [← Node.wordsAt_of_le (Nat.zero_le _)] at hw
      obtain ⟨t, htok, hkind⟩ := hcovered.opens w hw hk
      obtain ⟨rest, hrest⟩ := List.head?_eq_some_iff.1 htok
      exact hl.2.2 (s.endsInCall_of_isOpen ho) t (by simp [tokens, hrest]) hkind
  | function word name params opening body closing _ ih =>
    exact ih hl.2 fun t h => ht t (by simp [tokens, h])
  | evaluated e => exact (e.valid hl ht).separated
  | _ => trivial

end Derivation

theorem Grammar.parseSource_of_derivation {d : Derivation .program}
    (h : scanTokens .standard source = .ok tokens) (hd : d.Spells tokens) :
    (ofDepth depth).parseSource .standard source = .ok d.tree ∨
      (ofDepth depth).parseSource .standard source = .error (.parse .tooDeep) ∧
        depth < 10 * tokens.length + 10 := by
  obtain ⟨hended, hproper⟩ := proper_of_scanTokens h
  have hreadable : Readable tokens := fun t ht => (hproper t ht).isDigits
  simp only [parseSource, h]
  rcases parse_outcome depth hended hreadable with ⟨e, he, hp⟩ | ⟨x, t, hp⟩ | ⟨hp, hdepth⟩
  · rw [hp, he.unique hd]
    exact .inl rfl
  · obtain ⟨hlegal, rfl⟩ := hd
    rcases parse_of_derivation depth hlegal hreadable with hp' | hp'
    · rw [hp'] at hp
      cases hp
    · rw [hp'] at hp
      cases hp
  · rw [hp]
    exact .inr ⟨rfl, hdepth⟩

theorem Grammar.exists_derivation {program : Node}
    (h : (ofDepth depth).parseSource .standard source = .ok program) :
    ∃ tokens, scanTokens .standard source = .ok tokens ∧ (∀ t ∈ tokens, t.Proper) ∧
      ∃ d : Derivation .program, d.Spells tokens ∧ d.tree = program := by
  unfold parseSource at h
  split at h
  · cases h
  · next tokens hscan =>
    obtain ⟨hended, hproper⟩ := proper_of_scanTokens hscan
    have hreadable : Readable tokens := fun t ht => (hproper t ht).isDigits
    refine ⟨tokens, hscan, hproper, ?_⟩
    rcases parse_outcome depth hended hreadable with ⟨d, hd, hp⟩ | ⟨x, t, hp⟩ | ⟨hp, -⟩
    · rw [hp] at h
      exact ⟨d, hd, Except.ok.inj h⟩
    · rw [hp] at h
      cases h
    · rw [hp] at h
      cases h

/-- A program that a source text spells is well formed and separated, and the text has a token for
each of its words and one more. -/
theorem Grammar.parseSource_eq_ok {program : Node} (spelling : Numeral.Spelling)
    (h : (ofDepth depth).parseSource .standard source = .ok program) :
    program.WellFormed .program ∧ program.Separated spelling ∧
      ∀ tokens, scanTokens .standard source = .ok tokens →
        (program.words spelling).length < tokens.length := by
  obtain ⟨tokens, hscan, hproper, d, ⟨hlegal, rfl⟩, rfl⟩ := exists_derivation h
  refine ⟨d.valid hlegal hproper, d.separated spelling hlegal hproper, fun others hothers => ?_⟩
  rw [hscan] at hothers
  cases hothers
  exact d.enough spelling

/-- Each number written with some digits that denote it. -/
noncomputable def Numeral.Spelling.chosen : Numeral.Spelling where
  spell v := Classical.epsilon fun text => IsDigits text ∧ value text = v
  isDigits_spell text h :=
    (Classical.epsilon_spec (p := fun t => IsDigits t ∧ value t = value text) ⟨text, h, rfl⟩).1
  value_spell text h :=
    (Classical.epsilon_spec (p := fun t => IsDigits t ∧ value t = value text) ⟨text, h, rfl⟩).2

namespace Grammar

/-- The programs that source texts spell are those that are well formed and separated. What is
printed for such a program has its words for tokens and spells it again, unless there is too little
depth, and no text with fewer tokens does. -/
theorem parseSource_range (spelling : Numeral.Spelling) (program : Node) :
    ((∃ depth source, (ofDepth depth).parseSource .standard source = .ok program) ↔
      program.WellFormed .program ∧ program.Separated spelling) ∧
    (program.WellFormed .program → program.Separated spelling →
      ∃ tokens, scanTokens .standard (program.print spelling) = .ok tokens ∧
        tokens.map Token.word = program.words spelling ++ [.sign .endOfInput] ∧
        (∀ depth, (ofDepth depth).parseSource .standard (program.print spelling) = .ok program ∨
          (ofDepth depth).parseSource .standard (program.print spelling) =
            .error (.parse .tooDeep) ∧ depth < 10 * tokens.length + 10) ∧
        ∀ depth source others, scanTokens .standard source = .ok others →
          (ofDepth depth).parseSource .standard source = .ok program →
          tokens.length ≤ others.length) := by
  refine ⟨⟨?_, ?_⟩, ?_⟩
  · rintro ⟨depth, source, h⟩
    obtain ⟨hw, hs, -⟩ := parseSource_eq_ok spelling h
    exact ⟨hw, hs⟩
  · rintro ⟨hw, hs⟩
    obtain ⟨tokens, hscan, -, d, hd, rfl⟩ := hw.exists_derivation hs
    refine ⟨10 * tokens.length + 10, d.tree.print spelling, ?_⟩
    rcases parseSource_of_derivation hscan hd with h | ⟨-, hdepth⟩
    · exact h
    · exact absurd hdepth (Nat.lt_irrefl _)
  · intro hw hs
    obtain ⟨tokens, hscan, hwords, d, hd, rfl⟩ := hw.exists_derivation hs
    refine ⟨tokens, hscan, hwords, fun depth => parseSource_of_derivation hscan hd, ?_⟩
    intro depth source others hothers h
    obtain ⟨-, -, hlength⟩ := parseSource_eq_ok spelling h
    have hcount := congrArg List.length hwords
    rw [List.length_map, List.length_append] at hcount
    rw [hcount]
    exact hlength others hothers

def bracketed : Node :=
  .program
    [.object [.property "a" none],
     .assignment (.member (.call (.identifier "f") [.identifier "x"]) (.identifier "y") false)
       (.binary (.binary (.identifier "u") (.identifier "v") "+") (.identifier "w") "*")]

theorem parseSource_range_bracketed :
    bracketed.print .chosen = "\x7b a \x7d ( f ( x ) ) . y = ( u + v ) * w ;" ∧
      bracketed.WellFormed .program ∧ bracketed.Separated .chosen ∧
      (ofDepth 300).parseSource .standard (bracketed.print .chosen) = .ok bracketed := by
  have hname : ∀ name ∈ ["a", "f", "x", "y", "u", "v", "w"], IsName name := by
    intro name h
    simp only [List.mem_cons, List.not_mem_nil, or_false] at h
    rcases h with rfl | rfl | rfl | rfl | rfl | rfl | rfl
    all_goals exact ⟨by decide, List.all_eq_true.1 rfl, by decide⟩
  have hw : bracketed.WellFormed .program := by
    refine .program (List.forall_mem_cons.2 ⟨?_, List.forall_mem_singleton.2 ?_⟩)
    · exact .evaluated (.object (List.forall_mem_singleton.2 (.shorthand (hname "a" (by decide)))))
    · have ht := Node.WellFormed.named (.call (.identifier (hname "f" (by decide)))
        (List.forall_mem_singleton.2 (.identifier (hname "x" (by decide))))) (hname "y" (by decide))
      have hv : Node.WellFormed .expression (.binary (.identifier "u") (.identifier "v") "+") :=
        .binary (.inl (by decide)) (.identifier (hname "u" (by decide)))
          (.identifier (hname "v" (by decide)))
      have hm : Node.WellFormed .expression (.binary _ (.identifier "w") "*") :=
        .binary (.inr (by decide)) hv (.identifier (hname "w" (by decide)))
      exact .evaluated (.assignment ht hm)
  have hs : bracketed.Separated .chosen := by
    simp [bracketed, Node.Separated, Node.SeparatedAll, Node.isOpen]
  refine ⟨rfl, hw, hs, ?_⟩
  obtain ⟨tokens, -, hwords, hparse, -⟩ := (parseSource_range .chosen bracketed).2 hw hs
  have hlength : tokens.length = 21 := by
    rw [← List.length_map Token.word, hwords]
    rfl
  exact (hparse 300).resolve_right fun h => absurd h.2 (by rw [hlength]; decide)

end Grammar

end Ember
