import Ember.Proofs.Derivation
import Ember.Proofs.Segmentation

/-!
Programs written out again: as words, with the fewest parentheses that the levels of precedence
allow, and as text, with one space between words.
-/

namespace Ember

set_option autoImplicit true

/-- A token without its place. -/
structure Word where
  kind : TokenKind
  text : String
deriving DecidableEq

def Token.word (t : Token) : Word := ⟨t.kind, t.text⟩

/-- The text of tokens that are all written alike. -/
def TokenKind.sign : TokenKind → String
  | .letWord => "let"
  | .constWord => "const"
  | .fnWord => "fn"
  | .equals => "="
  | .leftParen => "("
  | .rightParen => ")"
  | .leftBrace => "\x7b"
  | .rightBrace => "\x7d"
  | .leftBracket => "["
  | .rightBracket => "]"
  | .semicolon => ";"
  | .colon => ":"
  | .comma => ","
  | .dot => "."
  | .endOfInput => "EOF"
  | .number | .string | .identifier | .operator => ""

namespace Word

def sign (kind : TokenKind) : Word := ⟨kind, kind.sign⟩

@[simp] theorem kind_sign (kind : TokenKind) : (sign kind).kind = kind := rfl

def written (w : Word) : List Char :=
  if w.kind = .string then '"' :: (w.text.toList ++ ['"']) else w.text.toList

def spacedAll (words : List Word) : List Char :=
  words.flatMap fun w => ' ' :: w.written

def spaced : List Word → List Char
  | [] => []
  | w :: words => w.written ++ spacedAll words

def separated : List (List Word) → List Word
  | [] => []
  | words :: more => words ++ more.flatMap fun words => sign .comma :: words

end Word

/-- A way to write each number that digits denote. -/
structure Numeral.Spelling where
  spell : Double → String
  isDigits_spell : ∀ text, IsDigits text → IsDigits (spell (value text))
  value_spell : ∀ text, IsDigits text → value (spell (value text)) = value text

def IsName (name : String) : Prop :=
  name.toList ≠ [] ∧ (∀ c ∈ name.toList, c.isAlpha) ∧ name ∉ ["let", "const", "fn"]

inductive Role where
  | program
  | statement
  | expression
  | property

namespace Node

/-- Nodes that the grammar has a place for, with parts that can be written. -/
inductive WellFormed : Role → Node → Prop where
  | program : (∀ s ∈ body, WellFormed .statement s) → WellFormed .program (.program body)
  | uninitialized : IsName name → WellFormed .statement (.declaration name false none)
  | initialized : IsName name → WellFormed .expression value →
      WellFormed .statement (.declaration name constant (some value))
  | function : IsName name → (∀ p ∈ params, IsName p) → (∀ s ∈ body, WellFormed .statement s) →
      WellFormed .statement (.function name params body)
  | evaluated : WellFormed .expression e → WellFormed .statement e
  | assignment : WellFormed .expression target → WellFormed .expression value →
      WellFormed .expression (.assignment target value)
  | object : (∀ p ∈ properties, WellFormed .property p) →
      WellFormed .expression (.object properties)
  | binary : operator ∈ Level.sum.operators ∨ operator ∈ Level.product.operators →
      WellFormed .expression left → WellFormed .expression right →
      WellFormed .expression (.binary left right operator)
  | call : WellFormed .expression callee → (∀ a ∈ arguments, WellFormed .expression a) →
      WellFormed .expression (.call callee arguments)
  | named : WellFormed .expression owner → IsName name →
      WellFormed .expression (.member owner (.identifier name) false)
  | computed : WellFormed .expression owner → WellFormed .expression key →
      WellFormed .expression (.member owner key true)
  | identifier : IsName name → WellFormed .expression (.identifier name)
  | number : Numeral.IsDigits text → WellFormed .expression (.number (Numeral.value text))
  | string : '"' ∉ text.toList → WellFormed .expression (.string text)
  | shorthand : IsName key → WellFormed .property (.property key none)
  | keyed : IsName key → WellFormed .expression value →
      WellFormed .property (.property key (some value))

/-- The level of an operator: sums bind less than products. -/
def operatorLevel (operator : String) : Nat :=
  if operator ∈ Level.sum.operators then 2 else 3

/-- The level of a node: what stands at a higher one binds more. -/
def level : Node → Nat
  | .assignment .. => 0
  | .object _ => 1
  | .binary _ _ operator => operatorLevel operator
  | .call .. => 4
  | .member .. => 5
  | _ => 6

def wrapped (needed : Nat) (node : Node) (words : List Word) : List Word :=
  if node.level < needed then .sign .leftParen :: (words ++ [.sign .rightParen]) else words

mutual

def words (spelling : Numeral.Spelling) : Node → List Word
  | .program body => (wordsEach spelling body).flatten
  | .declaration name _ none => [.sign .letWord, ⟨.identifier, name⟩, .sign .semicolon]
  | .declaration name constant (some value) =>
    .sign (if constant then .constWord else .letWord) :: ⟨.identifier, name⟩ :: .sign .equals ::
      (value.words spelling ++ [.sign .semicolon])
  | .function name params body =>
    .sign .fnWord :: ⟨.identifier, name⟩ :: .sign .leftParen ::
      (Word.separated (params.map fun p => [⟨.identifier, p⟩]) ++ .sign .rightParen ::
        .sign .leftBrace :: ((wordsEach spelling body).flatten ++ [.sign .rightBrace]))
  | .assignment target value =>
    wrapped 1 target (target.words spelling) ++ .sign .equals ::
      (value.words spelling ++ [.sign .semicolon])
  | .object properties =>
    .sign .leftBrace :: (Word.separated (wordsEach spelling properties) ++ [.sign .rightBrace])
  | .binary left right operator =>
    wrapped (operatorLevel operator) left (left.words spelling) ++ ⟨.operator, operator⟩ ::
      wrapped (operatorLevel operator + 1) right (right.words spelling)
  | .call callee arguments =>
    wrapped 4 callee (callee.words spelling) ++ .sign .leftParen ::
      (Word.separated (wordsEach spelling arguments) ++ [.sign .rightParen])
  | .member owner key false =>
    wrapped 5 owner (owner.words spelling) ++ .sign .dot :: key.words spelling
  | .member owner key true =>
    wrapped 5 owner (owner.words spelling) ++ .sign .leftBracket ::
      (key.words spelling ++ [.sign .rightBracket])
  | .identifier name => [⟨.identifier, name⟩]
  | .number value => [⟨.number, spelling.spell value⟩]
  | .string text => [⟨.string, text⟩]
  | .property key none => [⟨.identifier, key⟩]
  | .property key (some value) => ⟨.identifier, key⟩ :: .sign .colon :: value.words spelling
  | .null | .placeholder _ => []

def wordsEach (spelling : Numeral.Spelling) : List Node → List (List Word)
  | [] => []
  | node :: rest => node.words spelling :: wordsEach spelling rest

end

theorem wordsEach_eq (spelling : Numeral.Spelling) (nodes : List Node) :
    wordsEach spelling nodes = nodes.map (words spelling) := by
  induction nodes with
  | nil => rfl
  | cons node rest ih => rw [wordsEach, ih, List.map_cons]

def print (spelling : Numeral.Spelling) (node : Node) : String :=
  String.ofList (Word.spaced (node.words spelling))

/-- Whether a node as a statement ends in a call, so that a parenthesis would go on with it. -/
def isOpen : Node → Bool
  | .binary .. | .call .. | .member .. | .identifier _ | .number _ | .string _ => true
  | _ => false

mutual

/-- No statement of a body goes on where the next one starts. -/
def Separated (spelling : Numeral.Spelling) : Node → Prop
  | .program body | .function _ _ body => SeparatedAll spelling body
  | _ => True

def SeparatedAll (spelling : Numeral.Spelling) : List Node → Prop
  | [] => True
  | s :: rest => s.Separated spelling ∧ SeparatedAll spelling rest ∧
      (s.isOpen → ∀ next ∈ rest.head?, ∀ w ∈ (next.words spelling).head?, w.kind ≠ .leftParen)

end

theorem SeparatedAll.separated {body : List Node} (h : SeparatedAll spelling body) :
    ∀ s ∈ body, s.Separated spelling := by
  induction body with
  | nil => simp
  | cons s body ih =>
    obtain ⟨hs, hbody, -⟩ := h
    intro s' hm
    rcases List.mem_cons.1 hm with rfl | hm
    · exact hs
    · exact ih hbody s' hm

end Node

theorem Keywords.standard_kindOf_of_notMem (h : name ∉ ["let", "const", "fn"]) :
    standard.kindOf name = .identifier := by
  simp only [List.mem_cons, List.not_mem_nil, or_false, not_or] at h
  simp [kindOf, standard, List.lookup_cons, List.lookup_nil, beq_eq_false_iff_ne.2 h.1,
    beq_eq_false_iff_ne.2 h.2.1, beq_eq_false_iff_ne.2 h.2.2]

namespace Word

variable {kind : TokenKind} {text : String} {words : List Word}

/-- A word that is scanned as a token of its own before a space and at the end of a text. -/
structure Scans (w : Word) : Prop where
  forms : ∀ rest : List Char, (∀ c ∈ rest.head?, c = ' ') →
    Forms .standard w.written rest w.kind w.text

theorem written_of_ne (h : kind ≠ .string) : written ⟨kind, text⟩ = text.toList :=
  if_neg h

theorem scans_mark (h : Lexeme.mark? c = some kind) (ht : text = String.ofList [c]) :
    Scans ⟨kind, text⟩ := by
  refine ⟨fun rest _ => ?_⟩
  have hk : kind ≠ .string := by
    rintro rfl
    unfold Lexeme.mark? at h
    split at h <;> cases h
  rw [written_of_ne hk, ht, String.toList_ofList]
  exact .mark h

theorem scans_letters (hn : text.toList ≠ []) (ha : ∀ c ∈ text.toList, c.isAlpha)
    (hk : Keywords.standard.kindOf text = kind) (hs : kind ≠ .string) : Scans ⟨kind, text⟩ := by
  refine ⟨fun rest hr => ?_⟩
  rw [written_of_ne hs]
  have hf : Forms .standard text.toList rest (Keywords.standard.kindOf (String.ofList text.toList))
      (String.ofList text.toList) := .word hn ha fun c hc => by
    rw [hr c hc]
    decide
  rwa [String.ofList_toList, hk] at hf

theorem scans_name (h : IsName name) : Scans ⟨.identifier, name⟩ :=
  scans_letters h.1 h.2.1 (Keywords.standard_kindOf_of_notMem h.2.2) (by decide)

theorem scans_number (h : Numeral.IsDigits text) : Scans ⟨.number, text⟩ := by
  refine ⟨fun rest hr => ?_⟩
  rw [written_of_ne (by decide)]
  have hf : Forms .standard text.toList rest .number (String.ofList text.toList) :=
    .number h.1 h.2 fun c hc => by
      rw [hr c hc]
      decide
  rwa [String.ofList_toList] at hf

theorem scans_string (h : '"' ∉ text.toList) : Scans ⟨.string, text⟩ := by
  refine ⟨fun rest _ => ?_⟩
  have hf : Forms .standard ('"' :: (text.toList ++ ['"'])) rest .string
      (String.ofList text.toList) := .closed h
  rwa [String.ofList_toList] at hf

theorem scans_operator (h : operator ∈ Level.sum.operators ∨ operator ∈ Level.product.operators) :
    Scans ⟨.operator, operator⟩ := by
  simp only [Level.operators, List.mem_cons, List.not_mem_nil, or_false] at h
  rcases h with (rfl | rfl) | rfl | rfl | rfl <;> exact scans_mark rfl rfl

def signKinds : List TokenKind :=
  [.letWord, .constWord, .fnWord, .equals, .leftParen, .rightParen, .leftBrace, .rightBrace,
   .leftBracket, .rightBracket, .semicolon, .colon, .comma, .dot]

@[simp] theorem scans_sign (h : kind ∈ signKinds) : Scans (sign kind) := by
  simp only [signKinds, List.mem_cons, List.not_mem_nil, or_false] at h
  rcases h with rfl | rfl | rfl | rfl | rfl | rfl | rfl | rfl | rfl | rfl | rfl | rfl | rfl | rfl
  case inl | inr.inl | inr.inr.inl =>
    exact scans_letters (by decide) (List.all_eq_true.1 rfl) rfl (by decide)
  all_goals exact scans_mark rfl rfl

def AllScan (words : List Word) : Prop := ∀ w ∈ words, w.Scans

@[simp] theorem allScan_nil : AllScan [] := by
  simp [AllScan]

@[simp] theorem allScan_cons : AllScan (w :: words) ↔ w.Scans ∧ AllScan words := by
  simp [AllScan]

@[simp] theorem allScan_append {words' : List Word} :
    AllScan (words ++ words') ↔ AllScan words ∧ AllScan words' := by
  simp [AllScan, or_imp, forall_and]

theorem reads_spacedAll (before : List Char) (h : AllScan words) :
    ∃ tokens, tokens.map Token.word = words ++ [sign .endOfInput] ∧
      Segmentation.ReadsFrom .standard [] before (words.map fun w => ⟨[' '], w.written⟩)
        tokens := by
  induction words generalizing before with
  | nil => exact ⟨[.endOfInput _], rfl, .done (by simp)⟩
  | cons w words ih =>
    obtain ⟨hf, hs⟩ := allScan_cons.1 h
    obtain ⟨tokens, hw, hr⟩ := ih (before ++ [' '] ++ w.written) hs
    refine ⟨_, ?_, .step _ _ (by simp [Lexeme.isSpace]) (hf.forms _ ?_) hr⟩
    · rw [List.map_cons, hw]
      rfl
    · cases words <;> simp [Segmentation.textFrom]

theorem textFrom_spacedAll (words : List Word) :
    Segmentation.textFrom [] (words.map fun w => ⟨[' '], w.written⟩) = spacedAll words := by
  induction words with
  | nil => rfl
  | cons w words ih => simp [Segmentation.textFrom, spacedAll, ih]

theorem scanTokens_spaced (h : AllScan words) :
    ∃ tokens, scanTokens .standard (String.ofList (spaced words)) = .ok tokens ∧
      tokens.map Token.word = words ++ [sign .endOfInput] := by
  cases words with
  | nil =>
    refine ⟨[.endOfInput (.ofText [])], ?_, rfl⟩
    apply Segmentation.Reads.scanTokens (d := ⟨[], []⟩)
    · exact .done (by simp)
    · simp [Segmentation.text, Segmentation.textFrom, spaced]
  | cons w words =>
    obtain ⟨hf, hs⟩ := allScan_cons.1 h
    obtain ⟨tokens, hw, hr⟩ := reads_spacedAll w.written hs
    refine ⟨⟨w.kind, w.text, .ofText []⟩ :: tokens, ?_, by rw [List.map_cons, hw]; rfl⟩
    apply Segmentation.Reads.scanTokens
      (d := ⟨⟨[], w.written⟩ :: words.map fun w => ⟨[' '], w.written⟩, []⟩)
    · refine .step _ _ (by simp) (hf.forms _ ?_) hr
      rw [textFrom_spacedAll]
      cases words <;> simp [spacedAll]
    · simp [Segmentation.text, Segmentation.textFrom, textFrom_spacedAll, spaced]

end Word

end Ember
