import Ember.Proofs.Digits
import Ember.Proofs.Juncture
import Ember.Proofs.Lockstep
import Ember.Session.Basic
import Mathlib.Data.List.DropRight

/-!
Lines that a session answers without evaluating them. What is stripped from a line is not what the
scanner passes over, and yet no line that is blank or taken for a command spells a statement.
-/

namespace Ember

set_option autoImplicit true

namespace Text

theorem toNat_of_blank (h : isBlank c) : c.toNat ≤ 0x20 ∨ 0x80 < c.toNat := by
  simp only [isBlank, blankRanges, List.any_cons, List.any_nil, Bool.or_false, Bool.or_eq_true,
    Bool.and_eq_true, decide_eq_true_eq] at h
  omega

theorem not_digit_of_blank (h : isBlank c) : c.isDigit = false := by
  have hn := toNat_of_blank h
  rw [Bool.eq_false_iff]
  intro hd
  have hd := Numeral.toNat_of_digit hd
  omega

theorem toNat_of_alpha (h : Char.isAlpha c) : 65 ≤ c.toNat ∧ c.toNat ≤ 122 := by
  simp only [Char.isAlpha, Char.isUpper, Char.isLower, Bool.or_eq_true, Bool.and_eq_true,
    decide_eq_true_eq, UInt32.le_iff_toNat_le] at h
  rcases h with ⟨h, h'⟩ | ⟨h, h'⟩
  · exact ⟨h, Nat.le_trans h' (by decide)⟩
  · exact ⟨Nat.le_trans (by decide) h, h'⟩

theorem not_alpha_of_blank (h : isBlank c) : c.isAlpha = false := by
  have hn := toNat_of_blank h
  rw [Bool.eq_false_iff]
  intro ha
  have ha := toNat_of_alpha ha
  omega

theorem mark?_of_blank (h : isBlank c) : Lexeme.mark? c = none := by
  unfold Lexeme.mark?
  split <;> first | rfl | exact absurd h (by decide)

theorem isSpace_or_foreign_of_blank (h : isBlank c) : Lexeme.isSpace c ∨ Lexeme.Foreign c := by
  cases hs : Lexeme.isSpace c with
  | true => exact .inl rfl
  | false =>
    refine .inr ⟨hs, mark?_of_blank h, ?_, not_digit_of_blank h, not_alpha_of_blank h⟩
    rintro rfl
    exact absurd h (by decide)

/-- Of the characters that the scanner passes over, only the backspace is no blank. -/
theorem isSpace_and_not_blank_iff : Lexeme.isSpace c ∧ ¬isBlank c ↔ c = '\x08' := by
  constructor
  · rintro ⟨h, hb⟩
    simp only [Lexeme.isSpace, Bool.or_eq_true, beq_iff_eq] at h
    rcases h with (((rfl | rfl) | rfl) | rfl) | rfl
    · exact absurd (by decide) hb
    · exact absurd (by decide) hb
    · exact absurd (by decide) hb
    · exact absurd (by decide) hb
    · rfl
  · rintro rfl
    decide

theorem head?_trimBy (p : Char → Bool) (cs : List Char) :
    (trimBy p cs).head? = (cs.dropWhile p).head? := by
  change ((cs.dropWhile p).rdropWhile p).head? = _
  cases hd : cs.dropWhile p with
  | nil => rfl
  | cons c rest =>
    have hc : ¬p c := head?_dropWhile c (by rw [hd]; rfl)
    have hne : (c :: rest).rdropWhile p ≠ [] := fun hnil =>
      hc (List.rdropWhile_eq_nil_iff.1 hnil c List.mem_cons_self)
    obtain ⟨d, more, hr⟩ := List.exists_cons_of_ne_nil hne
    have hprefix := List.rdropWhile_prefix p (l := c :: rest)
    rw [hr, List.cons_prefix_cons] at hprefix
    rw [hr, hprefix.1, List.head?_cons, List.head?_cons]

theorem head?_strip (s : String) : (strip s).toList.head? = (s.toList.dropWhile isBlank).head? := by
  rw [strip, String.toList_ofList, head?_trimBy]

theorem strip_eq_empty_iff : strip s = "" ↔ ∀ c ∈ s.toList, isBlank c := by
  rw [← List.dropWhile_eq_nil_iff, ← List.head?_eq_none_iff, ← head?_strip,
    List.head?_eq_none_iff, String.toList_eq_nil_iff]

theorem head?_strip_eq_some_iff : (strip s).toList.head? = some c ↔
    isBlank c = false ∧ ∃ front rest, s.toList = front ++ c :: rest ∧ ∀ d ∈ front, isBlank d := by
  rw [head?_strip]
  constructor
  · intro h
    obtain ⟨rest, hr⟩ := List.head?_eq_some_iff.1 h
    refine ⟨by simpa using head?_dropWhile c h, s.toList.takeWhile isBlank, rest, ?_,
      fun d hd => List.mem_takeWhile_imp hd⟩
    rw [← hr, List.takeWhile_append_dropWhile]
  · rintro ⟨hc, front, rest, hs, hf⟩
    rw [hs, List.dropWhile_append_of_pos hf, List.dropWhile_cons_of_neg (by simp [hc]),
      List.head?_cons]

end Text

theorem exists_stray_of_blank (hb : ∀ c ∈ front, Text.isBlank c)
    (hs : ∃ c ∈ front, ¬Lexeme.isSpace c) : ∃ i c, Stray (front ++ rest) i c := by
  induction front with
  | nil => simp at hs
  | cons c front ih =>
    obtain ⟨hc, hb⟩ := List.forall_mem_cons.1 hb
    rcases Text.isSpace_or_foreign_of_blank hc with hspace | hforeign
    · obtain ⟨i, d, h⟩ := ih hb (by simpa [hspace] using hs)
      have heven : Even ([c].count '"') := by
        rw [Segmentation.count_quotes_gap (by simpa using hspace)]
        exact Even.zero
      exact ⟨1 + i, d, (stray_append heven).2 h⟩
    · exact ⟨0, c, rfl, hforeign, Even.zero⟩

/-- A text that begins with blanks is scanned only if the scanner passes over all of them. -/
theorem isSpace_of_scanTokens {front rest : List Char} (h : scanTokens keywords source = .ok tokens)
    (ht : source.toList = front ++ rest) (hb : ∀ c ∈ front, Text.isBlank c) :
    ∀ c ∈ front, Lexeme.isSpace c := by
  by_contra hs
  push Not at hs
  obtain ⟨i, c, hstray⟩ : ∃ i c, Stray (front ++ rest) i c := exists_stray_of_blank hb hs
  exact not_stray_of_scanTokens h i c (ht ▸ hstray)

theorem scanTokens_blank (h : ∀ c ∈ source.toList, Lexeme.isSpace c) :
    scanTokens keywords source = .ok [.endOfInput (.ofText source.toList)] :=
  Segmentation.Reads.scanTokens (d := ⟨[], source.toList⟩) (.done h) rfl

theorem scanTokens_slash (h : scanTokens keywords source = .ok tokens)
    (ht : source.toList = front ++ '/' :: rest) (hs : ∀ c ∈ front, Lexeme.isSpace c) :
    ∃ more, tokens = ⟨.operator, "/", .ofText front⟩ :: more := by
  obtain ⟨⟨segments, ending⟩, htext, hr⟩ := Segmentation.exists_of_scanTokens h
  rw [ht] at htext
  have hgap : (front ++ '/' :: rest).takeWhile Lexeme.isSpace = front :=
    takeWhile_run hs (by simp [Lexeme.isSpace])
  rw [← htext] at hgap
  cases hr with
  | done he =>
    have hslash : '/' ∈ ending := by
      rw [show ending = _ from htext]
      simp
    exact absurd (he '/' hslash) (by decide)
  | step segment more hg hf hr =>
    rw [Segmentation.text, Segmentation.textFrom, Segmentation.takeWhile_gap hg hf] at hgap
    obtain ⟨c, cs, hl, -, hfirst⟩ := hf.first?
    rw [Segmentation.text, Segmentation.textFrom, hgap, hl] at htext
    obtain ⟨rfl, -⟩ := List.cons.inj (List.append_cancel_left htext)
    have hslash : Lexeme.first? keywords '/' (cs ++ Segmentation.textFrom ending more) =
        some ⟨['/'], some (.operator, "/")⟩ := rfl
    obtain ⟨-, htoken⟩ := Lexeme.mk.inj (Option.some.inj (hslash.symm.trans hfirst))
    cases htoken
    rw [List.nil_append, hgap]
    exact ⟨_, rfl⟩

/-- Kinds of tokens that a statement may start with. -/
def TokenKind.starters : List TokenKind :=
  [.letWord, .constWord, .fnWord, .leftBrace, .identifier, .number, .string, .leftParen]

namespace Parser

/-- The parser fails at once, for want of an operand. -/
def Refuses (c : Cursor) (p : Parser α) : Prop := p c = .error (.unexpected .operand c.current) c

theorem Refuses.bind {p : Parser α} (h : Refuses c p) (f : α → Parser β) :
    Refuses c (p >>= f) := by
  simp only [Refuses, Bind.bind, EStateM.bind]
  rw [h]

theorem refuses_sees_bind {p q : Parser α} (h : c.current.kind ∉ TokenKind.starters)
    (hk : ∀ kind ∈ kinds, kind ∈ TokenKind.starters) (hq : Refuses c q) :
    Refuses c (do if ← sees kinds then p else q) := by
  change Refuses c (if kinds.contains c.current.kind then p else q)
  rwa [if_neg (by simpa using fun hc => h (hk _ hc))]

end Parser

open Ember.Parser

namespace Rules

variable {g : Grammar} {c : Cursor}

theorem refuses_primary (h : c.current.kind ∉ TokenKind.starters) : Refuses c (primary g) := by
  rw [primary_eq]
  change Refuses c (operand g c.current.kind c.current.text)
  cases hk : c.current.kind with
  | identifier | number | string | leftParen => simp [hk, TokenKind.starters] at h
  | _ => rfl

theorem refuses_object (h : c.current.kind ∉ TokenKind.starters) (hs : Refuses c g.sum) :
    Refuses c (object g) :=
  refuses_sees_bind h (by decide) hs

theorem refuses_statement (h : c.current.kind ∉ TokenKind.starters) (he : Refuses c g.expression) :
    Refuses c (statement g) :=
  refuses_sees_bind h (by decide) (refuses_sees_bind h (by decide) he)

theorem refuses_program (h : c.current.kind ≠ .endOfInput) (hs : Refuses c g.statement) :
    Refuses c (program g) := by
  refine Refuses.bind ?_ _
  change Refuses c (collect (return !(← sees [.endOfInput])) g.statement c.pending)
  rw [c.pending_eq_cons h]
  change Refuses c (if !([TokenKind.endOfInput].contains c.current.kind) then _ else _)
  rw [if_pos (by simpa using h)]
  exact hs.bind _

end Rules

namespace Grammar

variable {c : Cursor}

theorem refuses_ofDepth (h : c.current.kind ∉ TokenKind.starters)
    (he : c.current.kind ≠ .endOfInput) (depth : Nat) :
    Refuses c (ofDepth (depth + 10)).program := by
  have hprimary : Refuses c (ofDepth (depth + 1)).primary := Rules.refuses_primary h
  have hmember : Refuses c (ofDepth (depth + 2)).member := hprimary.bind _
  have hcall : Refuses c (ofDepth (depth + 3)).callOrMember := hmember.bind _
  have hproduct : Refuses c (ofDepth (depth + 4)).product := hcall.bind _
  have hsum : Refuses c (ofDepth (depth + 5)).sum := hproduct.bind _
  have hobject : Refuses c (ofDepth (depth + 6)).object := Rules.refuses_object h hsum
  have hassignment : Refuses c (ofDepth (depth + 7)).assignment := hobject.bind _
  have hexpression : Refuses c (ofDepth (depth + 8)).expression := hassignment
  have hstatement : Refuses c (ofDepth (depth + 9)).statement :=
    Rules.refuses_statement h hexpression
  exact Rules.refuses_program he hstatement

theorem parse_eq_error_of_head (rest : List Token) (h : t.kind ∉ TokenKind.starters)
    (he : t.kind ≠ .endOfInput) :
    standard.parse (t :: rest) = .error (.unexpected .operand t) := by
  have hp : standard.program (.ofTokens (t :: rest)) = .error (.unexpected .operand t) _ :=
    refuses_ofDepth (c := .ofTokens (t :: rest)) h he 990
  rw [parse, hp]

end Grammar

namespace Session

/-- Lines that the loop answers without evaluating them: blank ones and commands. -/
def Intercepted (text : String) : Prop :=
  isBlankLine text = true ∨ ∃ command, Command.read? text = some command

theorem isBlankLine_iff : isBlankLine text = true ↔ ∀ c ∈ text.toList, Text.isBlank c := by
  rw [isBlankLine, beq_iff_eq, Text.strip_eq_empty_iff]

theorem exists_command_iff : (∃ command, Command.read? text = some command) ↔
    ∃ front rest, text.toList = front ++ '/' :: rest ∧ ∀ c ∈ front, Text.isBlank c := by
  have hhead : (∃ command, Command.read? text = some command) ↔
      (Text.strip text).toList.head? = some '/' := by
    unfold Command.read?
    dsimp only
    split
    · next rest hs => simp [hs]
    · next hs => simpa [List.head?_eq_some_iff] using hs
  rw [hhead, Text.head?_strip_eq_some_iff]
  exact and_iff_right (by decide)

def answer (clock : Int) (s : Session) (text : String) : Session × Printed × Status :=
  match s.evaluate clock text with
  | (s', out, .ok shown) => (s', ⟨out ++ shown ++ "\n", ""⟩, .running)
  | (s', out, .error e) =>
    if e.isReported then (s', ⟨out, s'.report e⟩, .running)
    else (s', ⟨out, ""⟩, .crashed e)

theorem respond_eq_answer (clock : Int) (clearing : String) (s : Session)
    (he : isExitLine text = false) (hi : ¬Intercepted text) :
    s.respond clock clearing (.line text) = s.answer clock text := by
  obtain ⟨hb, hc⟩ := not_or.1 hi
  have hread : Command.read? text = none :=
    Option.eq_none_iff_forall_ne_some.2 fun command h => hc ⟨command, h⟩
  rw [respond, if_neg (by simp [he]), if_neg hb, hread]
  rfl

/-- A blank line is an empty program, or it cannot be scanned. -/
theorem parse_of_blank (clock : Int) (h : isBlankLine text = true) :
    (Interpreter.standard clock).parse text = .ok (.program []) ∨
      ∃ c p, (Interpreter.standard clock).parse text = .error (.scan (.unrecognized c p)) := by
  unfold Interpreter.parse Grammar.parseSource
  cases hscan : scanTokens .standard text with
  | error e =>
    obtain ⟨i, c, -, rfl⟩ := scanTokens_eq_error_iff.1 hscan
    exact .inr ⟨c, _, rfl⟩
  | ok tokens =>
    have hs := isSpace_of_scanTokens hscan (List.append_nil _).symm (isBlankLine_iff.1 h)
    rw [scanTokens_blank hs] at hscan
    cases hscan
    exact .inl rfl

/-- A command cannot be scanned, or its slash is no operand. -/
theorem parse_of_command (clock : Int) (h : Command.read? text = some command) :
    (∃ c p, (Interpreter.standard clock).parse text = .error (.scan (.unrecognized c p))) ∨
      ∃ p, (Interpreter.standard clock).parse text =
        .error (.parse (.unexpected .operand ⟨.operator, "/", p⟩)) := by
  obtain ⟨front, rest, ht, hb⟩ := exists_command_iff.1 ⟨command, h⟩
  unfold Interpreter.parse Grammar.parseSource
  cases hscan : scanTokens .standard text with
  | error e =>
    obtain ⟨i, c, -, rfl⟩ := scanTokens_eq_error_iff.1 hscan
    exact .inl ⟨c, _, rfl⟩
  | ok tokens =>
    obtain ⟨more, rfl⟩ := scanTokens_slash hscan ht (isSpace_of_scanTokens hscan ht hb)
    have hp := Grammar.parse_eq_error_of_head more (t := ⟨.operator, "/", .ofText front⟩)
      (show TokenKind.operator ∉ _ by decide) (show TokenKind.operator ≠ _ by decide)
    refine .inr ⟨.ofText front, ?_⟩
    dsimp only
    rw [show Grammar.ofDepth (Interpreter.standard clock).parseDepth = .standard from rfl, hp]

/-- No program is hidden by the commands. What is stripped are blanks, and a backspace is none though
the scanner passes over it. A line that is not evaluated because it is blank or a command fails to be
scanned or parsed, or is an empty program: every line that spells at least one statement, and does
not end the session, is evaluated. -/
theorem evaluates_programs (clock : Int) (clearing : String) (s : Session) (text : String)
    (h : isExitLine text = false) :
    (isBlankLine text = true ↔ ∀ c ∈ text.toList, Text.isBlank c) ∧
    ((∃ command, Command.read? text = some command) ↔
      ∃ front rest, text.toList = front ++ '/' :: rest ∧ ∀ c ∈ front, Text.isBlank c) ∧
    (∀ c, Lexeme.isSpace c ∧ ¬Text.isBlank c ↔ c = '\x08') ∧
    (isBlankLine text = true →
      (Interpreter.standard clock).parse text = .ok (.program []) ∨
        ∃ c p, (Interpreter.standard clock).parse text = .error (.scan (.unrecognized c p))) ∧
    (∀ command, Command.read? text = some command →
      (∃ c p, (Interpreter.standard clock).parse text = .error (.scan (.unrecognized c p))) ∨
        ∃ p, (Interpreter.standard clock).parse text =
          .error (.parse (.unexpected .operand ⟨.operator, "/", p⟩))) ∧
    (∀ first rest, (Interpreter.standard clock).parse text = .ok (.program (first :: rest)) →
      ¬Intercepted text ∧ s.respond clock clearing (.line text) = s.answer clock text) := by
  refine ⟨isBlankLine_iff, exists_command_iff, fun _ => Text.isSpace_and_not_blank_iff,
    parse_of_blank clock, fun _ => parse_of_command clock, fun first rest hp => ?_⟩
  have hi : ¬Intercepted text := by
    rintro (hb | ⟨command, hc⟩)
    · rcases parse_of_blank clock hb with he | ⟨c, p, he⟩
      · cases he.symm.trans hp
      · cases he.symm.trans hp
    · rcases parse_of_command clock hc with ⟨c, p, he⟩ | ⟨p, he⟩
      · cases he.symm.trans hp
      · cases he.symm.trans hp
  exact ⟨hi, respond_eq_answer clock clearing s h hi⟩

/-- A backspace is not stripped, though the scanner passes over it: this line does not end the
session, and what it spells is evaluated. -/
theorem evaluates_programs_backspace :
    isExitLine "\x08exit" = false ∧ ¬Intercepted "\x08exit" ∧
      (start none).respond 0 "" (.line "\x08exit") = (start none).answer 0 "\x08exit" := by
  have he : isExitLine "\x08exit" = false := by decide +kernel
  have hp : (Interpreter.standard 0).parse "\x08exit" = .ok (.program [.identifier "exit"]) := rfl
  exact ⟨he, (evaluates_programs 0 "" (start none) "\x08exit" he).2.2.2.2.2 _ _ hp⟩

end Session

end Ember
