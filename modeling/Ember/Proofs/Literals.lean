import Ember.Proofs.RoundTrip
import Ember.Proofs.Rounding
import Ember.Proofs.Sequencing
import Ember.Session.Basic

/-!
Values that are shown as programs. The display of null, a boolean, a whole number, a string without
quotes or an object of such values under distinct names spells an expression, and to run it gives
the value back and does nothing else.
-/

namespace Ember

set_option autoImplicit true

/-- A text that leaves no string open and is scanned to these words. -/
structure Spelled (text : String) (words : List Word) : Prop where
  closed : Even (text.toList.count '"')
  scans : ∃ tokens, scanTokens .standard text = .ok tokens ∧
    tokens.map Token.word = words ++ [.sign .endOfInput]

namespace Spelled

theorem append {text more : String} (h : Spelled text words) (h' : Spelled more words')
    (ha : Apart text.toList more.toList) : Spelled (text ++ more) (words ++ words') where
  closed := by
    rw [String.toList_append, List.count_append]
    exact h.closed.add h'.closed
  scans := by
    obtain ⟨tokens, hscan, hwords⟩ := h.scans
    obtain ⟨tokens', hscan', hwords'⟩ := h'.scans
    refine ⟨_, scanTokens_append hscan h.closed ha hscan', ?_⟩
    have hmoved : ∀ place (list : List Token),
        (list.map (Token.relocate place)).map Token.word = list.map Token.word := by
      intro place list
      rw [List.map_map]
      rfl
    rw [List.map_append, hmoved, hwords', List.map_dropLast, hwords, List.dropLast_concat,
      List.append_assoc]

theorem join {text more mark : String} (h : Spelled text words) (hm : Spelled mark [w])
    (h' : Spelled more words') (ht : mark.toList = [c, ' '])
    (hc : c.isAlpha = false ∧ c.isDigit = false) :
    Spelled (text ++ mark ++ more) (words ++ w :: words') := by
  have hopening := h.append hm (.of_head _ (by simpa [ht] using hc))
  have hwhole := hopening.append h' (.of_last _ (by simp [String.toList_append, ht]))
  rwa [List.append_assoc, List.singleton_append] at hwhole

theorem word {w : Word} (h : w.Scans) (ht : w.written = text.toList) : Spelled text [w] where
  closed := by
    rw [← ht]
    rcases (h.forms [' '] (by simp)).count_quotes with he | ⟨-, hnil⟩
    · exact he
    · cases hnil
  scans := by
    have hall : Word.AllScan [w] := by simpa using h
    have hs := Word.scanTokens_spaced hall
    simpa [Word.spaced, Word.spacedAll, ht, String.ofList_toList] using hs

end Spelled

/-- A text whose tokens, wherever they stand, have a derivation with this meaning that nests no
deeper than `bound`. -/
def Conveys (s : Symbol) (m : s.Meaning) (bound : Nat) (text : String) : Prop :=
  ∃ words, Spelled text words ∧ ∀ tokens : List Token, tokens.map Token.word = words →
    ∃ d : Derivation s, d.Legal ∧ d.tokens = tokens ∧ d.tree = m ∧ d.nesting ≤ bound

namespace Conveys

theorem mono (h : Conveys s m bound text) (hb : bound ≤ bound') : Conveys s m bound' text := by
  obtain ⟨words, hs, hd⟩ := h
  refine ⟨words, hs, fun tokens ht => ?_⟩
  obtain ⟨d, hlegal, htokens, htree, hn⟩ := hd tokens ht
  exact ⟨d, hlegal, htokens, htree, hn.trans hb⟩

theorem operand (hs : Spelled text [⟨k, word⟩])
    (hd : ∀ t : Terminal k, t.token.text = word →
      ∃ d : Derivation .primary, d.Legal ∧ d.tokens = [t.token] ∧ d.tree = e ∧ d.nesting = 1) :
    Conveys .expression e 7 text := by
  refine ⟨_, hs, fun tokens ht => ?_⟩
  obtain ⟨t, rest, rfl, htext, hr⟩ := exists_terminal ht
  obtain rfl := List.map_eq_nil_iff.1 hr
  obtain ⟨d, hlegal, htokens, htree, hn⟩ := hd t htext
  -- An expression reaches an operand through six rules, each with nothing to add.
  refine ⟨.plain (.sum (.chain (.term (.chain (.factor (.call (.member d .noAccesses) .noCalls))
    .noOperations)) .noOperations)), ?_, ?_, ?_, ?_⟩
  · simp [Derivation.Legal, hlegal]
  · simp [Derivation.tokens, htokens]
  · exact htree
  · simp [Derivation.nesting, hn]

theorem identifier (h : IsName name) : Conveys .expression (.identifier name) 7 name :=
  operand (.word (Word.scans_name h) (Word.written_of_ne (by decide))) fun t ht =>
    ⟨.identifier t, trivial, rfl, by rw [← ht]; rfl, rfl⟩

theorem number (h : Numeral.IsDigits text) :
    Conveys .expression (.number (Numeral.value text)) 7 text :=
  operand (.word (Word.scans_number h) (Word.written_of_ne (by decide))) fun t ht =>
    ⟨.number t, trivial, rfl, by rw [← ht]; rfl, rfl⟩

theorem string (h : '"' ∉ text.toList) :
    Conveys .expression (.string text) 7 ("\"" ++ text ++ "\"") :=
  operand (.word (Word.scans_string h) (by simp [Word.written])) fun t ht =>
    ⟨.string t, trivial, rfl, by rw [← ht]; rfl, rfl⟩

theorem keyed (hk : IsName key) (h : Conveys .expression e bound text) :
    Conveys .property (.property key (some e)) (bound + 1) (key ++ ": " ++ text) := by
  obtain ⟨words, hs, hd⟩ := h
  have hkey : Spelled key [⟨.identifier, key⟩] :=
    .word (Word.scans_name hk) (Word.written_of_ne (by decide))
  have hcolon : Spelled ": " [.sign .colon] := ⟨by decide, _, rfl, rfl⟩
  refine ⟨_, hkey.join hcolon hs rfl (by decide), fun tokens ht => ?_⟩
  obtain ⟨t, tokens, rfl, rfl, h₁⟩ := exists_terminal ht
  obtain ⟨colon, tokens, rfl, -, h₂⟩ := exists_terminal h₁
  obtain ⟨d, hlegal, rfl, rfl, hn⟩ := hd tokens h₂
  exact ⟨.keyed t colon d, hlegal, rfl, rfl, Nat.succ_le_succ hn⟩

theorem object (h : Conveys .properties ps bound text) :
    Conveys .expression (.object ps) (bound + 2) ("\x7b " ++ text ++ " \x7d") := by
  obtain ⟨words, hs, hd⟩ := h
  have hleft : Spelled "\x7b " [.sign .leftBrace] := ⟨by decide, _, rfl, rfl⟩
  have hright : Spelled " \x7d" [.sign .rightBrace] := ⟨by decide, _, rfl, rfl⟩
  have hopening := hleft.append hs (.of_last _ (by simp))
  refine ⟨_, hopening.append hright (.of_head _ (by simp)), fun tokens ht => ?_⟩
  obtain ⟨tokens, closing, rfl, -, h₁⟩ := exists_last ht
  obtain ⟨opening, tokens, rfl, -, h₂⟩ := exists_terminal h₁
  obtain ⟨d, hlegal, rfl, rfl, hn⟩ := hd tokens h₂
  refine ⟨.plain (.braces opening d closing), hlegal, rfl, rfl, ?_⟩
  simpa [Derivation.nesting] using hn

end Conveys

namespace Value

mutual

/-- The node that the display of a value spells. -/
def literal : Value → Node
  | .null => .identifier "null"
  | .boolean b => .identifier (if b then "true" else "false")
  | .number x => .number x
  | .string s => .string s
  | .object slots => .object (properties slots)
  | .native _ => .null

def properties : List (String × Value) → List Node
  | [] => []
  | (key, value) :: rest => .property key (some value.literal) :: properties rest

end

inductive Readable : Value → Prop where
  | null : Readable .null
  | boolean : Readable (.boolean b)
  | number : Double.unitsPerOne ∣ m.units → Readable (.number (.finite false m))
  | string : '"' ∉ s.toList → Readable (.string s)
  | object : (∀ e ∈ slots, IsName e.1) → (slots.map (·.1)).Nodup → (∀ e ∈ slots, Readable e.2) →
      Readable (.object slots)

theorem nesting_le_slotsNesting {e : String × Value} (h : e ∈ slots) :
    e.2.nesting ≤ slotsNesting slots := by
  induction slots with
  | nil => cases h
  | cons entry rest ih =>
    rw [slotsNesting]
    rcases List.mem_cons.1 h with rfl | h
    · exact Nat.le_max_left _ _
    · exact (ih h).trans (Nat.le_max_right _ _)

theorem conveys_properties {slots : List (String × Value)}
    (h : ∀ e ∈ slots, IsName e.1 ∧ Conveys .expression e.2.literal bound e.2.display) :
    Conveys .properties (properties slots) (bound + 1) (", ".intercalate (displaySlots slots)) := by
  induction slots with
  | nil =>
    refine ⟨[], ⟨by decide, _, rfl, rfl⟩, fun tokens ht => ?_⟩
    exact ⟨.noProperties, trivial, (List.map_eq_nil_iff.1 ht).symm, rfl, Nat.zero_le _⟩
  | cons entry rest ih =>
    obtain ⟨key, value⟩ := entry
    have ⟨hk, hv⟩ := h (key, value) List.mem_cons_self
    have hrest := ih fun e he => h e (List.mem_cons_of_mem _ he)
    obtain ⟨words, hs, hd⟩ := hv.keyed hk
    cases rest with
    | nil =>
      refine ⟨words, by simpa [displaySlots] using hs, fun tokens ht => ?_⟩
      obtain ⟨d, hlegal, htokens, htree, hn⟩ := hd tokens ht
      exact ⟨.lastProperty d, hlegal, htokens, congrArg (fun p => [p]) htree, hn⟩
    | cons next rest =>
      obtain ⟨key', value'⟩ := next
      obtain ⟨words', hs', hd'⟩ := hrest
      have hcomma : Spelled ", " [.sign .comma] := ⟨by decide, _, rfl, rfl⟩
      have hwhole := hs.join hcomma hs' rfl (by decide)
      rw [displaySlots, ← String.intercalate_cons_cons] at hwhole
      refine ⟨_, hwhole, fun tokens ht => ?_⟩
      obtain ⟨ts, tokens, rfl, h₁, h₂⟩ := List.map_eq_append_iff.1 ht
      obtain ⟨comma, tokens, rfl, -, h₃⟩ := exists_terminal h₂
      obtain ⟨d, hlegal, rfl, htree, hn⟩ := hd ts h₁
      obtain ⟨d', hlegal', rfl, htree', hn'⟩ := hd' tokens h₃
      refine ⟨.moreProperties d comma d', ⟨hlegal, hlegal'⟩, rfl, ?_, Nat.max_le.2 ⟨hn, hn'⟩⟩
      rw [Derivation.tree, htree, htree']
      rfl

/-- A readable value is shown as its literal. -/
theorem Readable.conveys {v : Value} (h : v.Readable) :
    Conveys .expression v.literal (3 * v.nesting + 7) v.display := by
  induction h with
  | null => exact .identifier ⟨by decide, List.all_eq_true.1 rfl, by decide⟩
  | @boolean b =>
    cases b <;> exact .identifier ⟨by decide, List.all_eq_true.1 rfl, by decide⟩
  | number hm =>
    obtain ⟨hd, hv⟩ := Numeral.value_text hm
    have hc := Conveys.number hd
    rw [hv] at hc
    exact hc
  | string hs => exact .string hs
  | @object slots hnames _ _ ih =>
    -- The deepest slot gives the bound for all of them.
    have hslots : ∀ e ∈ slots, IsName e.1 ∧
        Conveys .expression e.2.literal (3 * slotsNesting slots + 7) e.2.display := by
      intro e he
      have hn := nesting_le_slotsNesting he
      exact ⟨hnames e he, (ih e he).mono (by omega)⟩
    exact (conveys_properties hslots).object.mono (by rw [nesting]; omega)

end Value

/-- A scope in which the names of the language's own constants stand for them. -/
structure Forest.Knows (f : Forest) (scope : ScopeId) : Prop where
  true : f.lookup scope "true" = .ok (.boolean true)
  false : f.lookup scope "false" = .ok (.boolean false)
  null : f.lookup scope "null" = .ok .null

namespace Eval

theorem lookup_of_ok {w : World} (h : w.forest.lookup scope name = .ok value) :
    lookup scope name w = .ok value w := by
  simp only [lookup, bind, EStateM.bind, get, getThe, MonadStateOf.get, EStateM.get, h]
  rfl

theorem slots_properties {child : Child} {slots entries : List (String × Value)}
    (hk : ((entries ++ slots).map (·.1)).Nodup)
    (hc : ∀ e ∈ slots, ∀ i, child i e.2.literal w = .ok e.2 w) :
    Eval.slots child scope i entries (Value.properties slots) w = .ok (entries ++ slots) w := by
  induction slots generalizing i entries with
  | nil => rw [List.append_nil]; rfl
  | cons entry rest ih =>
    obtain ⟨key, value⟩ := entry
    have hnew : key ∉ Ordered.keys entries := by
      rw [List.map_append, List.nodup_append] at hk
      intro hm
      exact hk.2.2 key hm key (by simp) rfl
    have hvalue : slot child scope i (.property key (some value.literal)) w =
        .ok (key, value) w := by
      simp only [slot, bind, EStateM.bind, hc (key, value) List.mem_cons_self i]
      rfl
    have hrest : Eval.slots child scope (i + 1) (entries ++ [(key, value)])
        (Value.properties rest) w = .ok (entries ++ [(key, value)] ++ rest) w :=
      ih (by simpa using hk) fun e he => hc e (List.mem_cons_of_mem _ he)
    rw [List.append_assoc, List.singleton_append] at hrest
    simp only [Value.properties, Eval.slots, bind, EStateM.bind, hvalue,
      Ordered.insert_of_notMem value hnew]
    exact hrest

end Eval

/-- The literal of a readable value is evaluated to the value, and nothing is done. -/
theorem Value.Readable.eval_literal {v : Value} {depth : Nat} (h : v.Readable)
    (hw : w.forest.Knows scope) (hd : v.nesting < depth) :
    v.literal.eval host scope depth path w = .ok v w := by
  obtain ⟨depth, rfl⟩ : ∃ d, depth = d + 1 := ⟨depth - 1, by omega⟩
  induction h generalizing depth path with
  | null =>
    simp only [literal, Node.eval, Eval.located, Eval.node, Eval.lookup_of_ok hw.null]
  | @boolean b =>
    cases b with
    | false =>
      simp only [literal, Node.eval, Eval.located, Eval.node, Eval.lookup_of_ok hw.false,
        Bool.false_eq_true, if_false]
    | true =>
      simp only [literal, Node.eval, Eval.located, Eval.node, Eval.lookup_of_ok hw.true, if_true]
  | number => rfl
  | string => rfl
  | @object slots _ hk _ ih =>
    have hchild : ∀ e ∈ slots, ∀ i,
        e.2.literal.eval host scope depth (i :: path) w = .ok e.2 w := by
      intro e he i
      have hn := nesting_le_slotsNesting he
      rw [nesting] at hd
      obtain ⟨d, rfl⟩ : ∃ d, depth = d + 1 := ⟨depth - 1, by omega⟩
      exact ih e he d (by omega)
    have hslots : Eval.slots (fun i m => m.eval host scope depth (i :: path)) scope 0 []
        (properties slots) w = .ok slots w := Eval.slots_properties hk hchild
    simp only [literal, Node.eval, Eval.located, Eval.node, bind, EStateM.bind, hslots]
    rfl

theorem Grammar.parseSource_of_conveys {e : Node} (h : Conveys .expression e bound text)
    (hb : bound + 3 ≤ depth) : (ofDepth depth).parseSource .standard text = .ok (.program [e]) := by
  obtain ⟨words, ⟨-, tokens, hscan, hwords⟩, hd⟩ := h
  obtain ⟨init, stop, rfl, -, hinit⟩ := exists_last hwords
  obtain ⟨d, hlegal, rfl, rfl, hn⟩ := hd init hinit
  refine parseSource_eq_ok_iff.2
    ⟨.program (.moreStatements (.evaluated d) .noStatements) stop, ?_, ?_, ?_, rfl⟩
  · simp [Derivation.Legal, Derivation.tokens, hlegal]
  · simpa [Derivation.tokens] using hscan
  · simp only [Derivation.nesting]
    omega

theorem Interpreter.parse_display {i : Interpreter} {v : Value} (hv : v.Readable)
    (hd : 3 * v.nesting + 10 ≤ i.parseDepth) : i.parse v.display = .ok (.program [v.literal]) :=
  Grammar.parseSource_of_conveys hv.conveys hd

theorem Value.Readable.eval_program {v : Value} {depth : Nat} (hv : v.Readable)
    (hw : w.forest.Knows scope) (hd : v.nesting + 2 ≤ depth) :
    (Node.program [v.literal]).eval host scope depth path w = .ok v w := by
  obtain ⟨depth, rfl⟩ : ∃ d, depth = d + 1 := ⟨depth - 1, by omega⟩
  have he : v.literal.eval host scope depth (0 :: path) w = .ok v w :=
    hv.eval_literal hw (by omega)
  simp only [Node.eval, Eval.located, Eval.node, Eval.statements, bind, EStateM.bind, he]
  rfl

/-- The display of a readable value is a program that gives the value back: run in any scope where
the constants of the language have their names, it returns the value and leaves the world as it
was. -/
theorem Interpreter.run_display (i : Interpreter) (scope : ScopeId) (w : World) (v : Value)
    (hv : v.Readable) (hw : w.forest.Knows scope) (hparse : 3 * v.nesting + 10 ≤ i.parseDepth)
    (heval : v.nesting + 2 ≤ i.evalDepth) : i.run (some scope) v.display w = .ok v w := by
  rw [run_of_parse (parse_display hv hparse), Eval.toRun, hv.eval_program hw heval]

/-- An object with an empty one inside it, ten to the twenty-second, a string of two lines and a
constant of the language. -/
def Value.assorted : Value :=
  .object [("a", .object []),
    ("n", .number (.finite false (.ofShifted (5 ^ 22) (22 + Double.places) (by decide) (by decide)))),
    ("s", .string "x\ny"), ("t", .boolean true)]

theorem Interpreter.run_display_assorted :
    Value.assorted.Readable ∧ Session.freshForest.Knows 0 ∧
      (standard 0).run (some 0) Value.assorted.display (.ofForest Session.freshForest) =
        .ok Value.assorted (.ofForest Session.freshForest) := by
  have hname : ∀ name ∈ ["a", "n", "s", "t"], IsName name := by
    intro name h
    simp only [List.mem_cons, List.not_mem_nil, or_false] at h
    rcases h with rfl | rfl | rfl | rfl <;> exact ⟨by decide, List.all_eq_true.1 rfl, by decide⟩
  have hv : Value.assorted.Readable := by
    refine .object (by simpa using hname) (by decide) ?_
    simp only [List.forall_mem_cons, List.not_mem_nil, false_imp_iff, implies_true, and_true]
    refine ⟨.object (by simp) (by simp) (by simp), .number ?_, .string (by decide), .boolean⟩
    exact (Nat.pow_dvd_pow 2 (Nat.le_add_left _ _)).mul_left _
  have hw : Session.freshForest.Knows 0 := ⟨rfl, rfl, rfl⟩
  exact ⟨hv, hw, run_display (standard 0) 0 _ _ hv hw (by decide) (by decide)⟩

end Ember
