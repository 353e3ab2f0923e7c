import Ember.Proofs.Entries
import Ember.Proofs.Identity
import Ember.Proofs.Showing

/-!
The outline of a program loses nothing: if no string has a line break, the text of the outline tells
the program from all others.
-/

namespace Ember

set_option autoImplicit true

theorem Decimal.toDouble_ne (d : Decimal) : d.toDouble false ≠ .neg .zero := by
  intro h
  unfold toDouble Double.round at h
  split_ifs at h <;> cases h

theorem Numeral.unsignedZero_value {text : String} (h : IsDigits text) :
    (value text).unsignedZero = value text := by
  rcases (value text).unsignedZero_cases with hz | ⟨hz, -⟩
  · exact hz
  · rw [value, read?_digits h, Option.getD_some] at hz
    exact absurd hz (Decimal.toDouble_ne _)

theorem IsName.line (h : IsName name) : Entry.Line name := by
  obtain ⟨-, ha, -⟩ := h
  refine ⟨fun hm => absurd (ha _ hm) (by decide), fun hm => ?_⟩
  exact absurd (ha _ (List.mem_of_head? hm)) (by decide)

namespace Node

mutual

def strings : Node → List String
  | .program body => stringsOf body
  | .declaration _ _ none => []
  | .declaration _ _ (some value) => value.strings
  | .function _ _ body => stringsOf body
  | .assignment target value => target.strings ++ value.strings
  | .binary left right _ => left.strings ++ right.strings
  | .member owner key _ => owner.strings ++ key.strings
  | .call callee arguments => callee.strings ++ stringsOf arguments
  | .identifier _ | .number _ => []
  | .string text => [text]
  | .null => []
  | .property _ none => []
  | .property _ (some value) => value.strings
  | .object properties => stringsOf properties
  | .placeholder _ => []

def stringsOf : List Node → List String
  | [] => []
  | node :: rest => node.strings ++ stringsOf rest

end

theorem stringsOf_eq (nodes : List Node) : stringsOf nodes = nodes.flatMap strings := by
  induction nodes with
  | nil => rfl
  | cons node rest ih => rw [stringsOf, ih, List.flatMap_cons]

/-- Trees with names that are words, no negative zero, and strings of one line. -/
inductive Clear : Node → Prop where
  | program : (∀ s ∈ body, Clear s) → Clear (.program body)
  | declaration : IsName name → (∀ v ∈ value, Clear v) → Clear (.declaration name constant value)
  | function : IsName name → (∀ p ∈ params, IsName p) → (∀ s ∈ body, Clear s) →
      Clear (.function name params body)
  | assignment : Clear target → Clear value → Clear (.assignment target value)
  | binary : operator ∈ Level.sum.operators ∨ operator ∈ Level.product.operators → Clear left →
      Clear right → Clear (.binary left right operator)
  | member : Clear owner → Clear key → Clear (.member owner key computed)
  | call : Clear callee → (∀ a ∈ arguments, Clear a) → Clear (.call callee arguments)
  | identifier : IsName name → Clear (.identifier name)
  | number : value.unsignedZero = value → Clear (.number value)
  | string : '\n' ∉ text.toList → Clear (.string text)
  | property : IsName key → (∀ v ∈ value, Clear v) → Clear (.property key value)
  | object : (∀ p ∈ properties, Clear p) → Clear (.object properties)

theorem WellFormed.clear {n : Node} (h : n.WellFormed role)
    (hs : ∀ text ∈ n.strings, '\n' ∉ text.toList) : n.Clear := by
  have hall {nodes : List Node}
      (ih : ∀ n ∈ nodes, (∀ text ∈ n.strings, '\n' ∉ text.toList) → n.Clear)
      (hs : ∀ text ∈ stringsOf nodes, '\n' ∉ text.toList) : ∀ n ∈ nodes, n.Clear := by
    intro n hn
    rw [stringsOf_eq] at hs
    exact ih n hn fun text ht => hs text (List.mem_flatMap.2 ⟨n, hn, ht⟩)
  induction h with
  | program _ ih => exact .program (hall ih hs)
  | uninitialized hn => exact .declaration hn nofun
  | initialized hn _ ih => exact .declaration hn fun _ hv => Option.some.inj hv ▸ ih hs
  | function hn hp _ ih => exact .function hn hp (hall ih hs)
  | evaluated _ ih => exact ih hs
  | assignment _ _ iht ihv =>
    obtain ⟨ht, hv⟩ := List.forall_mem_append.1 hs
    exact .assignment (iht ht) (ihv hv)
  | object _ ih => exact .object (hall ih hs)
  | binary ho _ _ ihl ihr =>
    obtain ⟨hl, hr⟩ := List.forall_mem_append.1 hs
    exact .binary ho (ihl hl) (ihr hr)
  | call _ _ ihc iha =>
    obtain ⟨hc, ha⟩ := List.forall_mem_append.1 hs
    exact .call (ihc hc) (hall iha ha)
  | named _ hn iho =>
    obtain ⟨ho, -⟩ := List.forall_mem_append.1 hs
    exact .member (iho ho) (.identifier hn)
  | computed _ _ iho ihk =>
    obtain ⟨ho, hk⟩ := List.forall_mem_append.1 hs
    exact .member (iho ho) (ihk hk)
  | identifier hn => exact .identifier hn
  | number hd => exact .number (Numeral.unsignedZero_value hd)
  | string _ => exact .string (hs _ (List.mem_singleton_self _))
  | shorthand hn => exact .property hn nofun
  | keyed hn _ ih => exact .property hn fun _ hv => Option.some.inj hv ▸ ih hs

mutual

def entry : Node → Entry
  | .program body => ⟨"Program", [⟨"body", entries body⟩]⟩
  | .declaration name constant none => ⟨"VariableDeclaration", [⟨name, []⟩, .flag constant]⟩
  | .declaration name constant (some value) =>
    ⟨"VariableDeclaration", [⟨name, []⟩, .flag constant, ⟨"value", [value.entry]⟩]⟩
  | .function name params body =>
    ⟨"FunctionDeclaration", [⟨name, []⟩, .names "params" params, ⟨"body", entries body⟩]⟩
  | .assignment target value =>
    ⟨"AssignmentExpr", [⟨"assignee", [target.entry]⟩, ⟨"value", [value.entry]⟩]⟩
  | .binary left right operator =>
    ⟨"BinaryExpr", [⟨"left", [left.entry]⟩, ⟨"right", [right.entry]⟩, ⟨operator, []⟩]⟩
  | .member owner key computed =>
    ⟨"MemberExpr", [⟨"object", [owner.entry]⟩, ⟨"property", [key.entry]⟩, .flag computed]⟩
  | .call callee arguments =>
    ⟨"CallExpr", [⟨"caller", [callee.entry]⟩, ⟨"args", entries arguments⟩]⟩
  | .identifier name => .tabbed "Identifier" name
  | .number value => .tabbed "NumericLiteral" value.text
  | .string text => .tabbed "StringLiteral" text
  | .null => ⟨"NullLiteral", []⟩
  | .property key none => .tabbed "PropertyLiteral" key
  | .property key (some value) => ⟨"PropertyLiteral", [⟨key, []⟩, ⟨"value", [value.entry]⟩]⟩
  | .object properties => ⟨"ObjectLiteral", [⟨"properties", entries properties⟩]⟩
  | .placeholder held => ⟨(NodeKind.placeholder held).name, []⟩

def entries : List Node → List Entry
  | [] => []
  | node :: rest => node.entry :: entries rest

end

theorem entries_eq (nodes : List Node) : entries nodes = nodes.map entry := by
  induction nodes with
  | nil => rfl
  | cons node rest ih => rw [entries, ih, List.map_cons]

variable {n p q : Node}

theorem exists_outline_eq (n : Node) : ∃ label children, n.outline = .branch label children := by
  cases n with
  | declaration _ _ value => cases value <;> exact ⟨_, _, rfl⟩
  | property _ value => cases value <;> exact ⟨_, _, rfl⟩
  | _ => exact ⟨_, _, rfl⟩

theorem Clear.part (h : n.Clear) (label : String) :
    Outline.part label n n.outline = [.branch label [n.outline]] := by
  cases h <;> rfl

theorem Clear.item (h : n.Clear) : Outline.item n n.outline = n.outline := by
  cases h <;> rfl

theorem outlines_eq {nodes : List Node} (h : ∀ n ∈ nodes, n.Clear) :
    outlines nodes = nodes.map outline := by
  induction nodes with
  | nil => rfl
  | cons n nodes ih =>
    obtain ⟨hn, hnodes⟩ := List.forall_mem_cons.1 h
    rw [outlines, hn.item, ih hnodes, List.map_cons]

theorem entry_branch_outline (label : String) (h : n.outline.entry = n.entry) :
    (Outline.branch label [n.outline]).entry = ⟨label, [n.entry]⟩ := by
  obtain ⟨l, cs, hn⟩ := n.exists_outline_eq
  rw [Outline.entry_branch (by simp [hn]), List.map_singleton, h]

theorem entry_branch_outlines {nodes : List Node} (hc : ∀ n ∈ nodes, n.Clear) (label : String)
    (h : ∀ n ∈ nodes, n.outline.entry = n.entry) :
    (Outline.branch label (outlines nodes)).entry = ⟨label, entries nodes⟩ := by
  have hleaf (kind text : String) : nodes.map outline ≠ [.leaf kind text] := by
    intro hleaf
    obtain ⟨n, rfl, hn⟩ := List.map_eq_singleton_iff.1 hleaf
    obtain ⟨l, cs, hbranch⟩ := n.exists_outline_eq
    rw [hbranch] at hn
    cases hn
  rw [outlines_eq hc, Outline.entry_branch hleaf, List.map_map, entries_eq]
  exact congrArg (Entry.mk label) (List.map_congr_left h)

theorem entry_branch_names (label : String) (names : List String) :
    (Outline.branch label (names.map (.leaf "NAME"))).entry = .names label names := by
  rcases names with _ | ⟨a, _ | ⟨b, names⟩⟩ <;> simp [Entry.names, Entry.tabbed]

/-- The outline of a clear tree is laid out as the entry of the tree. -/
theorem Clear.entry_outline (h : n.Clear) : n.outline.entry = n.entry := by
  induction h with
  | program hb ih => simp [outline, entry, entry_branch_outlines hb _ ih]
  | @declaration _ value _ _ hv ih =>
    cases value with
    | none => simp [outline, entry, Outline.plain, Outline.flag, Entry.flag]
    | some value =>
      simp [outline, entry, Outline.plain, Outline.flag, Entry.flag, (hv value rfl).part,
        entry_branch_outline _ (ih value rfl)]
  | function _ _ hb ih =>
    simp [outline, entry, Outline.plain, entry_branch_names, entry_branch_outlines hb _ ih]
  | assignment ht hv iht ihv =>
    simp [outline, entry, ht.part, hv.part, entry_branch_outline _ iht, entry_branch_outline _ ihv]
  | binary _ hl hr ihl ihr =>
    simp [outline, entry, Outline.plain, hl.part, hr.part, entry_branch_outline _ ihl,
      entry_branch_outline _ ihr]
  | member ho hk iho ihk =>
    simp [outline, entry, Outline.plain, Outline.flag, Entry.flag, ho.part, hk.part,
      entry_branch_outline _ iho, entry_branch_outline _ ihk]
  | call hc ha ihc iha =>
    simp [outline, entry, hc.part, entry_branch_outline _ ihc, entry_branch_outlines ha _ iha]
  | identifier | number | string => simp [outline, entry, Outline.plain, Entry.tabbed]
  | @property _ value _ hv ih =>
    cases value with
    | none => simp [outline, entry, Outline.plain, Entry.tabbed]
    | some value =>
      simp [outline, entry, Outline.plain, (hv value rfl).part,
        entry_branch_outline _ (ih value rfl)]
  | object hp ih => simp [outline, entry, entry_branch_outlines hp _ ih]

theorem Clear.label_entry (h : n.Clear) : n.entry.label = n.kind.name.toList := by
  cases h with
  | identifier | number | string => exact Entry.label_tabbed (by decide) _
  | @declaration _ value => cases value <;> exact Entry.label_line (by decide) _
  | @property _ value =>
    cases value with
    | none => exact Entry.label_tabbed (by decide) _
    | some => exact Entry.label_line (by decide) _
  | _ => exact Entry.label_line (by decide) _

theorem Clear.kind_eq (hp : p.Clear) (hq : q.Clear) (h : p.entry = q.entry) : p.kind = q.kind := by
  have hname : p.kind.name = q.kind.name := by
    rw [← String.toList_inj, ← hp.label_entry, ← hq.label_entry, h]
  cases hp <;> cases hq <;> first | rfl | simp [kind, NodeKind.name] at hname

theorem eq_of_entries {nodes nodes' : List Node}
    (ih : ∀ n ∈ nodes, ∀ {q : Node}, q.Clear → n.entry = q.entry → n = q)
    (h' : ∀ n ∈ nodes', n.Clear) (h : entries nodes = entries nodes') : nodes = nodes' := by
  induction nodes generalizing nodes' with
  | nil =>
    cases nodes' with
    | nil => rfl
    | cons => cases h
  | cons n nodes ihs =>
    cases nodes' with
    | nil => cases h
    | cons n' nodes' =>
      obtain ⟨hn, hnodes⟩ := List.cons.inj h
      obtain ⟨ihn, ihnodes⟩ := List.forall_mem_cons.1 ih
      obtain ⟨hn', hnodes'⟩ := List.forall_mem_cons.1 h'
      rw [ihn hn' hn, ihs ihnodes hnodes' hnodes]

/-- Clear trees with the same entry are the same: its line tells their kind, and then each of the
entries under it tells a part. -/
theorem Clear.eq_of_entry (hp : p.Clear) (hq : q.Clear) (h : p.entry = q.entry) : p = q := by
  induction hp generalizing q with
  | program hb ih =>
    have hk := kind_eq (.program hb) hq h
    cases hq with
    | program hb' =>
      have hbody := by simpa [entry] using h
      rw [eq_of_entries ih hb' hbody]
    | _ => cases hk
  | @declaration _ value _ hn hv ih =>
    have hk := kind_eq (.declaration hn hv) hq h
    cases hq with
    | @declaration _ value' _ _ hv' =>
      rcases value with _ | value <;> rcases value' with _ | value'
      · obtain ⟨rfl, hflag⟩ := by simpa [entry] using h
        rw [Entry.flag_injective hflag]
      · simp [entry] at h
      · simp [entry] at h
      · obtain ⟨rfl, hflag, hvalue⟩ := by simpa [entry] using h
        rw [Entry.flag_injective hflag, ih value rfl (hv' value' rfl) hvalue]
    | _ => cases hk
  | function hn hp hb ih =>
    have hk := kind_eq (.function hn hp hb) hq h
    cases hq with
    | function _ _ hb' =>
      obtain ⟨rfl, hparams, hbody⟩ := by simpa [entry] using h
      rw [Entry.names_injective _ hparams, eq_of_entries ih hb' hbody]
    | _ => cases hk
  | assignment ht hv iht ihv =>
    have hk := kind_eq (.assignment ht hv) hq h
    cases hq with
    | assignment ht' hv' =>
      obtain ⟨htarget, hvalue⟩ := by simpa [entry] using h
      rw [iht ht' htarget, ihv hv' hvalue]
    | _ => cases hk
  | binary ho hl hr ihl ihr =>
    have hk := kind_eq (.binary ho hl hr) hq h
    cases hq with
    | binary _ hl' hr' =>
      obtain ⟨hleft, hright, rfl⟩ := by simpa [entry] using h
      rw [ihl hl' hleft, ihr hr' hright]
    | _ => cases hk
  | member ho hkey iho ihkey =>
    have hk := kind_eq (.member ho hkey) hq h
    cases hq with
    | member ho' hkey' =>
      obtain ⟨howner, hkeys, hflag⟩ := by simpa [entry] using h
      rw [iho ho' howner, ihkey hkey' hkeys, Entry.flag_injective hflag]
    | _ => cases hk
  | call hc ha ihc iha =>
    have hk := kind_eq (.call hc ha) hq h
    cases hq with
    | call hc' ha' =>
      obtain ⟨hcallee, harguments⟩ := by simpa [entry] using h
      rw [ihc hc' hcallee, eq_of_entries iha ha' harguments]
    | _ => cases hk
  | identifier hn =>
    have hk := kind_eq (.identifier hn) hq h
    cases hq with
    | identifier => rw [Entry.tabbed_inj.1 h]
    | _ => cases hk
  | number hz =>
    have hk := kind_eq (.number hz) hq h
    cases hq with
    | number hz' =>
      have hsame := Double.text_eq_iff.1 (Entry.tabbed_inj.1 h)
      rw [← hz, ← hz', Double.same_iff.1 hsame]
    | _ => cases hk
  | string ht =>
    have hk := kind_eq (.string ht) hq h
    cases hq with
    | string => rw [Entry.tabbed_inj.1 h]
    | _ => cases hk
  | @property _ value hn hv ih =>
    have hk := kind_eq (.property hn hv) hq h
    cases hq with
    | @property _ value' _ hv' =>
      rcases value with _ | value <;> rcases value' with _ | value'
      · rw [Entry.tabbed_inj.1 h]
      · simp [entry, Entry.tabbed] at h
      · simp [entry, Entry.tabbed] at h
      · obtain ⟨rfl, hvalue⟩ := by simpa [entry] using h
        rw [ih value rfl (hv' value' rfl) hvalue]
    | _ => cases hk
  | object hp ih =>
    have hk := kind_eq (.object hp) hq h
    cases hq with
    | object hp' =>
      have hproperties := by simpa [entry] using h
      rw [eq_of_entries ih hp' hproperties]
    | _ => cases hk

theorem line_operator (h : operator ∈ Level.sum.operators ∨ operator ∈ Level.product.operators) :
    Entry.Line operator := by
  simp only [Level.operators, List.mem_cons, List.not_mem_nil, or_false] at h
  rcases h with (rfl | rfl) | rfl | rfl | rfl <;> decide

theorem Clear.legible (h : p.Clear) : p.entry.Legible := by
  have hone {label : String} {n : Node} (hl : Entry.Line label) (ih : n.entry.Legible) :
      Entry.Legible ⟨label, [n.entry]⟩ := .mk hl (List.forall_mem_singleton.2 ih)
  have hall {label : String} {nodes : List Node} (hl : Entry.Line label)
      (ih : ∀ n ∈ nodes, n.entry.Legible) : Entry.Legible ⟨label, entries nodes⟩ := by
    rw [entries_eq]
    exact .mk hl (List.forall_mem_map.2 ih)
  induction h with
  | program _ ih => exact .mk (by decide) (List.forall_mem_singleton.2 (hall (by decide) ih))
  | @declaration _ value _ hn hv ih =>
    have hname := Entry.legible_line hn.line
    cases value with
    | none => exact .mk (by decide) (by simpa using ⟨hname, Entry.legible_flag _⟩)
    | some value =>
      have hvalue : Entry.Legible ⟨"value", [value.entry]⟩ := hone (by decide) (ih value rfl)
      exact .mk (by decide) (by simpa using ⟨hname, Entry.legible_flag _, hvalue⟩)
  | @function name params body hn hp hb ih =>
    have hname := Entry.legible_line hn.line
    have hparams : (Entry.names "params" params).Legible :=
      Entry.legible_names (by decide) fun p hm => (hp p hm).line
    have hbody : Entry.Legible ⟨"body", entries body⟩ := hall (by decide) ih
    exact .mk (by decide) (by simpa using ⟨hname, hparams, hbody⟩)
  | @assignment target value _ _ iht ihv =>
    have htarget : Entry.Legible ⟨"assignee", [target.entry]⟩ := hone (by decide) iht
    have hvalue : Entry.Legible ⟨"value", [value.entry]⟩ := hone (by decide) ihv
    exact .mk (by decide) (by simpa using ⟨htarget, hvalue⟩)
  | @binary operator left right ho _ _ ihl ihr =>
    have hleft : Entry.Legible ⟨"left", [left.entry]⟩ := hone (by decide) ihl
    have hright : Entry.Legible ⟨"right", [right.entry]⟩ := hone (by decide) ihr
    have hoperator := Entry.legible_line (line_operator ho)
    exact .mk (by decide) (by simpa using ⟨hleft, hright, hoperator⟩)
  | @member owner key _ _ _ iho ihk =>
    have howner : Entry.Legible ⟨"object", [owner.entry]⟩ := hone (by decide) iho
    have hkey : Entry.Legible ⟨"property", [key.entry]⟩ := hone (by decide) ihk
    exact .mk (by decide) (by simpa using ⟨howner, hkey, Entry.legible_flag _⟩)
  | @call callee arguments _ _ ihc iha =>
    have hcallee : Entry.Legible ⟨"caller", [callee.entry]⟩ := hone (by decide) ihc
    have harguments : Entry.Legible ⟨"args", entries arguments⟩ := hall (by decide) iha
    exact .mk (by decide) (by simpa using ⟨hcallee, harguments⟩)
  | identifier hn => exact Entry.legible_tabbed (by decide) hn.line.1
  | @number value _ =>
    refine Entry.legible_tabbed (by decide) fun hm => ?_
    exact absurd (value.isPlain_text _ hm) (by decide)
  | string ht => exact Entry.legible_tabbed (by decide) ht
  | @property _ value hn hv ih =>
    cases value with
    | none => exact Entry.legible_tabbed (by decide) hn.line.1
    | some value =>
      have hkey := Entry.legible_line hn.line
      have hvalue : Entry.Legible ⟨"value", [value.entry]⟩ := hone (by decide) (ih value rfl)
      exact .mk (by decide) (by simpa using ⟨hkey, hvalue⟩)
  | object _ ih => exact .mk (by decide) (List.forall_mem_singleton.2 (hall (by decide) ih))

end Node

/-- The text of a program is parsed to it if rules may nest ten times as deep as it has words. -/
theorem Grammar.parseSource_print {program : Node} (hw : program.WellFormed .program)
    (hs : program.Separated spelling) (hd : 10 * (program.words spelling).length + 20 ≤ depth) :
    (ofDepth depth).parseSource .standard (program.print spelling) = .ok program := by
  obtain ⟨tokens, hscan, hwords, d, hspells, rfl⟩ := hw.exists_derivation hs
  have hlength := congrArg List.length hwords
  rw [List.length_map, List.length_append, List.length_singleton] at hlength
  rcases parseSource_of_derivation hscan hspells with h | ⟨-, hdepth⟩
  · exact h
  · omega

/-- The outlines of two parsed programs are laid out in different texts if the programs differ, as
long as no string of theirs has a line break. So are the texts of those that can be dumped. -/
theorem Grammar.outline_faithful {p q : Node}
    (hp : (ofDepth depth).parseSource .standard source = .ok p)
    (hq : (ofDepth depth').parseSource .standard source' = .ok q)
    (hps : ∀ text ∈ p.strings, '\n' ∉ text.toList)
    (hqs : ∀ text ∈ q.strings, '\n' ∉ text.toList) :
    p.checkedOutline = .ok p.outline ∧ q.checkedOutline = .ok q.outline ∧
      (p.outlineText = q.outlineText → p = q) ∧
      ∀ bound bound' text, p.dump bound = .ok text → q.dump bound' = .ok text → p = q := by
  obtain ⟨hpw, -⟩ := parseSource_eq_ok .chosen hp
  obtain ⟨hqw, -⟩ := parseSource_eq_ok .chosen hq
  have hpc := hpw.clear hps
  have hqc := hqw.clear hqs
  have hfaithful : p.outlineText = q.outlineText → p = q := by
    intro h
    apply hpc.eq_of_entry hqc
    rw [← hpc.entry_outline, ← hqc.entry_outline]
    exact Outline.entry_eq_of_layout (hpc.entry_outline ▸ hpc.legible)
      (hqc.entry_outline ▸ hqc.legible) h
  refine ⟨if_pos hpw.hasOutline, if_pos hqw.hasOutline, hfaithful, fun bound bound' text h h' => ?_⟩
  rw [Node.dump_eq_ok_iff hpw.hasOutline] at h
  rw [Node.dump_eq_ok_iff hqw.hasOutline] at h'
  exact hfaithful (h.2.trans h'.2.symm)

/-- A property whose key is also a label of outlines is told from the one that is written out. -/
theorem Grammar.outline_faithful_shorthand :
    let p := Node.program [.object [.property "value" none]]
    let q := Node.program [.object [.property "value" (some (.identifier "value"))]]
    p.print .chosen = "\x7b value \x7d" ∧ q.print .chosen = "\x7b value : value \x7d" ∧
      (ofDepth 100).parseSource .standard (p.print .chosen) = .ok p ∧
      (ofDepth 100).parseSource .standard (q.print .chosen) = .ok q ∧
      p.checkedOutline = .ok p.outline ∧ p.outlineText ≠ q.outlineText := by
  intro p q
  have hname : IsName "value" := ⟨by decide, List.all_eq_true.1 rfl, by decide⟩
  have hpw : p.WellFormed .program := .program (List.forall_mem_singleton.2
    (.evaluated (.object (List.forall_mem_singleton.2 (.shorthand hname)))))
  have hqw : q.WellFormed .program := .program (List.forall_mem_singleton.2
    (.evaluated (.object (List.forall_mem_singleton.2 (.keyed hname (.identifier hname))))))
  have hp : (ofDepth 100).parseSource .standard (p.print .chosen) = .ok p :=
    parseSource_print hpw (by simp [p, Node.Separated, Node.SeparatedAll]) (by decide)
  have hq : (ofDepth 100).parseSource .standard (q.print .chosen) = .ok q :=
    parseSource_print hqw (by simp [q, Node.Separated, Node.SeparatedAll]) (by decide)
  have hne : p ≠ q := by simp [p, q]
  obtain ⟨hdump, -, hfaithful, -⟩ := outline_faithful hp hq
    (by simp [p, Node.strings, Node.stringsOf]) (by simp [q, Node.strings, Node.stringsOf])
  exact ⟨rfl, rfl, hp, hq, hdump, fun h => hne (hfaithful h)⟩

-- With line breaks in strings, a text can imitate the entry after it.
example : (Node.program [.string "a\n    StringLiteral\tb"]).outlineText =
    (Node.program [.string "a", .string "b"]).outlineText := by
  decide +kernel

end Ember
