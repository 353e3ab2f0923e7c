import Ember.Node.Outline
import Mathlib.Data.List.TakeWhile

/-!
The text of an outline, taken as lines that stand under other lines. It tells its lines, and their
indentation tells which of them stand under which.
-/

namespace Ember

set_option autoImplicit true

/-- A line of an outline, with the entries that stand one level deeper under it. -/
inductive Entry where
  | mk (line : String) (below : List Entry)

namespace Entry

def indentation (level : Nat) : List Char := List.replicate (2 * level) ' '

mutual

def text (level : Nat) : Entry → List Char
  | ⟨line, below⟩ => indentation level ++ (line.toList ++ '\n' :: texts (level + 1) below)

def texts (level : Nat) : List Entry → List Char
  | [] => []
  | e :: rest => e.text level ++ texts level rest

end

theorem indentation_succ (level : Nat) :
    indentation (level + 1) = indentation level ++ [' ', ' '] := by
  rw [indentation, Nat.mul_succ, ← List.replicate_append_replicate]
  rfl

/-- A text that does not go on at the given level. -/
def Ends (level : Nat) (rest : List Char) : Prop := ¬indentation level <+: rest

/-- A text of one line, which starts where its indentation ends. -/
def Line (text : String) : Prop := '\n' ∉ text.toList ∧ text.toList.head? ≠ some ' '

instance : DecidablePred Line := fun _ => inferInstanceAs (Decidable (_ ∧ _))

inductive Legible : Entry → Prop where
  | mk {line : String} {below : List Entry} : Line line → (∀ e ∈ below, Legible e) →
      Legible ⟨line, below⟩

/-- An entry that its text tells from all others, whatever comes after it. -/
def Told (e : Entry) : Prop :=
  ∀ {level e' rest rest'}, e'.Legible → Ends (level + 1) rest → Ends (level + 1) rest' →
    e.text level ++ rest = e'.text level ++ rest' → e = e' ∧ rest = rest'

theorem ends_succ_texts {es : List Entry} (hes : ∀ e ∈ es, e.Legible) (h : Ends level rest) :
    Ends (level + 1) (texts level es ++ rest) := by
  cases es with
  | nil =>
    intro hp
    rw [indentation_succ] at hp
    exact h ((List.prefix_append _ _).trans hp)
  | cons e es =>
    obtain @⟨line, below, ⟨-, hhead⟩, -⟩ := hes e (by simp)
    intro hp
    simp only [indentation_succ, texts, text, List.append_assoc, List.prefix_append_right_inj] at hp
    cases hl : line.toList with
    | nil => simp [hl] at hp
    | cons c cs =>
      rw [hl, List.cons_append, List.cons_prefix_cons] at hp
      rw [hl, List.head?_cons, ← hp.1] at hhead
      exact hhead rfl

theorem line_eq {cs cs' rest rest' : List Char} (h : '\n' ∉ cs) (h' : '\n' ∉ cs')
    (heq : cs ++ '\n' :: rest = cs' ++ '\n' :: rest') : cs = cs' ∧ rest = rest' := by
  rcases List.append_eq_append_iff.1 heq with ⟨as, rfl, has⟩ | ⟨as, rfl, has⟩
  · cases as with
    | nil => simpa using has
    | cons a as =>
      obtain ⟨rfl, -⟩ := List.cons.inj has
      simp at h'
  · cases as with
    | nil => simpa using has.symm
    | cons a as =>
      obtain ⟨rfl, -⟩ := List.cons.inj has
      simp at h

theorem not_ends_texts (e : Entry) (es : List Entry) (rest : List Char) :
    ¬Ends level (texts level (e :: es) ++ rest) := by
  obtain ⟨line, below⟩ := e
  rw [Ends, texts, text, List.append_assoc, List.append_assoc, not_not]
  exact List.prefix_append _ _

/-- The entries of a list are told one after the other: the text after an entry is not as deep as
what stands under it. -/
theorem eq_of_texts {es es' : List Entry} (hes : ∀ e ∈ es, e.Legible)
    (hes' : ∀ e ∈ es', e.Legible) (ht : ∀ e ∈ es, e.Told) (hr : Ends level rest)
    (hr' : Ends level rest') (h : texts level es ++ rest = texts level es' ++ rest') :
    es = es' ∧ rest = rest' := by
  induction es generalizing es' with
  | nil =>
    cases es' with
    | nil => exact ⟨rfl, h⟩
    | cons e' es' =>
      rw [texts, List.nil_append] at h
      rw [h] at hr
      exact absurd hr (not_ends_texts e' es' rest')
  | cons e es ih =>
    obtain ⟨he, hes⟩ := List.forall_mem_cons.1 hes
    obtain ⟨hte, htes⟩ := List.forall_mem_cons.1 ht
    cases es' with
    | nil =>
      rw [texts, List.nil_append] at h
      rw [← h] at hr'
      exact absurd hr' (not_ends_texts e es rest)
    | cons e' es' =>
      obtain ⟨he', hrest'⟩ := List.forall_mem_cons.1 hes'
      simp only [texts, List.append_assoc] at h
      obtain ⟨rfl, hrest⟩ := hte he' (ends_succ_texts hes hr) (ends_succ_texts hrest' hr') h
      obtain ⟨rfl, rfl⟩ := ih hes hrest' htes hrest
      exact ⟨rfl, rfl⟩

/-- The text of an entry tells it: the first line break ends its line, and the entries under it go
on as long as the indentation does. -/
theorem Legible.told {e : Entry} (h : e.Legible) : e.Told := by
  induction h with
  | @mk line below hline hbelow ih =>
    intro level e' rest rest' he' hr hr' heq
    obtain @⟨line', below', hline', hbelow'⟩ := he'
    simp only [text, List.append_assoc, List.cons_append, List.append_cancel_left_eq] at heq
    obtain ⟨hl, hb⟩ := line_eq hline.1 hline'.1 heq
    obtain ⟨rfl, rfl⟩ := eq_of_texts hbelow hbelow' ih hr hr' hb
    rw [String.toList_inj.1 hl]
    exact ⟨rfl, rfl⟩

def tabbed (label text : String) : Entry := ⟨label ++ "\t" ++ text, []⟩

/-- A label with names: one name is on the same line, more of them stand under it. -/
def names (label : String) : List String → Entry
  | [name] => tabbed label name
  | names => ⟨label, names.map fun name => ⟨name, []⟩⟩

def flag (value : Bool) : Entry := ⟨if value then "true" else "false", []⟩

def label : Entry → List Char
  | ⟨line, _⟩ => line.toList.takeWhile (· ≠ '\t')

theorem label_line {line : String} (h : '\t' ∉ line.toList) (below : List Entry) :
    label ⟨line, below⟩ = line.toList := by
  rw [label, List.takeWhile_eq_self_iff]
  intro c hc
  simpa using ne_of_mem_of_not_mem hc h

theorem toList_tab (line text : String) :
    (line ++ "\t" ++ text).toList = line.toList ++ '\t' :: text.toList := by
  simp

theorem label_tabbed {line : String} (h : '\t' ∉ line.toList) (text : String) :
    (tabbed line text).label = line.toList := by
  rw [tabbed, label, toList_tab, List.takeWhile_append_of_pos,
    List.takeWhile_cons_of_neg (by simp), List.append_nil]
  intro c hc
  simpa using ne_of_mem_of_not_mem hc h

theorem tabbed_ne (label text : String) (below : List Entry) :
    tabbed label text ≠ ⟨label, below⟩ := by
  intro h
  have hlength := congrArg List.length (congrArg String.toList (Entry.mk.inj h).1)
  rw [toList_tab, List.length_append, List.length_cons] at hlength
  omega

theorem tabbed_inj {label text text' : String} :
    tabbed label text = tabbed label text' ↔ text = text' := by
  simp [tabbed]

theorem names_injective (label : String) : (names label).Injective := by
  have hmap (ns ns' : List String) :
      ns.map (fun name => mk name []) = ns'.map (fun name => mk name []) ↔ ns = ns' :=
    List.map_inj_right fun _ _ he => (Entry.mk.inj he).1
  intro ns ns' h
  rcases ns with _ | ⟨a, _ | ⟨b, ns⟩⟩ <;> rcases ns' with _ | ⟨a', _ | ⟨b', ns'⟩⟩ <;>
    simp [names, tabbed_inj, tabbed_ne, (tabbed_ne _ _ _).symm, hmap] at h ⊢ <;>
    exact h

theorem flag_injective : flag.Injective := by
  intro b b' h
  cases b <;> cases b' <;> first | rfl | exact absurd (Entry.mk.inj h).1 (by decide)

theorem legible_line {line : String} (h : Line line) : Legible ⟨line, []⟩ :=
  .mk h nofun

theorem legible_flag (b : Bool) : (flag b).Legible := by
  cases b <;> exact legible_line (by decide)

theorem legible_tabbed {label text : String} (h : Line label) (ht : '\n' ∉ text.toList) :
    (tabbed label text).Legible := by
  obtain ⟨hlabel, hhead⟩ := h
  refine legible_line ?_
  rw [Line, toList_tab]
  refine ⟨by simp [hlabel, ht], ?_⟩
  cases hc : label.toList with
  | nil => simp
  | cons c cs => simpa [hc] using hhead

theorem legible_names {label : String} {ns : List String} (h : Line label)
    (hns : ∀ name ∈ ns, Line name) : (names label ns).Legible := by
  rcases ns with _ | ⟨a, _ | ⟨b, ns⟩⟩
  · exact legible_line h
  · exact legible_tabbed h (hns a (by simp)).1
  · refine .mk h (List.forall_mem_map.2 fun name hname => ?_)
    exact legible_line (hns name hname)

end Entry

namespace Outline

mutual

def entry : Outline → Entry
  | .leaf _ text => ⟨text, []⟩
  | .branch label [.leaf _ text] => ⟨label ++ "\t" ++ text, []⟩
  | .branch label children => ⟨label, entries children⟩

def entries : List Outline → List Entry
  | [] => []
  | child :: rest => child.entry :: entries rest

end

theorem entries_eq (os : List Outline) : entries os = os.map entry := by
  induction os with
  | nil => rfl
  | cons o os ih => rw [entries, ih, List.map_cons]

variable {label : String} {children : List Outline}

@[simp] theorem entry_leaf (kind text : String) : (leaf kind text).entry = ⟨text, []⟩ := by
  rw [entry]

@[simp] theorem entry_sole (label kind text : String) :
    (branch label [.leaf kind text]).entry = ⟨label ++ "\t" ++ text, []⟩ := by
  rw [entry]

@[simp] theorem entry_branch (h : ∀ kind text, children ≠ [.leaf kind text]) :
    (branch label children).entry = ⟨label, children.map entry⟩ := by
  rw [entry, entries_eq]
  exact h

theorem toList_indent (level : Nat) : (indent level).toList = Entry.indentation level :=
  String.toList_ofList

theorem toList_layoutAt (level : Nat) (o : Outline) :
    (layoutAt level o).toList = o.entry.text level := by
  induction level, o using layoutAt.induct (motive_2 := fun level os =>
    (layoutAll level os).toList = Entry.texts level (entries os)) with
  | case1 level kind text =>
    simp [layoutAt, entry, Entry.text, Entry.texts, toList_indent]
  | case2 level label kind text =>
    simp [layoutAt, entry, Entry.text, Entry.texts, toList_indent]
  | case3 level label children hc ih =>
    rw [layoutAt, entry, Entry.text]
    · simp [ih, toList_indent]
    · exact hc
    · exact hc
  | case4 level => simp [layoutAll, entries, Entry.texts]
  | case5 level child rest ih ihs => simp [layoutAll, entries, Entry.texts, ih, ihs]

theorem entry_eq_of_layout {o o' : Outline} (h : o.entry.Legible) (h' : o'.entry.Legible)
    (heq : o.layout = o'.layout) : o.entry = o'.entry := by
  have htext : o.entry.text 0 = o'.entry.text 0 := by
    rw [← toList_layoutAt, ← toList_layoutAt]
    exact congrArg String.toList heq
  have hends : Entry.Ends 1 [] := by
    unfold Entry.Ends
    decide
  exact (h.told h' hends hends (congrArg (· ++ []) htext)).1

end Outline

end Ember
