/-!
Maps that keep the order in which their keys first came in.
-/

namespace Ember

abbrev Ordered (α : Type) := List (String × α)

namespace Ordered

variable {α : Type}

/-- Binds a key. A new key goes last; a key that is there keeps its place. -/
def insert (entries : Ordered α) (key : String) (value : α) : Ordered α :=
  match entries with
  | [] => [(key, value)]
  | (k, v) :: rest =>
    if k = key then (key, value) :: rest else (k, v) :: insert rest key value

def get? (entries : Ordered α) (key : String) : Option α :=
  match entries with
  | [] => none
  | (k, v) :: rest => if k = key then some v else get? rest key

def keys (entries : Ordered α) : List String :=
  entries.map (·.1)

/-- Binds pairs one after the other. -/
def ofList (pairs : List (String × α)) : Ordered α :=
  pairs.foldl (fun entries (key, value) => entries.insert key value) []

@[simp] theorem keys_nil : keys ([] : Ordered α) = [] := rfl

@[simp] theorem keys_cons (key : String) (value : α) (rest : Ordered α) :
    keys ((key, value) :: rest) = key :: keys rest := rfl

@[simp] theorem get?_insert_self (entries : Ordered α) (key : String) (value : α) :
    (entries.insert key value).get? key = some value := by
  induction entries with
  | nil => simp [insert, get?]
  | cons entry rest ih =>
    by_cases h : entry.1 = key <;> simp [insert, get?, h, ih]

theorem get?_insert_of_ne (entries : Ordered α) {k key : String} (value : α) (h : k ≠ key) :
    (entries.insert key value).get? k = entries.get? k := by
  induction entries with
  | nil => simp [insert, get?, h.symm]
  | cons entry rest ih =>
    by_cases h' : entry.1 = key
    · simp [insert, get?, h', h.symm]
    · simp [insert, get?, h', ih]

theorem get?_eq_none_iff {entries : Ordered α} {key : String} :
    entries.get? key = none ↔ key ∉ entries.keys := by
  induction entries with
  | nil => simp [get?]
  | cons entry rest ih =>
    obtain ⟨k, v⟩ := entry
    by_cases h : k = key
    · simp [get?, h]
    · simp [get?, h, ih, Ne.symm h]

theorem insert_of_notMem {entries : Ordered α} {key : String} (value : α)
    (h : key ∉ entries.keys) : entries.insert key value = entries ++ [(key, value)] := by
  induction entries with
  | nil => rfl
  | cons entry rest ih =>
    obtain ⟨k, v⟩ := entry
    simp only [keys_cons, List.mem_cons, not_or] at h
    rw [insert, if_neg (Ne.symm h.1), ih h.2, List.cons_append]

/-- A key that is there keeps its place, and a new one goes last. -/
theorem keys_insert (entries : Ordered α) (key : String) (value : α) :
    (entries.insert key value).keys =
      if key ∈ entries.keys then entries.keys else entries.keys ++ [key] := by
  induction entries with
  | nil => simp [insert]
  | cons entry rest ih =>
    obtain ⟨k, v⟩ := entry
    by_cases h : k = key
    · simp [insert, h]
    · by_cases hk : key ∈ keys rest <;> simp_all [insert, Ne.symm h]

end Ordered

end Ember
