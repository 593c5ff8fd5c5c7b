/-!
Tables filed under names. The entries stand in the order of their names and a name has one entry,
so a table is read in the same order however it was filled.
-/

namespace RangeQuery

/-- Values filed under names, in the order of the names. -/
structure NameTable (α : Type) where
  entries : List (String × α)
deriving DecidableEq

namespace NameTable

variable {α : Type}

/-- The table without entries. -/
def empty : NameTable α := ⟨[]⟩

instance : Inhabited (NameTable α) := ⟨empty⟩

/-- Put an entry at its place in a list ordered by name, in the stead of an entry of that name. -/
def insertEntry (name : String) (value : α) : List (String × α) → List (String × α)
  | [] => [(name, value)]
  | entry :: rest =>
    if name = entry.1 then (name, value) :: rest
    else if name < entry.1 then (name, value) :: entry :: rest
    else entry :: insertEntry name value rest

/-- File a value under a name; what the name held before is forgotten. -/
def insert (table : NameTable α) (name : String) (value : α) : NameTable α :=
  ⟨insertEntry name value table.entries⟩

/-- The value of the first entry with this name. -/
def lookupEntry (name : String) : List (String × α) → Option α
  | [] => none
  | entry :: rest => if entry.1 = name then some entry.2 else lookupEntry name rest

/-- What is filed under a name. -/
def get? (table : NameTable α) (name : String) : Option α :=
  lookupEntry name table.entries

/-- File a list of entries, the last one of a name wins. -/
def ofList (entries : List (String × α)) : NameTable α :=
  entries.foldl (fun table entry => table.insert entry.1 entry.2) empty

/-- The filed values, in the order of their names. -/
def values (table : NameTable α) : List α := table.entries.map (·.2)

/-- The same names with new values, given in the order of the names. -/
def withValues (table : NameTable α) (values : List α) : NameTable α :=
  ⟨List.zipWith (fun entry value => (entry.1, value)) table.entries values⟩

theorem lookupEntry_insertEntry_self (name : String) (value : α) (entries : List (String × α)) :
    lookupEntry name (insertEntry name value entries) = some value := by
  induction entries with
  | nil => simp [insertEntry, lookupEntry]
  | cons entry rest ih =>
    by_cases same : name = entry.1
    · simp [insertEntry, lookupEntry, same]
    · by_cases before : name < entry.1
      · simp [insertEntry, lookupEntry, same, before]
      · have other : ¬ entry.1 = name := fun h => same h.symm
        simp [insertEntry, lookupEntry, same, before, other, ih]

theorem lookupEntry_insertEntry_of_ne {name other : String} (ne : name ≠ other) (value : α)
    (entries : List (String × α)) :
    lookupEntry other (insertEntry name value entries) = lookupEntry other entries := by
  induction entries with
  | nil => simp [insertEntry, lookupEntry, ne]
  | cons entry rest ih =>
    by_cases same : name = entry.1
    · have apart : ¬ entry.1 = other := fun h => ne (same.trans h)
      simp [insertEntry, lookupEntry, same, apart]
    · by_cases before : name < entry.1
      · simp [insertEntry, lookupEntry, same, before, ne]
      · rw [insertEntry, if_neg same, if_neg before, lookupEntry, lookupEntry, ih]

/-- A filed value is found under its name. -/
theorem get?_insert_self (table : NameTable α) (name : String) (value : α) :
    (table.insert name value).get? name = some value :=
  lookupEntry_insertEntry_self name value table.entries

/-- Filing under one name leaves what the other names hold. -/
theorem get?_insert_of_ne (table : NameTable α) {name other : String} (ne : name ≠ other)
    (value : α) : (table.insert name value).get? other = table.get? other :=
  lookupEntry_insertEntry_of_ne ne value table.entries

end NameTable

/-- Put a name at its place in a list of distinct names in order. -/
def insertName (name : String) : List String → List String
  | [] => [name]
  | head :: rest =>
    if name = head then head :: rest
    else if name < head then name :: head :: rest
    else head :: insertName name rest

/-- The distinct names of a list, in order. -/
def sortedNames (names : List String) : List String := names.foldr insertName []

theorem mem_insertName {name other : String} {names : List String} :
    other ∈ insertName name names ↔ other = name ∨ other ∈ names := by
  induction names with
  | nil => simp [insertName]
  | cons head rest ih =>
    by_cases same : name = head
    · simp [insertName, same]
    · by_cases before : name < head
      · simp [insertName, same, before]
      · simp [insertName, same, before, ih, or_left_comm]

/-- Ordering a list of names keeps its members. -/
theorem mem_sortedNames {name : String} {names : List String} :
    name ∈ sortedNames names ↔ name ∈ names := by
  induction names with
  | nil => simp [sortedNames]
  | cons head rest ih =>
    simp only [sortedNames, List.foldr_cons] at ih ⊢
    simp [mem_insertName, ih]

end RangeQuery
