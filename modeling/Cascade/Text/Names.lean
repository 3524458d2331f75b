/-!
# Sets of names and tables by name

Sets of names are kept as lists in increasing order without repetitions, and tables as lists of
pairs in increasing order of their names.  Names are ordered by their code points, which is also
the order of their UTF-8 bytes.
-/

set_option autoImplicit false

namespace Cascade

/-! ## Sets of names -/

/-- A set of names: a list in increasing order without repetitions. -/
abbrev NameSet := List String

namespace NameSet

/-- Puts a name into its place. -/
def insert (name : String) : NameSet → NameSet
  | [] => [name]
  | other :: rest =>
    if name = other then other :: rest
    else if name < other then name :: other :: rest
    else other :: insert name rest

/-- The set of the names in a list. -/
def ofList (names : List String) : NameSet :=
  names.foldl (fun set name => insert name set) []

/-- The names of either set. -/
def union (a b : NameSet) : NameSet :=
  b.foldl (fun set name => insert name set) a

@[simp] theorem mem_insert {name x : String} {set : NameSet} :
    x ∈ insert name set ↔ x = name ∨ x ∈ set := by
  induction set with
  | nil => simp [insert]
  | cons other rest ih =>
    simp only [insert]
    split
    · rename_i h; subst h; simp
    · split
      · simp
      · simp only [List.mem_cons, ih]
        constructor
        · rintro (h | h | h) <;> simp [h]
        · rintro (h | h | h) <;> simp [h]

end NameSet

/-! ## Tables by name -/

/-- A table by name: a list of pairs in increasing order of their names. -/
abbrev NameTable (α : Type) := List (String × α)

namespace NameTable

variable {α : Type}

/-- Enters a value, which replaces an earlier one of the same name. -/
def insert (name : String) (value : α) : NameTable α → NameTable α
  | [] => [(name, value)]
  | (other, old) :: rest =>
    if name = other then (name, value) :: rest
    else if name < other then (name, value) :: (other, old) :: rest
    else (other, old) :: insert name value rest

/-- The value entered under a name. -/
def find? (name : String) (table : NameTable α) : Option α :=
  table.lookup name

/-- The table without a name. -/
def erase (name : String) (table : NameTable α) : NameTable α :=
  table.filter fun entry => entry.1 != name

/-- The names of the table, in order. -/
def names (table : NameTable α) : List String :=
  table.map Prod.fst

/-- Whether a name has an entry. -/
def contains (name : String) (table : NameTable α) : Bool :=
  (find? name table).isSome

end NameTable

/-! ## Counts -/

/-- How often each name occurs. -/
abbrev Tally := NameTable Nat

/-- Counts a name `count` more times. -/
def Tally.add (name : String) (count : Nat) (tally : Tally) : Tally :=
  NameTable.insert name ((NameTable.find? name tally).getD 0 + count) tally

end Cascade
