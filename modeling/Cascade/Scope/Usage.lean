import Cascade.Text.Names
import Cascade.Text.Pattern

/-!
# What a block does with names

Every block of a stylesheet is a scope of names.  A `Scope` records which names the block declares,
changes and reads, and what follows from that: which names it shares with the blocks around it and
which of its own names nobody reads.
-/

set_option autoImplicit false

namespace Cascade

/-- What one block does with names.  Reads are counted; a read of `package.name` is a read of
`package` as well. -/
structure Scope where
  /-- Variables and mixins declared in the block. -/
  declared : NameSet := []
  /-- Variables declared or assigned in the block. -/
  modified : NameSet := []
  /-- Parameters of the mixin the block belongs to. -/
  params : NameSet := []
  /-- Declared names and parameters that nobody reads. -/
  unused : NameSet := []
  /-- Names that are read in the block but belong to the blocks around it. -/
  shared : Tally := []
  /-- Reads of names with a package. -/
  packages : Tally := []
  /-- All reads in the block and in the blocks inside it. -/
  accessed : Tally := []
  /-- The mixin the block belongs to. -/
  owner : Option String := none
  deriving DecidableEq, Repr, Inhabited

namespace Scope

/-- Counts a read of a name. -/
def access (name : String) (scope : Scope) : Scope :=
  let scope := { scope with accessed := scope.accessed.add name 1 }
  match Text.package? name with
  | none => scope
  | some package =>
    { scope with
      accessed := scope.accessed.add package 1
      packages := scope.packages.add name 1 }

/-- Whether a name is read in the block. -/
def isAccessed (name : String) (scope : Scope) : Bool :=
  scope.accessed.contains name

/-- Counts a declaration of a mixin. -/
def declare (name : String) (scope : Scope) : Scope :=
  { scope with declared := scope.declared.insert name }

/-- Counts an assignment to a variable. -/
def modify (name : String) (scope : Scope) : Scope :=
  { scope with modified := scope.modified.insert name }

/-- Works out the shared and the unused names once every statement has been counted.  The name of
the mixin itself never counts as unused inside it. -/
def finish (scope : Scope) : Scope :=
  let shared := scope.accessed.filter fun (name, _) =>
    name ∉ scope.declared ∧ name ∉ scope.params
  let unused := (scope.declared.union scope.params).filter fun name =>
    ¬ scope.isAccessed name ∧ scope.owner ≠ some name
  { scope with shared, unused }

/-- Counts the reads that an inner block shares with this one. -/
def absorb (inner outer : Scope) : Scope :=
  { outer with
    accessed := inner.shared.foldl (fun tally (name, count) => tally.add name count)
      outer.accessed }

end Scope

end Cascade
