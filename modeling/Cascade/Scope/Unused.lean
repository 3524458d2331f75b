import Cascade.Mixin.Lookup
import Cascade.Scope.Scan

/-!
# Removing what nobody uses

Variables and mixins that are declared but never read, and trailing parameters that a mixin never
reads, are taken out of a stylesheet.  What is taken out may have been the only reader of something
else, so this is repeated until nothing is left to take out.

A variable whose value has to be computed stays, since the computation may fail; so does a mixin
that some use still refers to, although a later definition of the same name hides it from the count.
-/

set_option autoImplicit false

namespace Cascade

/-! ## Statements of a scope -/

namespace Node

/-- The children of a node with their paths. -/
def childPlaces (path : Path) (node : Node) : List (Path × Node) :=
  node.children.zipIdx.map fun (child, i) => (path ++ [i], child)

mutual

/-- The statements of a block and those of the branches of its conditionals, which share its
scope.  The branches follow the statements of the block itself, the last branch first. -/
def statementsWithin (path : Path) : Node → List (Path × Node)
  | mk label children => childPlaces path (mk label children) ++ branchesWithin path 0 children

/-- The statements in branches of the conditionals among the children from position `i` on. -/
def branchesWithin (path : Path) (i : Nat) : List Node → List (Path × Node)
  | [] => []
  | mk label children :: rest =>
    branchesWithin path (i + 1) rest ++
      match label.kind with
      | .conditional => partsWithin (path ++ [i]) 0 children
      | _ => []

/-- The statements in the parts of a conditional from position `i` on: its branches, and the
branches of a conditional that stands in the place of the last one. -/
def partsWithin (path : Path) (i : Nat) : List Node → List (Path × Node)
  | [] => []
  | mk label children :: rest =>
    partsWithin path (i + 1) rest ++
      if label.isBranch then
        match label.kind with
        | .conditional => partsWithin (path ++ [i]) 0 children
        | _ => statementsWithin (path ++ [i]) (mk label children)
      else []

end

/-! ## What can go -/

/-- Whether the value of a declaration or an assignment needs no computation. -/
def hasPlainValue (statement : Node) : Bool :=
  match statement.child? .initializer with
  | none => true
  | some value => value.preorder.all fun node =>
    match node.kind with
    | .reference _ | .list | .comma | .slash => true
    | kind => kind.isLiteral

end Node

/-- What one round takes out: the places that go, and for each mixin that loses parameters how
many it loses. -/
structure Removal where
  gone : List Path := []
  dropped : List (Path × Nat) := []
  deriving Inhabited

/-- Whether a place goes, by itself or together with a place above it. -/
def Removal.covers (removal : Removal) (path : Path) : Bool :=
  removal.gone.any fun place => place.isPrefixOf path

/-- Whether a use of the mixin `name` that stays refers to the definition at `place`. -/
def Removal.isCalled (removal : Removal) (root : Node) (calls : List (Path × String))
    (place : Path) (name : String) : Bool :=
  calls.any fun (path, callee) =>
    callee == name && !removal.covers path
      && root.findMixinExcept? removal.gone name [] path == some place

/-- Takes out a statement of a block if its name is in `unused` and nothing depends on it. -/
def Removal.statement (root : Node) (calls : List (Path × String)) (unused : NameSet)
    (removal : Removal) (entry : Path × Node) : Removal :=
  let (place, node) := entry
  let go : Bool := match node.kind with
    | .mixin name none _ =>
      unused.contains name && !removal.isCalled root calls place name
    | .declaration name | .assign name _ => unused.contains name && node.hasPlainValue
    | _ => false
  if go then { removal with gone := place :: removal.gone } else removal

/-- How many parameters at the end of a list are not used. -/
def trailingUnused (unused : NameSet) (params : List Node) : Nat :=
  (params.reverse.takeWhile fun param =>
    match param.kind with
    | .param name => unused.contains name
    | _ => false).length

/-- Takes out the parameters at the end of the mixin that the block at `place` belongs to, as far
as they are in `unused`. -/
def Removal.params (root : Node) (unused : NameSet) (removal : Removal) (place : Path) : Removal :=
  let parent := place.dropLast
  match place, root.get? parent with
  | _ :: _, some mixin =>
    match mixin.kind.isMixin, mixin.children.findIdx? fun child =>
        child.relation == some .params with
    | true, some i =>
      let params := mixin.arguments
      let count := trailingUnused unused params
      let places := (List.range count).map fun k => parent ++ [i, params.length - 1 - k]
      if count = 0 then removal
      else
        { gone := places ++ removal.gone, dropped := (parent, count) :: removal.dropped }
    | _, _ => removal
  | _, _ => removal

/-- Takes out of one block what it does not use. -/
def Removal.block (file : Option String) (root : Node) (calls : List (Path × String))
    (removal : Removal) (entry : Path × Node) : Except Error Removal :=
  let (place, node) := entry
  if !node.kind.isBlockLike || removal.covers place then .ok removal
  else
    match node.scope with
    | none => .error (node.errorIn file (.scope .missingScope))
    | some scope =>
      if scope.unused.isEmpty then .ok removal
      else
        let statements := (node.statementsWithin place).filter fun entry =>
          !removal.covers entry.1
        let removal := statements.foldl (Removal.statement root calls scope.unused) removal
        .ok (removal.params root scope.unused place)

/-- Works out what one round takes out of a stylesheet whose names have been counted. -/
def Sheet.unused (sheet : Sheet) : Except Error Removal :=
  let places := sheet.root.places
  let calls := places.filterMap fun (path, node) =>
    match node.kind with
    | .call name _ => some (path, name)
    | _ => none
  places.foldlM (Removal.block sheet.file sheet.root calls) {}

/-! ## Taking it out -/

namespace Node

/-- The kind of a node that loses `count` parameters. -/
def losing (count : Nat) : Kind → Kind
  | .mixin name selector dropped => .mixin name selector (dropped + count)
  | kind => kind

mutual

/-- A tree without what is taken out.  `path` is the path of the tree itself. -/
def prune (removal : Removal) (path : Path) : Node → Node
  | mk label children =>
    let kind := match removal.dropped.lookup path with
      | some count => losing count label.kind
      | none => label.kind
    mk { label with kind } (pruneAll removal path 0 children)

/-- The children from position `i` on without what is taken out. -/
def pruneAll (removal : Removal) (path : Path) (i : Nat) : List Node → List Node
  | [] => []
  | node :: rest =>
    if removal.gone.contains (path ++ [i]) then pruneAll removal path (i + 1) rest
    else prune removal (path ++ [i]) node :: pruneAll removal path (i + 1) rest

end

end Node

/-- At most `rounds` rounds of counting names and taking out what nobody uses.  Every round but the
last makes the tree smaller. -/
def Sheet.cleanUpWithin : Nat → Sheet → Except Error Sheet
  | 0, sheet => .ok sheet.scanScopes
  | rounds + 1, sheet => do
    let scanned := sheet.scanScopes
    let removal ← scanned.unused
    if removal.gone.isEmpty then pure scanned
    else Sheet.cleanUpWithin rounds (scanned.withRoot (scanned.root.prune removal []))

/-- **Takes out of a stylesheet what nobody uses**, until nothing is left to take out. -/
def Sheet.cleanUp (sheet : Sheet) : Except Error Sheet :=
  sheet.cleanUpWithin sheet.root.size

end Cascade
