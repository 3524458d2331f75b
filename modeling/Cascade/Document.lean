import Cascade.Mixin.Expand

/-!
# Documents that are edited in place

A `Document` holds a tree whose nodes have keys.  Nodes are made, put in place, moved and taken out
by key; a node that has been taken out keeps its key and everything below it.  Every node knows its
parent and its children, and the operations keep both in step.
-/

set_option autoImplicit false

namespace Cascade

/-- The key of a node in a document. -/
abbrev Key := Nat

/-- A node of a document. -/
structure Cell where
  label : Label
  parent : Option Key := none
  children : List Key := []
  deriving Inhabited

/-- A tree whose nodes have keys.  The keys count the nodes in the order in which they were
made. -/
structure Document where
  file : Option String := none
  cells : Array Cell := #[{ label := { kind := .sheet, line := 1 } }]
  /-- How many marks for expansions have been given out. -/
  expansions : Nat := 0
  deriving Inhabited

namespace Document

/-- The key of the root. -/
def root : Key := 0

/-! ## Looking things up -/

/-- The label of a node. -/
def label? (d : Document) (key : Key) : Option Label :=
  d.cells[key]?.map Cell.label

/-- The parent of a node. -/
def parent? (d : Document) (key : Key) : Option Key :=
  d.cells[key]?.bind Cell.parent

/-- The children of a node, in order. -/
def childKeys (d : Document) (key : Key) : List Key :=
  (d.cells[key]?.map Cell.children).getD []

/-- The label of a node.  A key that was never given out has the label of an empty stylesheet. -/
def labelAt (d : Document) (key : Key) : Label :=
  (d.label? key).getD default

/-- What a node stands for. -/
def kindAt (d : Document) (key : Key) : Kind :=
  (d.labelAt key).kind

/-- The line a node was read from. -/
def lineAt (d : Document) (key : Key) : Nat :=
  (d.labelAt key).line

/-- The place a node takes in its parent. -/
def relation? (d : Document) (key : Key) : Option Relation :=
  (d.label? key).bind Label.relation

/-- The first child in a named place. -/
def child? (d : Document) (key : Key) (relation : Relation) : Option Key :=
  (d.childKeys key).find? fun child => d.relation? child == some relation

/-- The block of a rule. -/
def rules? (d : Document) (key : Key) : Option Key :=
  d.child? key .rules

/-- The arguments of a call or the parameters of a mixin. -/
def argumentKeys (d : Document) (key : Key) : List Key :=
  ((d.child? key .params).map d.childKeys).getD []

/-- The position of a node among the children of its parent. -/
def indexOf? (d : Document) (key : Key) : Option Nat :=
  (d.parent? key).bind fun parent => (d.childKeys parent).findIdx? (· == key)

/-- At most `count` parents of a node, the nearest first. -/
def ancestorsUpTo (d : Document) : Nat → Key → List Key
  | 0, _ => []
  | count + 1, key =>
    match d.parent? key with
    | some parent => parent :: d.ancestorsUpTo count parent
    | none => []

/-- The parents of a node, the nearest first. -/
def ancestors (d : Document) (key : Key) : List Key :=
  d.ancestorsUpTo d.cells.size key

/-- Whether a node belongs to the tree below the root. -/
def isAttached (d : Document) (key : Key) : Bool :=
  key == root || (d.ancestors key).contains root

/-- Whether nothing was ever put into the document. -/
def isEmpty (d : Document) : Bool :=
  d.cells.size ≤ 1 && (d.childKeys root).isEmpty

/-- Where a node was read from. -/
def location (d : Document) (key : Key) : Location :=
  ⟨d.file, ((d.label? key).map Label.line).getD 0⟩

/-- The tree below a key, as far as the given depth. -/
def viewTo (d : Document) : Nat → Key → Node
  | 0, key => .mk (d.labelAt key) []
  | depth + 1, key => .mk (d.labelAt key) ((d.childKeys key).map (d.viewTo depth))

/-- **The tree below a key.** -/
def view (d : Document) (key : Key) : Node :=
  d.viewTo d.cells.size key

/-- The keys below a key, as far as the given depth, each before those below it. -/
def preorderTo (d : Document) : Nat → Key → List Key
  | 0, key => [key]
  | depth + 1, key => key :: (d.childKeys key).flatMap (d.preorderTo depth)

/-- The keys below a key, each before those below it. -/
def preorder (d : Document) (key : Key) : List Key :=
  d.preorderTo d.cells.size key

/-- The keys below a key, as far as the given depth, each after those below it. -/
def postorderTo (d : Document) : Nat → Key → List Key
  | 0, key => [key]
  | depth + 1, key => (d.childKeys key).flatMap (d.postorderTo depth) ++ [key]

/-- The keys below a key, each after those below it. -/
def postorder (d : Document) (key : Key) : List Key :=
  d.postorderTo d.cells.size key

/-- Whether the nodes below a key, as far as the given depth, name their parents. -/
def linksHoldTo (d : Document) : Nat → Key → Bool
  | 0, _ => true
  | depth + 1, key => (d.childKeys key).all fun child =>
    d.parent? child == some key && d.linksHoldTo depth child

/-- Whether all nodes below the root name their parents and the root has none. -/
def linksHold (d : Document) : Bool :=
  d.linksHoldTo d.cells.size root && (d.parent? root).isNone

/-! ## Single changes -/

/-- The document with one node changed. -/
def update (d : Document) (key : Key) (change : Cell → Cell) : Document :=
  { d with cells := d.cells.modify key change }

/-- The document with another parent for a node. -/
def setParent (d : Document) (key : Key) (parent : Option Key) : Document :=
  d.update key fun cell => { cell with parent }

/-- The document with other children for a node. -/
def setChildren (d : Document) (key : Key) (children : List Key) : Document :=
  d.update key fun cell => { cell with children }

/-- The document with the label of a node changed. -/
def relabel (d : Document) (key : Key) (change : Label → Label) : Document :=
  d.update key fun cell => { cell with label := change cell.label }

/-- The document with a node in another place of its parent. -/
def setRelation (d : Document) (key : Key) (relation : Option Relation) : Document :=
  d.relabel key fun label => { label with relation }

/-- The document with the kind of a node changed. -/
def updateKind (d : Document) (key : Key) (change : Kind → Kind) : Document :=
  d.relabel key fun label => { label with kind := change label.kind }

/-- The document with another record of what a block does with names. -/
def setScope (d : Document) (key : Key) (scope : Option Scope) : Document :=
  d.relabel key fun label => { label with scope }

/-- A new node without parent and children. -/
def push (d : Document) (label : Label) : Document × Key :=
  ({ d with cells := d.cells.push { label } }, d.cells.size)

/-- A new node of a kind. -/
def create (d : Document) (kind : Kind) (line : Nat) : Document × Key :=
  d.push { kind, line }

/-! ## Edits -/

/-- Takes a node away from its parent.  It keeps what is below it. -/
def remove (d : Document) (key : Key) : Document :=
  match d.parent? key with
  | none => d
  | some parent =>
    let d := d.setParent key none
    d.setChildren parent ((d.childKeys parent).filter (· != key))

/-- Puts a node behind the other children of `parent`. -/
def append (d : Document) (parent key : Key) : Document :=
  let d := d.remove key
  (d.setChildren parent (d.childKeys parent ++ [key])).setParent key (some parent)

/-- Puts a node behind the other children of `parent`, in a named place. -/
def appendAs (d : Document) (parent key : Key) (relation : Relation) : Document :=
  (d.append parent key).setRelation key (some relation)

/-- Puts a node among the children of `parent`, at a position or at the end. -/
def insert (d : Document) (parent : Key) (index : Nat) (key : Key) : Document :=
  let d := d.remove key
  let children := d.childKeys parent
  (d.setChildren parent (children.take index ++ key :: children.drop index)).setParent key
    (some parent)

/-- Puts `new` in the place of `old`, which is taken out. -/
def replace (d : Document) (old new : Key) : Document :=
  if old = new then d
  else
    let d := d.remove new
    match d.parent? old, d.indexOf? old with
    | some parent, some index =>
      let d := d.setChildren parent ((d.childKeys parent).set index new)
      let d := d.setParent new (some parent)
      let d := d.setRelation new (d.relation? old)
      d.setParent old none
    | _, _ => d

/-- Puts any number of statements in the place of `old`, which is taken out. -/
def splice (d : Document) (old : Key) (new : List Key) : Document :=
  let d := new.foldl remove d
  match d.parent? old, d.indexOf? old with
  | some parent, some index =>
    let d := new.foldl (fun d key => (d.setParent key (some parent)).setRelation key none) d
    let children := d.childKeys parent
    let d := d.setChildren parent (children.take index ++ new ++ children.drop (index + 1))
    d.setParent old none
  | _, _ => d

/-- Takes all children away from a node and gives them back. -/
def takeChildren (d : Document) (key : Key) : Document × List Key :=
  let children := d.childKeys key
  let d := d.setChildren key []
  (children.foldl (fun d child => d.setParent child none) d, children)

/-- The next mark for an expansion. -/
def nextMark (d : Document) : Document × String :=
  let expansions := d.expansions + 1
  ({ d with expansions }, Renaming.markOf expansions)

/-! ## New subtrees -/

mutual

/-- **Adds a tree to a document**, detached from all that is there, and gives the key of its
root. -/
def plant (d : Document) : Node → Document × Key
  | .mk label children =>
    let (d, key) := d.push label
    (plantAll d key children, key)

/-- Adds trees behind the other children of a node. -/
def plantAll (d : Document) (parent : Key) : List Node → Document
  | [] => d
  | node :: rest =>
    let (d, key) := plant d node
    plantAll (d.append parent key) parent rest

end

/-- The document that holds a tree. -/
def ofTree (file : Option String) (tree : Node) : Document :=
  (Document.plant { file, cells := #[] } tree).1

/-! ## Copies -/

/-- A copy of a node alone.  Comments are not copied. -/
def shallowClone (d : Document) (key : Key) : Document × Key :=
  d.push { d.labelAt key with comments := [] }

/-- Adds copies of the children of a node below its copy, each of them alone. -/
def copyChildren (d source : Document) (change : Label → Label) (key copy : Key) : Document :=
  d.plantAll copy ((source.childKeys key).map fun child => .mk (change (source.labelAt child)) [])

/-- Copies what is below nodes of `source`, in at most `count` steps.  The stack holds nodes with
their copies, which are still without children. -/
def copySteps (source : Document) (change : Label → Label) :
    Nat → Document → List (Key × Key) → Document
  | 0, d, _ => d
  | _ + 1, d, [] => d
  | count + 1, d, (key, copy) :: stack =>
    let d := d.copyChildren source change key copy
    copySteps source change count d
      (((source.childKeys key).zip (d.childKeys copy)).reverse ++ stack)

/-- **Copies a node of `source` with everything below it**, each node with its label changed. -/
def copyFrom (d source : Document) (change : Label → Label) (key : Key) : Document × Key :=
  let (d, copy) := d.push (change (source.labelAt key))
  (copySteps source change (source.preorder key).length d [(key, copy)], copy)

/-- A copy of a node with everything below it. -/
def deepClone (d : Document) (key : Key) : Document × Key :=
  d.copyFrom d (fun label => { label with comments := [] }) key

/-- A copy of a node that belongs to another document, without scopes. -/
def graftFrom (d other : Document) (key : Key) : Document × Key :=
  d.copyFrom other (fun label => { label with comments := [], scope := none }) key

/-- A copy of a tree that was read on its own. -/
def graft (d : Document) (tree : Node) : Document × Key :=
  d.graftFrom (ofTree none tree) root

/-- The stylesheet that a document holds. -/
def sheet (d : Document) : Sheet :=
  { root := d.view root, file := d.file, expansions := d.expansions }

end Document

end Cascade
