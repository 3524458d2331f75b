import Cascade.Document.Editing
import Cascade.Scope.Unused

/-!
# Definitions in a document

Which definition a use of a mixin refers to, and which definitions nobody uses.  The latter are
taken out, round by round, until nothing is left to take out.
-/

set_option autoImplicit false

namespace Cascade

/-! ## Finding mixins -/

namespace Document

/-- Whether a node is the definition of the mixin `name`. -/
def defines (d : Document) (name : String) (key : Key) : Bool :=
  match d.kindAt key with
  | .mixin other _ _ => other == name
  | _ => false

/-- The nearest definition of the mixin `name` before a node, at most `count` levels up. -/
def findMixinUpTo (d : Document) (name : String) : Nat → Key → Option Key
  | 0, _ => none
  | count + 1, key =>
    match d.parent? key with
    | none => none
    | some parent =>
      let before := (d.childKeys parent).take ((d.indexOf? key).getD 0)
      match before.reverse.find? (d.defines name) with
      | some mixin => some mixin
      | none => d.findMixinUpTo name count parent

/-- **The definition that a use of the mixin `name` refers to.** -/
def findMixin? (d : Document) (call : Key) (name : String) : Option Key :=
  d.findMixinUpTo name d.cells.size call

/-! ## What can go -/

/-- The blocks of a conditional and of those that stand in the place of its last branch. -/
def branchBlocks (d : Document) : Nat → Key → List Key
  | 0, _ => []
  | depth + 1, key =>
    (d.child? key .thenPart).toList ++
      match d.child? key .elsePart with
      | none => []
      | some part => if (d.kindAt part).isConditional then d.branchBlocks depth part else [part]

/-- The statements of the blocks that are pending and of the branches of their conditionals, in at
most `count` blocks. -/
def statementsOf (d : Document) : Nat → List Key → List Key
  | 0, _ => []
  | _ + 1, [] => []
  | count + 1, block :: pending =>
    let statements := d.childKeys block
    let conditionals := statements.filter fun statement => (d.kindAt statement).isConditional
    let branches := conditionals.flatMap (d.branchBlocks d.cells.size)
    statements ++ d.statementsOf count (branches.reverse ++ pending)

/-- The statements of a block and those of the branches of its conditionals, which share its
scope. -/
def statementsWithin (d : Document) (block : Key) : List Key :=
  d.statementsOf d.cells.size [block]

/-- Whether one of the uses of the mixin `name` that are still there refers to `mixin`. -/
def isCalled (d : Document) (calls : List Key) (mixin : Key) (name : String) : Bool :=
  calls.any fun call =>
    match d.kindAt call with
    | .call callee _ => callee == name && d.isAttached call && d.findMixin? call name == some mixin
    | _ => false

/-- Whether a statement goes, since its name is in `unused` and nothing depends on it. -/
def goes (d : Document) (calls : List Key) (unused : NameSet) (statement : Key) : Bool :=
  match d.kindAt statement with
  | .mixin name none _ => unused.contains name && !d.isCalled calls statement name
  | .declaration name | .assign name _ => unused.contains name && (d.view statement).hasPlainValue
  | _ => false

/-- The parameters at the end of a list that are not used, the last one first. -/
def trailingParams (d : Document) (unused : NameSet) (params : Key) : List Key :=
  (d.childKeys params).reverse.takeWhile fun param =>
    match d.kindAt param with
    | .param name => unused.contains name
    | _ => false

/-- The mixin that a block is the body of, and its list of parameters. -/
def owner? (d : Document) (block : Key) : Option (Key × Key) :=
  match d.parent? block with
  | none => none
  | some mixin =>
    match (d.kindAt mixin).isMixin, d.child? mixin .params with
    | true, some params => some (mixin, params)
    | _, _ => none

/-- The records of what all blocks do with names. -/
def countedScopes (d : Document) : List (Key × Option Scope) :=
  (d.preorder root).zip (d.sheet.scanScopes.root.preorder.map Node.scope)

end Document

/-! ## Taking it out -/

namespace Editing

/-- The definition that a use of the mixin `name` refers to, or the error that there is none. -/
def findMixin (call : Key) (name : String) : Editing Key := do
  match ← look (·.findMixin? call name) with
  | some mixin => pure mixin
  | none => failAt call (.resolve (.mixinNotFound name))

/-- **Records what every block does with names.** -/
def scanScopes : Editing Unit := do
  let scopes ← look (·.countedScopes)
  scopes.forM fun (key, scope) => edit (·.setScope key scope)

/-- Takes out a statement, if it goes, and counts it. -/
def removeStatement (calls : List Key) (unused : NameSet) (statement : Key) : Editing Nat := do
  if ← look (·.goes calls unused statement) then
    edit (·.remove statement)
    pure 1
  else pure 0

/-- Takes out the parameters at the end of the mixin that a block belongs to, as far as they are in
`unused`, and counts them. -/
def removeParams (unused : NameSet) (block : Key) : Editing Nat := do
  match ← look (·.owner? block) with
  | none => pure 0
  | some (mixin, params) =>
    let gone ← look (·.trailingParams unused params)
    gone.forM fun param => edit (·.remove param)
    edit (·.updateKind mixin (Node.losing gone.length))
    pure gone.length

/-- Takes out of one block what it does not use, and counts it. -/
def removeUnusedIn (calls : List Key) (block : Key) : Editing Nat := do
  if ← look fun d => !(d.kindAt block).isBlockLike || !d.isAttached block then pure 0
  else
    match ← look fun d => (d.labelAt block).scope with
    | none => failAt block (.scope .missingScope)
    | some scope =>
      if scope.unused.isEmpty then pure 0
      else
        let statements ← look (·.statementsWithin block)
        let removed ← statements.mapM (removeStatement calls scope.unused)
        let dropped ← removeParams scope.unused block
        pure (removed.foldr (· + ·) dropped)

/-- Takes out of all blocks what they do not use, and counts it. -/
def removeUnused : Editing Nat := do
  let keys ← look (·.preorder Document.root)
  let calls ← look fun d => keys.filter fun key =>
    match d.kindAt key with
    | .call .. => true
    | _ => false
  let removed ← keys.mapM (removeUnusedIn calls)
  pure (removed.foldr (· + ·) 0)

/-- At most `rounds` rounds of counting names and taking out what nobody uses. -/
def cleanUpWithin : Nat → Editing Unit
  | 0 => scanScopes
  | rounds + 1 => do
    scanScopes
    if (← removeUnused) = 0 then pure () else cleanUpWithin rounds

/-- **Takes out of a document what nobody uses**, until nothing is left to take out. -/
def cleanUp : Editing Unit := do
  cleanUpWithin (← look fun d => (d.preorder Document.root).length)

end Editing

end Cascade
