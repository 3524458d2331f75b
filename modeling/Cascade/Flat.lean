import Cascade.Selector.Context

/-!
# Flat stylesheets

The output has no nested rules: every rule stands at the top with its selectors written out, inside
at most one feature query, inside at most one media query.

Flattening takes four steps.  Blocks that stand for themselves are dissolved into the statements
around them; every rule is lifted out with its context; rules without statements are removed; and
neighbours with the same selectors or queries are merged.
-/

set_option autoImplicit false

namespace Cascade

/-! ## Blocks that stand for themselves -/

namespace Node

mutual

/-- A tree in which every block without a place of its own has been dissolved. -/
def dissolveBlocks : Node → Node
  | mk label children => mk label (dissolveBlocksAll children)

/-- Statements in which blocks among them have been dissolved. -/
def dissolveBlocksAll : List Node → List Node
  | [] => []
  | mk label children :: rest =>
    (if label.kind.isBlock && label.relation.isNone then
      (dissolveBlocksAll children).map plain
    else [dissolveBlocks (mk label children)])
      ++ dissolveBlocksAll rest

end

end Node

/-! ## Lifting rules out -/

namespace Kind

/-- Whether a node of this kind is lifted out of the rules around it. -/
def isContainer : Kind → Bool
  | selector .. | mixin .. | media .. | supports _ | root | keyframes .. | fontFace => true
  | _ => false

/-- Whether a node of this kind leaves no trace in the output. -/
def isDiscarded : Kind → Bool
  | content | directive _ | inclusion _ | mixin _ none _ => true
  | _ => false

/-- Whether a node of this kind is lifted out as a whole. -/
def isWhole : Kind → Bool
  | keyframes .. | fontFace => true
  | _ => false

end Kind

/-- A node that is lifted out, with the context it stands in. -/
structure Lifted where
  node : Node
  context : Context
  deriving Inhabited

namespace Node

mutual

/-- The containers of a tree with their contexts, in document order.  `descent` is the way down to
the tree. -/
def containers (file : Option String) (descent : Descent) : Node → Except Error (List Lifted)
  | mk label children =>
    if !label.kind.isContainer || label.kind.isDiscarded then .ok []
    else do
      let descent ← descent.enter file false (mk label children)
      let inner ← if label.kind.isWhole then pure [] else ruleContainers file descent children
      pure (⟨mk label children, descent.context⟩ :: inner)

/-- The containers in the block among the children of a rule. -/
def ruleContainers (file : Option String) (descent : Descent) :
    List Node → Except Error (List Lifted)
  | [] => .ok []
  | mk label children :: rest =>
    if label.relation = some .rules then containersAll file descent children
    else ruleContainers file descent rest

/-- The containers of several trees. -/
def containersAll (file : Option String) (descent : Descent) :
    List Node → Except Error (List Lifted)
  | [] => .ok []
  | node :: rest => do
    let first ← containers file descent node
    let rest ← containersAll file descent rest
    pure (first ++ rest)

end

/-- A node inside a new rule. -/
def enclosed (kind : Kind) (inner : Node) : Node :=
  make kind inner.line [(make .block inner.line [inner]).placed .rules]

end Node

/-- A lifted node inside the queries of its context, the media query outermost. -/
def Context.wrap (context : Context) (node : Node) : Node :=
  let node := match context.supportsQuery with
    | some query => node.enclosed (.supports query)
    | none => node
  if context.media.isEmpty then node else node.enclosed (.media context.media [])

/-- The rule that stands for a container at the top level, if it has statements and selectors. -/
def Lifted.rule? (lifted : Lifted) : Option Node :=
  let node := lifted.node
  if node.kind.isWhole then some node
  else
    match node.rules? with
    | none => none
    | some block =>
      let statements := block.children.filter fun statement => !statement.kind.isContainer
      if statements.isEmpty || lifted.context.selectors.isEmpty then none
      else
        let block := (Node.make .block node.line statements).placed .rules
        some (.make (.selector lifted.context.selectors []) node.line [block])

/-- What a statement of the stylesheet becomes.  Mixins come before the rules that they were
defined in. -/
def lift (file : Option String) (statement : Node) : Except Error (List Node) :=
  if statement.kind.isDiscarded then .ok []
  else if !statement.kind.isContainer then .ok [statement]
  else do
    let found ← statement.containers file {}
    let (mixins, rules) := found.partition fun lifted => lifted.node.kind.isMixin
    pure ((mixins ++ rules).filterMap fun lifted => lifted.rule?.map lifted.context.wrap)

/-! ## Removing what is empty -/

namespace Node

/-- Whether a node is a rule without statements. -/
def isEmptyRule (node : Node) : Bool :=
  match node.kind with
  | .selector .. | .mixin .. | .media .. | .supports _ | .root =>
    match node.rules? with
    | some block => block.children.isEmpty
    | none => true
  | _ => false

mutual

/-- A tree without rules that are empty and without what leaves no trace. -/
def dropEmpty : Node → Node
  | mk label children => mk label (dropEmptyAll children)

/-- Statements without rules that are empty and without what leaves no trace. -/
def dropEmptyAll : List Node → List Node
  | [] => []
  | node :: rest =>
    let node := dropEmpty node
    if node.isEmptyRule || node.kind.isDiscarded then dropEmptyAll rest
    else node :: dropEmptyAll rest

end

end Node

/-! ## Merging neighbours -/

/-- Whether two kinds are rules with the same selectors or queries. -/
def Kind.sameRule : Kind → Kind → Bool
  | .selector a _, .selector b _ => a == b
  | .media a _, .media b _ => a == b
  | .supports a, .supports b => a == b
  | _, _ => false

namespace Node

/-- The node with its block changed. -/
def updateRules (change : Node → Node) : Node → Node
  | mk label children =>
    match children.findIdx? fun child => child.relation == some .rules with
    | some i => mk label (children.modify i change)
    | none => mk label children

/-- Two rules as one, if they have the same selectors or queries. -/
def merged? (first second : Node) : Option Node :=
  match first.kind.sameRule second.kind, first.rules?, second.rules? with
  | true, some _, some source =>
    some (first.updateRules fun block => block.withChildren (block.children ++ source.children))
  | _, _, _ => none

end Node

/-- Statements after `previous`, each merged into the one before it where that is possible. -/
def mergeAfter (previous : Node) : List Node → List Node
  | [] => [previous]
  | node :: rest =>
    match previous.merged? node with
    | some merged => mergeAfter merged rest
    | none => previous :: mergeAfter node rest

/-- Statements in which neighbours have been merged. -/
def mergeRuns : List Node → List Node
  | [] => []
  | node :: rest => mergeAfter node rest

/-- Whether rules of this kind hold rules. -/
def Kind.isQuery : Kind → Bool
  | .media .. | .supports _ => true
  | _ => false

/-- Statements in which neighbours have been merged, inside queries too, down to the given
depth. -/
def mergeWithin : Nat → List Node → List Node
  | 0, nodes => mergeRuns nodes
  | depth + 1, nodes =>
    (mergeRuns nodes).map fun node =>
      if node.kind.isQuery then
        node.updateRules fun block => block.withChildren (mergeWithin depth block.children)
      else node

/-! ## All steps -/

/-- **Flattens a stylesheet.** -/
def Sheet.flatten (sheet : Sheet) : Except Error Sheet := do
  let root := sheet.root.dissolveBlocks
  let lifted ← root.children.mapM (lift sheet.file)
  let root := (root.withChildren lifted.flatten).dropEmpty
  pure (sheet.withRoot (root.withChildren (mergeWithin root.size root.children)))

end Cascade
