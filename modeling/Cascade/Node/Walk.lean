import Cascade.Node.Basic

/-!
# Walking through trees

A visitor is told when a walk enters a node and when it leaves it again, and decides whether the
walk goes into the children.  A node whose children are left out is not left either.

The walk keeps a list of what is still to be done, so that the depth of the tree is no limit; the
same walk by recursion on the tree says what it does.
-/

set_option autoImplicit false

namespace Cascade

/-- What a walk does on the way: a state that changes whenever a node is entered or left. -/
structure Visitor (σ : Type) where
  /-- Whether to go into the children, and the new state. -/
  enter : Node → σ → Bool × σ
  leave : Node → σ → σ

/-- One thing a walk still has to do. -/
inductive WalkStep where
  | enter (node : Node)
  | leave (node : Node)
  deriving Inhabited

namespace Node

variable {σ : Type}

/-! ## With a list of steps -/

/-- Does what is left to be done, in at most `count` steps. -/
def walkSteps (visitor : Visitor σ) : Nat → List WalkStep → σ → σ
  | 0, _, state => state
  | _ + 1, [], state => state
  | count + 1, .leave node :: rest, state =>
    walkSteps visitor count rest (visitor.leave node state)
  | count + 1, .enter node :: rest, state =>
    match visitor.enter node state with
    | (false, state) => walkSteps visitor count rest state
    | (true, state) =>
      walkSteps visitor count (node.children.map WalkStep.enter ++ .leave node :: rest) state

/-- **Walks through a tree.**  Every node is entered and left at most once. -/
def walk (visitor : Visitor σ) (node : Node) (state : σ) : σ :=
  walkSteps visitor (2 * node.size) [.enter node] state

/-! ## By recursion -/

mutual

/-- The walk by recursion: enter the node, go through the children, leave the node. -/
def traverse (visitor : Visitor σ) : Node → σ → σ
  | mk label children, state =>
    match visitor.enter (mk label children) state with
    | (false, state) => state
    | (true, state) => visitor.leave (mk label children) (traverseAll visitor children state)

/-- The walk through several trees, one after the other. -/
def traverseAll (visitor : Visitor σ) : List Node → σ → σ
  | [], state => state
  | node :: rest, state => traverseAll visitor rest (traverse visitor node state)

end

mutual

/-- Every node of a tree, a node after its children. -/
def postorder : Node → List Node
  | mk label children => postorderAll children ++ [mk label children]

/-- Every node of several trees, tree by tree. -/
def postorderAll : List Node → List Node
  | [] => []
  | node :: rest => postorder node ++ postorderAll rest

end

/-! ## A record of a walk -/

/-- The visitor that writes down the kinds of the nodes that are entered and left, and goes into
all nodes but those whose kind is listed. -/
def recorder (skipped : List String) : Visitor (List String) where
  enter node events := (!skipped.contains node.kind.name, events ++ ["+" ++ node.kind.name])
  leave node events := events ++ ["-" ++ node.kind.name]

end Node

end Cascade
