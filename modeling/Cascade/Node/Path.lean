import Cascade.Node.Basic

/-!
# Places in a tree

A place in a tree is given by a path: the position of a child among the children of the root, then
a position among the children of that child, and so on.  In document order a path comes before all
paths that extend it and before all paths that turn off to the right of it.
-/

set_option autoImplicit false

namespace Cascade

/-- A place in a tree: child positions, from the root down. -/
abbrev Path := List Nat

namespace Node

/-! ## The node at a path -/

/-- The node at a path. -/
def get? : Path → Node → Option Node
  | [], node => some node
  | i :: path, node =>
    match node.children[i]? with
    | some child => get? path child
    | none => none

/-- The tree with the node at a path changed. -/
def update (change : Node → Node) : Path → Node → Node
  | [], node => change node
  | i :: path, node => node.withChildren (node.children.modify i (update change path))

/-- The tree with the node at a path replaced by any number of nodes.  The root itself cannot be
replaced. -/
def splice (replacement : List Node) : Path → Node → Node
  | [], node => node
  | [i], node =>
    node.withChildren (node.children.take i ++ replacement ++ node.children.drop (i + 1))
  | i :: j :: path, node =>
    node.withChildren (node.children.modify i (splice replacement (j :: path)))

/-- The nodes along a path: the root first and the node at the path last. -/
def chain : Path → Node → List Node
  | [], node => [node]
  | i :: path, node =>
    node :: match node.children[i]? with
      | some child => chain path child
      | none => []

/-! ## All places -/

mutual

/-- Every node of a tree with its path, a node before its children.  `path` is the path of the
tree itself. -/
def placesFrom (path : Path) : Node → List (Path × Node)
  | mk label children => (path, mk label children) :: placesFromAll path 0 children

/-- Every node of the children from position `i` on. -/
def placesFromAll (path : Path) (i : Nat) : List Node → List (Path × Node)
  | [] => []
  | node :: rest => placesFrom (path ++ [i]) node ++ placesFromAll path (i + 1) rest

end

mutual

/-- Every node of a tree with its path, a node after its children.  `path` is the path of the tree
itself. -/
def placesUpFrom (path : Path) : Node → List (Path × Node)
  | mk label children => placesUpFromAll path 0 children ++ [(path, mk label children)]

/-- Every node of the children from position `i` on. -/
def placesUpFromAll (path : Path) (i : Nat) : List Node → List (Path × Node)
  | [] => []
  | node :: rest => placesUpFrom (path ++ [i]) node ++ placesUpFromAll path (i + 1) rest

end

/-- Every node with its path in document order. -/
def places (node : Node) : List (Path × Node) :=
  node.placesFrom []

/-- Every node with its path, children before their parent. -/
def placesUp (node : Node) : List (Path × Node) :=
  node.placesUpFrom []

@[simp] theorem get?_nil (node : Node) : node.get? [] = some node := rfl

@[simp] theorem update_nil (change : Node → Node) (node : Node) :
    node.update change [] = change node := rfl

end Node

end Cascade
