import Cascade.Node.Kind
import Cascade.Scope.Usage
import Cascade.Source

/-!
# Stylesheets as trees

A stylesheet and everything in it is a `Node`: a label and a list of children.  The label holds the
kind of the node, the line and the part of the text it was read from, the place it takes in its
parent, the comments that stand by it, and, once names have been counted, what its block does with
them.
-/

set_option autoImplicit false

namespace Cascade

/-! ## Labels and nodes -/

/-- All that is known about a node besides its children. -/
structure Label where
  kind : Kind
  line : Nat
  span : Span := {}
  relation : Option Relation := none
  comments : List Comment := []
  scope : Option Scope := none
  deriving Inhabited

/-- A node: a label and the children below it. -/
inductive Node where
  | mk (label : Label) (children : List Node)
  deriving Inhabited

namespace Node

/-- The label of a node. -/
def label : Node → Label
  | mk label _ => label

/-- The children of a node, in order. -/
def children : Node → List Node
  | mk _ children => children

/-- What the node stands for. -/
def kind (node : Node) : Kind := node.label.kind

/-- The line the node was read from. -/
def line (node : Node) : Nat := node.label.line

/-- The place the node takes in its parent. -/
def relation (node : Node) : Option Relation := node.label.relation

/-- The comments that stand by the node. -/
def comments (node : Node) : List Comment := node.label.comments

/-- What the block does with names, if they have been counted. -/
def scope (node : Node) : Option Scope := node.label.scope

/-- A new node with the given children. -/
def make (kind : Kind) (line : Nat) (children : List Node := []) : Node :=
  mk { kind, line } children

/-- The node with another kind. -/
def withKind (node : Node) (kind : Kind) : Node :=
  mk { node.label with kind } node.children

/-- The node with other children. -/
def withChildren (node : Node) (children : List Node) : Node :=
  mk node.label children

/-- The node in another place of its parent. -/
def withRelation (node : Node) (relation : Option Relation) : Node :=
  mk { node.label with relation } node.children

/-- The node in a named place of its parent. -/
def placed (node : Node) (relation : Relation) : Node :=
  node.withRelation (some relation)

/-- The node as a statement among others, in no named place. -/
def plain (node : Node) : Node :=
  node.withRelation none

/-- The node with more comments after those it has. -/
def addComments (node : Node) (comments : List Comment) : Node :=
  mk { node.label with comments := node.comments ++ comments } node.children

/-- The first child in a named place. -/
def child? (node : Node) (relation : Relation) : Option Node :=
  node.children.find? fun child => child.relation == some relation

/-- The block of a rule. -/
def rules? (node : Node) : Option Node :=
  node.child? .rules

/-- The arguments of a call or the parameters of a mixin. -/
def arguments (node : Node) : List Node :=
  ((node.child? .params).map children).getD []

@[simp] theorem label_mk (l : Label) (cs : List Node) : (mk l cs).label = l := rfl

@[simp] theorem children_mk (l : Label) (cs : List Node) : (mk l cs).children = cs := rfl

/-! ## Copies -/

mutual

/-- A copy of a tree.  Comments are not copied: they are written once. -/
def copied : Node → Node
  | mk label children => mk { label with comments := [] } (copiedAll children)

/-- Copies of several trees. -/
def copiedAll : List Node → List Node
  | [] => []
  | node :: rest => copied node :: copiedAll rest

end

/-! ## All nodes of a tree -/

mutual

/-- The number of nodes of a tree. -/
def size : Node → Nat
  | mk _ children => sizeAll children + 1

/-- The number of nodes of several trees. -/
def sizeAll : List Node → Nat
  | [] => 0
  | node :: rest => size node + sizeAll rest

end

mutual

/-- Every node of a tree, a node before its children. -/
def preorder : Node → List Node
  | mk label children => mk label children :: preorderAll children

/-- Every node of several trees, tree by tree. -/
def preorderAll : List Node → List Node
  | [] => []
  | node :: rest => preorder node ++ preorderAll rest

end

mutual

/-- Every node of a tree with its depth, a node before its children. -/
def outline (depth : Nat) : Node → List (Nat × Node)
  | mk label children => (depth, mk label children) :: outlineAll (depth + 1) children

/-- Every node of several trees with its depth. -/
def outlineAll (depth : Nat) : List Node → List (Nat × Node)
  | [] => []
  | node :: rest => outline depth node ++ outlineAll depth rest

end

@[simp] theorem copiedAll_eq_map (nodes : List Node) : copiedAll nodes = nodes.map copied := by
  induction nodes with
  | nil => rfl
  | cons node rest ih => simp [copiedAll, ih]

@[simp] theorem preorderAll_eq_flatMap (nodes : List Node) :
    preorderAll nodes = nodes.flatMap preorder := by
  induction nodes with
  | nil => rfl
  | cons node rest ih => simp [preorderAll, ih]

end Node

end Cascade
