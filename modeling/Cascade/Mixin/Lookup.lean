import Cascade.Sheet

/-!
# Finding mixins

A use of a mixin refers to the nearest definition before it: the last one among the statements
before it in its own block, otherwise the last one before the block it stands in, and so on up to
the whole stylesheet.
-/

set_option autoImplicit false

namespace Cascade

/-- Whether a node is the definition of the mixin `name`. -/
def Node.defines (name : String) (node : Node) : Bool :=
  match node.kind with
  | .mixin other _ _ => other == name
  | _ => false

/-- The position of the last node of a list that defines the mixin `name`.  Nodes that are not
`visible` are passed over. -/
def lastDefinition? (name : String) (visible : Nat → Bool) (nodes : List Node) : Option Nat :=
  (nodes.zipIdx.reverse.find? fun (node, i) => node.defines name && visible i).map Prod.snd

namespace Node

/-- The place of the definition that a use of the mixin `name` at a path refers to.  `here` is the
path of the tree itself, and the places in `gone` are passed over. -/
def findMixinExcept? (gone : List Path) (name : String) (here : Path) : Path → Node → Option Path
  | [], _ => none
  | i :: path, node =>
    let deeper := match node.children[i]? with
      | some child => findMixinExcept? gone name (here ++ [i]) path child
      | none => none
    match deeper with
    | some place => some place
    | none =>
      (lastDefinition? name (fun j => !gone.contains (here ++ [j])) (node.children.take i)).map
        fun j => here ++ [j]

/-- **The place of the mixin that a use at a path refers to.** -/
def findMixin? (root : Node) (path : Path) (name : String) : Option Path :=
  findMixinExcept? [] name [] path root

/-- Whether a path leads through the definition of a mixin. -/
def isInsideMixin (root : Node) (path : Path) : Bool :=
  (root.chain path).dropLast.any fun node => node.kind.isMixin

/-- The line of the node at a path. -/
def lineAt (root : Node) (path : Path) : Nat :=
  ((root.get? path).map line).getD 0

end Node

/-- The place of the mixin that a use at a path refers to, or the error that there is none. -/
def Sheet.findMixin (sheet : Sheet) (path : Path) (name : String) : Except Error Path :=
  match sheet.root.findMixin? path name with
  | some place => .ok place
  | none => .error ⟨.resolve (.mixinNotFound name), ⟨sheet.file, sheet.root.lineAt path⟩⟩

end Cascade
