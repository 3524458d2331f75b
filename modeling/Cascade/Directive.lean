import Cascade.Node.Basic

/-!
# Directives

`@require`, `@load`, `@break` and `@asset` are instructions to whoever drives the compiler.  They
have no output; their arguments are collected from the tree.
-/

set_option autoImplicit false

namespace Cascade

/-- The arguments of all directives of a stylesheet, in document order. -/
structure Directives where
  requires : List String := []
  loads : List String := []
  breaks : List String := []
  assets : List String := []
  deriving DecidableEq, Repr, Inhabited

/-- Whether there are no directives. -/
def Directives.isEmpty (d : Directives) : Bool :=
  d.requires.isEmpty && d.loads.isEmpty && d.breaks.isEmpty && d.assets.isEmpty

namespace Node

mutual

/-- The words and strings of an argument, also those inside lists. -/
def words : Node → List String
  | mk label children =>
    match label.kind with
    | .string value _ | .identifier value => [value]
    | .list | .comma => wordsAll children
    | _ => []

/-- The words and strings of several arguments. -/
def wordsAll : List Node → List String
  | [] => []
  | node :: rest => words node ++ wordsAll rest

end

/-- The arguments of all directives with the given name. -/
def directivesNamed (name : String) (root : Node) : List String :=
  root.preorder.flatMap fun node =>
    match node.kind with
    | .directive other => if other = name then wordsAll node.arguments else []
    | _ => []

/-- **The directives of a tree.** -/
def directives (root : Node) : Directives where
  requires := root.directivesNamed "require"
  loads := root.directivesNamed "load"
  breaks := root.directivesNamed "break"
  assets := root.directivesNamed "asset"

end Node

end Cascade
