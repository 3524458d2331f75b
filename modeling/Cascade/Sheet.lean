import Cascade.Node.Path
import Cascade.Parse.Statement

/-!
# Stylesheets being compiled

Between the stages of compilation a stylesheet is a tree together with the name of the file it was
read from, which errors report, and the number of mixins expanded in it so far, from which each
expansion takes the names of its own variables.
-/

set_option autoImplicit false

namespace Cascade

/-- A stylesheet between the stages of compilation. -/
structure Sheet where
  root : Node
  file : Option String := none
  /-- How many mixins have been expanded. -/
  expansions : Nat := 0
  deriving Inhabited

/-- An error at the line of a node. -/
def Node.errorIn (node : Node) (file : Option String) (cause : Cause) : Error :=
  ⟨cause, ⟨file, node.line⟩⟩

/-- The stylesheet that a source holds. -/
def Sheet.parse (source : Source) : Except Error Sheet :=
  (Cascade.parse source).map fun root => { root, file := source.file }

/-- The stylesheet with another tree. -/
def Sheet.withRoot (sheet : Sheet) (root : Node) : Sheet :=
  { sheet with root }

end Cascade
