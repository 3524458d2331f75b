import Cascade.Node.Basic
import Cascade.Number.Decimal
import Cascade.Text.Paint

/-!
# Outlines of trees

An outline shows the nodes of a tree in document order, each on a new line and indented by its
depth: the place of the node in its parent, the name of its kind, and its texts.
-/

set_option autoImplicit false

namespace Cascade

/-- A text after a blank. -/
private def after (text : String) : String := " " ++ text

/-- The texts of a kind, as an outline shows them after its name. -/
def Kind.details : Kind → String
  | selector names _ | frame names => after (", ".intercalate names)
  | media queries _ => after (", ".intercalate queries)
  | supports query => after query
  | keyframes name _ | declaration name | param name | call name _ | directive name
  | reference name | command name | function name => after name
  | property name _ important => after (if important then name ++ " !important" else name)
  | assign name (some op) => after (name ++ " " ++ op.binary.symbol ++ "=")
  | assign name none => after name
  | mixin name (some selectors) _ => after (name ++ " [" ++ ", ".intercalate selectors ++ "]")
  | mixin name none _ => after name
  | inclusion path => after path
  | binary op => after op.symbol
  | unary op => after op.symbol
  | number value unit => after (Number.plain value ++ unit.getD "")
  | string value quote => after (quote.wrap value)
  | identifier value | raw value => after value
  | boolean value => after (toString value)
  | sheet | block | root | fontFace | content | conditional | params | null | list | comma
  | slash => ""

/-- What an outline shows of a node. -/
def Node.outlineEntry (colored : Bool) (depth : Nat) (node : Node) : String :=
  let relation := (node.relation.map fun r => r.name ++ " ").getD ""
  Text.repeated depth "  " ++ paint colored .brightBlack relation
    ++ paint colored .magenta node.kind.name ++ paint colored .blue node.kind.details

/-- What an outline shows of the nodes of a tree, node by node. -/
def Node.outlineEntries (colored : Bool) (node : Node) : List String :=
  (node.outline 0).map fun (depth, node) => node.outlineEntry colored depth

/-- **The outline of a tree.**  What is shown of a node ends with a line break. -/
def Node.outlineText (colored : Bool) (node : Node) : String :=
  String.join ((node.outlineEntries colored).map fun entry => entry ++ "\n")

/-- The lines of the outline.  A node whose texts have line breaks takes several of them. -/
def Node.outlineLines (colored : Bool) (node : Node) : List String :=
  (node.outlineEntries colored).flatMap fun entry =>
    (Text.pieces '\n' entry.toList).map String.ofList

end Cascade
