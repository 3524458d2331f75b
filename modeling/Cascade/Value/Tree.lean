import Cascade.Node.Basic
import Cascade.Value.Basic

/-!
# Values in trees

An expression that has been evaluated is a tree again: literals, lists of them, and functions.
Values are read off such trees and put back into them.
-/

set_option autoImplicit false

namespace Cascade

/-! ## Reading values off trees -/

/-- The text of a literal. -/
def Kind.literalText : Kind → String
  | .number value unit => Value.numberText value unit Number.defaultPrecision
  | .string value quote => quote.wrap value
  | .identifier value | .raw value => value
  | .boolean value => toString value
  | _ => ""

namespace Node

mutual

/-- The compact text of an evaluated expression. -/
def valueText : Node → String
  | mk label children =>
    match label.kind with
    | .slash => "/".intercalate (valueTexts children)
    | .list => " ".intercalate (valueTexts children)
    | .comma => ",".intercalate (valueTexts children)
    | .function name => name ++ "(" ++ ",".intercalate (argumentTexts children) ++ ")"
    | kind => kind.literalText

/-- The compact texts of several expressions. -/
def valueTexts : List Node → List String
  | [] => []
  | node :: rest => valueText node :: valueTexts rest

/-- The compact texts of the arguments among the children of a function. -/
def argumentTexts : List Node → List String
  | [] => []
  | mk label children :: rest =>
    if label.relation = some .params then valueTexts children else argumentTexts rest

end

end Node

namespace Value

mutual

/-- The value of an evaluated expression.  Whatever is not a literal or a list is text. -/
def ofNode : Node → Value
  | .mk label children =>
    match label.kind with
    | .number value unit => number value unit
    | .string value quote => string value quote
    | .identifier value => identifier value
    | .boolean value => boolean value
    | .null => null
    | .list => list (ofNodes children)
    | .comma => comma (ofNodes children)
    | _ => text (Node.valueText (.mk label children))

/-- The values of several evaluated expressions. -/
def ofNodes : List Node → List Value
  | [] => []
  | node :: rest => ofNode node :: ofNodes rest

end

/-! ## Putting values into trees -/

mutual

/-- A tree for a value, all of it on one line. -/
def toNode (line : Nat) : Value → Node
  | number value unit => .make (.number value unit) line
  | string value quote => .make (.string value quote) line
  | identifier name => .make (.identifier name) line
  | boolean value => .make (.boolean value) line
  | null => .make .null line
  | list items => .make .list line (toNodes line items)
  | comma items => .make .comma line (toNodes line items)
  | text value => .make (.raw value) line

/-- Trees for several values. -/
def toNodes (line : Nat) : List Value → List Node
  | [] => []
  | value :: rest => toNode line value :: toNodes line rest

end

@[simp] theorem ofNodes_eq_map (nodes : List Node) : ofNodes nodes = nodes.map ofNode := by
  induction nodes with
  | nil => rfl
  | cons node rest ih => simp [ofNodes, ih]

@[simp] theorem toNodes_eq_map (line : Nat) (values : List Value) :
    toNodes line values = values.map (toNode line) := by
  induction values with
  | nil => rfl
  | cons value rest ih => simp [toNodes, ih]

end Value

end Cascade
