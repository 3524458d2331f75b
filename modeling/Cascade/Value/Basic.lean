import Cascade.Number.Decimal
import Cascade.Operator

/-!
# Values

What an expression of a stylesheet evaluates to: numbers with units, strings, words, truth values,
lists, and text that is only ever written out.
-/

set_option autoImplicit false

namespace Cascade

/-- The value of an expression. -/
inductive Value where
  | number (value : Float) (unit : Option String)
  | string (value : String) (quote : Quote)
  | identifier (name : String)
  | boolean (value : Bool)
  | null
  /-- Values separated by blanks. -/
  | list (items : List Value)
  /-- Values separated by commas. -/
  | comma (items : List Value)
  /-- Text that can only be written out: functions, raw text, numbers around a slash. -/
  | text (value : String)
  deriving Inhabited

namespace Value

/-- The name of the type of a value in error messages. -/
def typeName : Value → String
  | number .. => "number"
  | string .. => "string"
  | identifier _ => "identifier"
  | boolean _ => "boolean"
  | null => "null"
  | list _ => "list"
  | comma _ => "comma list"
  | text _ => "css text"

/-- Whether a value counts as true in a condition.  False, null, zero, and empty strings and lists
do not. -/
def isTruthy : Value → Bool
  | boolean value => value
  | null => false
  | number value _ => value != 0.0
  | string value _ => value != ""
  | list items | comma items => !items.isEmpty
  | identifier _ | text _ => true

/-- A number with its unit. -/
def numberText (value : Float) (unit : Option String) (precision : Nat) : String :=
  Number.styled value precision ++ unit.getD ""

mutual

/-- The text of a value that is written into a name or a string.  Strings lose their quotes and
null is empty. -/
def render : Value → String
  | number value unit => numberText value unit Number.defaultPrecision
  | string value _ | identifier value | text value => value
  | boolean value => toString value
  | null => ""
  | list items => " ".intercalate (renderAll items)
  | comma items => ", ".intercalate (renderAll items)

/-- The texts of several values. -/
def renderAll : List Value → List String
  | [] => []
  | value :: rest => render value :: renderAll rest

end

mutual

/-- Whether two values are equal.  Numbers are compared as numbers, so `nan` differs from itself
and the two zeros are equal; units and quotes have to agree. -/
def same : Value → Value → Bool
  | number a u, number b v => a == b && u == v
  | string a p, string b q => a == b && p == q
  | identifier a, identifier b => a == b
  | boolean a, boolean b => a == b
  | null, null => true
  | list as, list bs => sameAll as bs
  | comma as, comma bs => sameAll as bs
  | text a, text b => a == b
  | _, _ => false

/-- Whether two lists of values are equal item by item. -/
def sameAll : List Value → List Value → Bool
  | [], [] => true
  | a :: as, b :: bs => same a b && sameAll as bs
  | _, _ => false

end

@[simp] theorem renderAll_eq_map (items : List Value) : renderAll items = items.map render := by
  induction items with
  | nil => rfl
  | cons value rest ih => simp [renderAll, ih]

end Value

end Cascade
