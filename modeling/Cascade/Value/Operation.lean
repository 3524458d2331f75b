import Cascade.Error
import Cascade.Value.Basic

/-!
# Operators on values

Arithmetic, comparison and logic.  Arithmetic on lists goes item by item, and anything computed
with null is null.  Numbers keep their unit; two different units go together only in a product or a
quotient with a percentage.
-/

set_option autoImplicit false

namespace Cascade

namespace Value

/-! ## Comparison -/

/-- Whether an ordering is what a comparison asks for. -/
def compares : BinaryOp → Ordering → Bool
  | .less, ordering => ordering == .lt
  | .lessOrEqual, ordering => ordering != .gt
  | .greater, ordering => ordering == .gt
  | .greaterOrEqual, ordering => ordering != .lt
  | _, _ => false

/-- The order of two numbers.  Numbers that cannot be compared count as equal. -/
def numberOrdering (a b : Float) : Ordering :=
  if a < b then .lt else if b < a then .gt else .eq

/-- The order of two texts, by code points. -/
def textOrdering (a b : String) : Ordering :=
  if a < b then .lt else if a = b then .eq else .gt

/-- The error of an operator between values it does not apply to. -/
def mismatch (op : BinaryOp) (left right : Value) : OperationError :=
  .typeMismatch op.symbol left.typeName right.typeName

/-! ## Numbers -/

/-- Two numbers made ready for an operator, and the unit of its result.  Fifty percent times ten
pixels are five pixels: in a product or a quotient a percentage next to another unit is taken as a
fraction. -/
def alignUnits (op : BinaryOp) (a b : Float) :
    Option String → Option String → Except OperationError (Float × Float × Option String)
  | none, none => .ok (a, b, none)
  | some u, none => .ok (a, b, some u)
  | none, some u => .ok (a, b, some u)
  | some u, some v =>
    let scaling := op = .multiply ∨ op = .divide
    if u = v then .ok (a, b, some u)
    else if scaling ∧ u = "%" then .ok (a / 100.0, b, some v)
    else if scaling ∧ v = "%" then .ok (a, b / 100.0, some u)
    else .error (.unitMismatch op.symbol u v)

/-- An operator on two numbers without units. -/
def arithmetic (op : BinaryOp) (a b : Float) : Except OperationError Float :=
  match op with
  | .add => .ok (a + b)
  | .subtract => .ok (a - b)
  | .multiply => .ok (a * b)
  | .divide => if b == 0.0 then .error .divisionByZero else .ok (a / b)
  | .modulus => if b == 0.0 then .error .divisionByZero else .ok (Number.remainder a b)
  | _ => .error (mismatch op (number a none) (number b none))

/-- An operator on two numbers with units. -/
def numbers (op : BinaryOp) (a : Float) (u : Option String) (b : Float) (v : Option String) :
    Except OperationError Value := do
  let (a, b, unit) ← alignUnits op a b u v
  if op.isComparison then pure (boolean (compares op (numberOrdering a b)))
  else pure (number (← arithmetic op a b) unit)

/-! ## Values that are not lists -/

/-- An operator on two values taken as a whole.  Adding to a string joins texts; the result has the
quotes of the first string. -/
def scalar (op : BinaryOp) (left right : Value) : Except OperationError Value :=
  match left, right with
  | null, other =>
    if op.isArithmetic then .ok null else textual op null other
  | other, null =>
    if op.isArithmetic then .ok null else textual op other null
  | number a u, number b v => numbers op a u b v
  | left, right => textual op left right
where
  /-- An operator on values of which one is a string. -/
  textual (op : BinaryOp) (left right : Value) : Except OperationError Value :=
    match op, left, right with
    | .add, string a quote, right => .ok (string (a ++ right.render) quote)
    | .add, left, string b quote => .ok (string (left.render ++ b) quote)
    | op, string a p, string b q =>
      if op.isComparison then .ok (boolean (compares op (textOrdering a b)))
      else .error (mismatch op (string a p) (string b q))
    | op, left, right => .error (mismatch op left right)

/-! ## Lists -/

mutual

/-- An arithmetic operator with a list on the right, item by item, and a value that is not a list
on the left. -/
def spreadRight (op : BinaryOp) (left : Value) : Value → Except OperationError Value
  | list items => do pure (list (← spreadRightAll op left items))
  | right => scalar op left right

/-- An arithmetic operator between one value and each item of a list. -/
def spreadRightAll (op : BinaryOp) (left : Value) :
    List Value → Except OperationError (List Value)
  | [] => .ok []
  | item :: rest => do
    let first ← spreadRight op left item
    let rest ← spreadRightAll op left rest
    pure (first :: rest)

end

mutual

/-- An arithmetic operator, item by item on lists.  Two lists have to be of the same length. -/
def spread (op : BinaryOp) : Value → Value → Except OperationError Value
  | list items, right =>
    match right with
    | null => .ok null
    | list others =>
      if items.length ≠ others.length then
        .error (.listLengthMismatch items.length others.length)
      else do pure (list (← spreadPairs op items others))
    | right => do pure (list (← spreadLeftAll op items right))
  | null, _ => .ok null
  | left, right => spreadRight op left right

/-- An arithmetic operator on two lists, item by item. -/
def spreadPairs (op : BinaryOp) :
    List Value → List Value → Except OperationError (List Value)
  | item :: rest, other :: others => do
    let first ← spread op item other
    let rest ← spreadPairs op rest others
    pure (first :: rest)
  | _, _ => .ok []

/-- An arithmetic operator between each item of a list and one value. -/
def spreadLeftAll (op : BinaryOp) :
    List Value → Value → Except OperationError (List Value)
  | [], _ => .ok []
  | item :: rest, right => do
    let first ← spread op item right
    let rest ← spreadLeftAll op rest right
    pure (first :: rest)

end

/-! ## The operators -/

/-- **An operator between two values.** -/
def binary (op : BinaryOp) (left right : Value) : Except OperationError Value :=
  match op with
  | .default => .ok (match left with
    | null => right
    | left => left)
  | .and => .ok (boolean (left.isTruthy && right.isTruthy))
  | .or => .ok (boolean (left.isTruthy || right.isTruthy))
  | .equals => .ok (boolean (same left right))
  | .notEquals => .ok (boolean (!same left right))
  | op => if op.isArithmetic then spread op left right else scalar op left right

mutual

/-- A sign in front of a value.  It goes item by item through lists, and a minus in front of a word
becomes part of it. -/
def sign (op : UnaryOp) : Value → Except EvalError Value
  | number value unit => .ok (number (if op = .minus then -value else value) unit)
  | list items => do pure (list (← signAll op items))
  | identifier name =>
    if op = .minus then .ok (identifier ("-" ++ name))
    else .error (.unsupportedOperand op.symbol (identifier name).typeName)
  | operand => .error (.unsupportedOperand op.symbol operand.typeName)

/-- A sign in front of each item of a list. -/
def signAll (op : UnaryOp) : List Value → Except EvalError (List Value)
  | [] => .ok []
  | item :: rest => do
    let first ← sign op item
    let rest ← signAll op rest
    pure (first :: rest)

end

/-- **An operator in front of a value.** -/
def unary (op : UnaryOp) (operand : Value) : Except EvalError Value :=
  match op with
  | .not => .ok (boolean (!operand.isTruthy))
  | op => sign op operand

end Value

end Cascade
