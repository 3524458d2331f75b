/-!
# Operators, quotes and comments

The small closed vocabularies that tokens, trees and values share.
-/

set_option autoImplicit false

namespace Cascade

/-! ## Quotes -/

/-- The quotation mark around a string. -/
inductive Quote where
  | single
  | double
  deriving DecidableEq, Repr, Inhabited

/-- The quotation mark itself. -/
def Quote.char : Quote → Char
  | .single => '\''
  | .double => '"'

/-- A text between two quotation marks.  Nothing is escaped: strings keep their escapes as they
were written. -/
def Quote.wrap (quote : Quote) (text : String) : String :=
  quote.char.toString ++ text ++ quote.char.toString

/-! ## Operators -/

/-- An operator between two values. -/
inductive BinaryOp where
  | add
  | subtract
  | multiply
  | divide
  | modulus
  | equals
  | notEquals
  | less
  | lessOrEqual
  | greater
  | greaterOrEqual
  | and
  | or
  | default
  deriving DecidableEq, Repr, Inhabited

namespace BinaryOp

/-- The operator as it is written. -/
def symbol : BinaryOp → String
  | add => "+"
  | subtract => "-"
  | multiply => "*"
  | divide => "/"
  | modulus => "%"
  | equals => "=="
  | notEquals => "!="
  | less => "<"
  | lessOrEqual => "<="
  | greater => ">"
  | greaterOrEqual => ">="
  | and => "and"
  | or => "or"
  | default => "?"

/-- The four operators that compare by order. -/
def isComparison : BinaryOp → Bool
  | less | lessOrEqual | greater | greaterOrEqual => true
  | _ => false

/-- The five operators that compute with numbers. -/
def isArithmetic : BinaryOp → Bool
  | add | subtract | multiply | divide | modulus => true
  | _ => false

/-- Every operator, in order of declaration. -/
def all : List BinaryOp :=
  [add, subtract, multiply, divide, modulus, equals, notEquals, less, lessOrEqual, greater,
    greaterOrEqual, and, or, default]

/-- The operator with a given symbol. -/
def ofSymbol? (text : String) : Option BinaryOp :=
  all.find? fun op => op.symbol == text

end BinaryOp

/-- An operator in front of a value. -/
inductive UnaryOp where
  | plus
  | minus
  | not
  deriving DecidableEq, Repr, Inhabited

/-- The operator as it is shown; `not` may also be written as a word. -/
def UnaryOp.symbol : UnaryOp → String
  | .plus => "+"
  | .minus => "-"
  | .not => "!"

/-- The operator with a given symbol. -/
def UnaryOp.ofSymbol? (text : String) : Option UnaryOp :=
  [UnaryOp.plus, .minus, .not].find? fun op => op.symbol == text

/-- The operator of an assignment that also reads the old value, such as `+=`. -/
inductive AssignOp where
  | add
  | subtract
  | multiply
  | divide
  | modulus
  | default
  deriving DecidableEq, Repr, Inhabited

/-- The operator that combines the old value with the new one. -/
def AssignOp.binary : AssignOp → BinaryOp
  | .add => .add
  | .subtract => .subtract
  | .multiply => .multiply
  | .divide => .divide
  | .modulus => .modulus
  | .default => .default

/-- The operator whose symbol, followed by `=`, starts with the given character. -/
def AssignOp.ofChar? : Char → Option AssignOp
  | '+' => some .add
  | '-' => some .subtract
  | '*' => some .multiply
  | '/' => some .divide
  | '%' => some .modulus
  | '?' => some .default
  | _ => none

/-! ## Comments -/

/-- Where a comment stands: after code on the same line, after a blank line, or on its own. -/
inductive CommentPlace where
  | trailing
  | spaced
  | leading
  deriving DecidableEq, Repr, Inhabited

/-- A comment with its trimmed text and the line it starts on. -/
structure Comment where
  text : String
  place : CommentPlace
  line : Nat
  deriving DecidableEq, Repr, Inhabited

end Cascade
