import Cascade.Parse.Expression

/-!
# Expressions

Expressions have a grammar of their own: nine levels, from operands over seven levels of binary
operators, which group to the left, to assignments, which group to the right.
-/

set_option autoImplicit false

namespace Cascade

open List

/-! ## Literals -/

/-- A name from end to end: a dot in it has the start of another name after it. -/
def isName : List Char → Bool
  | [] => true
  | c :: cs =>
    (Lexeme.isNameChar c || (c == '.' && cs.head?.any Lexeme.isNameStart)) && isName cs

/-- A word that is not a keyword: a name, a name after `#`, or hexadecimal digits after `0x`. -/
def isWord : List Char → Bool
  | '#' :: cs => cs.head?.any Lexeme.isNameChar && isName cs
  | '0' :: 'x' :: cs => cs.head?.any Lexeme.isHexDigit && cs.all Lexeme.isHexDigit
  | c :: cs =>
    Lexeme.isNameStart c && isName (c :: cs) &&
      Lexeme.wordKind (String.ofList (c :: cs)) == .identifier
  | [] => false

/-- The inside of a quoted string: a backslash takes the next character with it, the quotation mark
stands only after a backslash, and there is no line break. -/
def isQuotable (mark : Char) : List Char → Bool
  | [] => true
  | [c] => c != mark && c != '\n' && c != '\\'
  | c :: d :: cs =>
    if c = '\\' then d != '\n' && isQuotable mark cs
    else c != mark && c != '\n' && isQuotable mark (d :: cs)

/-- A number without a sign: digits, digits after the point, and a unit, which is a percent sign or
letters; `x` would make a hexadecimal word of it. -/
structure Numeral where
  whole : List Char
  fraction : List Char := []
  unit : List Char := []
  whole_digits : whole.all Char.isDigit = true := by decide
  fraction_digits : fraction.all Char.isDigit = true := by decide
  nonempty : whole ≠ [] ∨ fraction ≠ [] := by decide
  unit_letters : unit = ['%'] ∨ unit.all Char.isAlpha = true ∧ unit.head? ≠ some 'x' := by decide

/-- A word that is not a keyword. -/
structure Word where
  text : List Char
  isWord : isWord text = true := by decide

/-- The name of a variable. -/
structure VariableName where
  text : List Char
  nonempty : text ≠ [] := by decide
  isName : isName text = true := by decide

/-- A string in quotes, with its escapes as they are written. -/
structure QuotedText where
  quote : Quote
  body : List Char
  isQuotable : isQuotable quote.char body = true := by decide

/-- A literal or a variable. -/
inductive Literal where
  | number (numeral : Numeral)
  | string (quoted : QuotedText)
  | word (word : Word)
  | boolean (value : Bool)
  | null
  | reference (name : VariableName)

/-- The text of a numeral up to its unit. -/
def Numeral.digits (numeral : Numeral) : List Char :=
  if numeral.fraction = [] then numeral.whole else numeral.whole ++ '.' :: numeral.fraction

/-- The name of a variable after a `$`, in braces if it could not stand there without. -/
def VariableName.written (name : VariableName) : List Char :=
  if name.text.head?.any Lexeme.isNameStart then '$' :: name.text
  else '$' :: '\x7b' :: name.text ++ ['\x7d']

def VariableName.lexeme (name : VariableName) : Lexeme :=
  { kind := .variableName, text := name.written, value := String.ofList name.text }

def Word.lexeme (word : Word) : Lexeme :=
  { kind := .identifier, text := word.text, value := String.ofList word.text }

/-- The mark or keyword of a kind that is always written the same way. -/
def markLexeme (kind : TokenKind) : Lexeme :=
  { kind, text := kind.spelling.toList }

/-- A keyword, which is also a value in its own right. -/
def keywordLexeme (kind : TokenKind) : Lexeme :=
  { kind, text := kind.spelling.toList, value := kind.spelling }

namespace Literal

/-- What a literal stands for in a tree. -/
def kind : Literal → Kind
  | number n =>
    .number (Number.ofDigits n.whole n.fraction)
      (if n.unit = [] then none else some (String.ofList n.unit))
  | string q => .string (String.ofList q.body) q.quote
  | word w => .identifier (String.ofList w.text)
  | boolean value => .boolean value
  | null => .null
  | reference name => .reference (String.ofList name.text)

/-- The token a literal is written with. -/
def lexeme : Literal → Lexeme
  | number n =>
    { kind := .number
      text := n.digits ++ n.unit
      number := Number.ofDigits n.whole n.fraction
      unit := if n.unit = [] then none else some (String.ofList n.unit) }
  | string q =>
    { kind := .string
      text := q.quote.char :: q.body ++ [q.quote.char]
      value := String.ofList q.body
      quote := some q.quote }
  | word w => w.lexeme
  | boolean true => keywordLexeme .trueWord
  | boolean false => keywordLexeme .falseWord
  | null => keywordLexeme .nullWord
  | reference name => name.lexeme

end Literal

/-! ## Expressions -/

/-- An expression. -/
inductive Expression where
  | literal (literal : Literal)
  /-- A word with a minus in front of it, such as `-moz-box`. -/
  | dashed (word : Word)
  | unary (op : UnaryOp) (operand : Expression)
  | binary (op : BinaryOp) (left right : Expression)
  /-- An assignment, which may combine the old value with the new one. -/
  | assign (target : VariableName) (op : Option AssignOp) (value : Expression)

/-- The tree of an expression on one line. -/
def Expression.node (line : Nat) : Expression → Node
  | literal l => .make l.kind line
  | dashed w => .make (.identifier ("-" ++ String.ofList w.text)) line
  | unary op e => .make (.unary op) line [e.node line]
  | binary op l r => .make (.binary op) line [l.node line, r.node line]
  | assign x op e =>
    .make (.assign (String.ofList x.text) op) line [(e.node line).placed .initializer]

@[simp] theorem Expression.line_node (line : Nat) (e : Expression) : (e.node line).line = line := by
  cases e <;> rfl

/-! ## Operators -/

namespace BinaryOp

/-- How tightly an operator binds; level zero binds tightest. -/
def level : BinaryOp → Nat
  | multiply | divide | modulus => 0
  | add | subtract => 1
  | less | lessOrEqual | greater | greaterOrEqual => 2
  | equals | notEquals => 3
  | and => 4
  | or => 5
  | default => 6

/-- The token an operator is written with. -/
def token : BinaryOp → TokenKind
  | add => .plus
  | subtract => .minus
  | multiply => .asterisk
  | divide => .slash
  | modulus => .percent
  | equals => .doubleEquals
  | notEquals => .notEquals
  | less => .less
  | lessOrEqual => .lessOrEqual
  | greater => .greater
  | greaterOrEqual => .greaterOrEqual
  | and => .andWord
  | or => .orWord
  | default => .question

theorem level_lt (op : BinaryOp) : op.level < operatorLevels := by
  cases op <;> decide

theorem operatorAt_token (op : BinaryOp) :
    operatorAt .expression op.level op.token = some op := by
  cases op <;> rfl

end BinaryOp

/-- The token a unary operator is written with. -/
def UnaryOp.token : UnaryOp → TokenKind
  | plus => .plus
  | minus => .minus
  | not => .bang

theorem unaryAt_token (op : UnaryOp) : unaryAt op.token = some op := by
  cases op <;> rfl

/-- The token of an assignment. -/
def assignToken : Option AssignOp → TokenKind
  | none => .equals
  | some _ => .assign

/-- The level of assignments. -/
def assignLevel : Nat := operatorLevels + 1

end Cascade
