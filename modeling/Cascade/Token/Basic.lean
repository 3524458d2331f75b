import Cascade.Operator
import Cascade.Source

/-!
# Tokens

The words and marks that a stylesheet is made of.  A token keeps its source text and its place, and
the comments that stand before it.
-/

set_option autoImplicit false

namespace Cascade

/-! ## Kinds -/

/-- What a token is. -/
inductive TokenKind where
  /-- The end of the text. -/
  | eof
  /-- A word such as `red`, `#fff` or `sans-serif`. -/
  | identifier
  /-- A name after `$`, such as `$width`, or one in braces. -/
  | variableName
  /-- A name after `@`, such as `@media`. -/
  | command
  /-- A number, which may carry a unit. -/
  | number
  /-- A text in quotes. -/
  | string
  | trueWord
  | falseWord
  | nullWord
  | andWord
  | orWord
  | notWord
  | openParen
  | closeParen
  | openBracket
  | closeBracket
  | openBrace
  | closeBrace
  | semicolon
  | comma
  | colon
  | doubleColon
  | dot
  | dollar
  | atSign
  | question
  | caret
  | ampersand
  | pipe
  | tilde
  | bang
  | plus
  | minus
  | asterisk
  | slash
  | percent
  | doubleAmpersand
  | doublePipe
  | doubleEquals
  | notEquals
  | less
  | lessOrEqual
  | greater
  | greaterOrEqual
  | equals
  /-- An assignment operator such as `+=`. -/
  | assign
  deriving DecidableEq, Repr, Inhabited

namespace TokenKind

/-- The marks and keywords that are always written the same way. -/
def spelling : TokenKind → String
  | trueWord => "true"
  | falseWord => "false"
  | nullWord => "null"
  | andWord => "and"
  | orWord => "or"
  | notWord => "not"
  | openParen => "("
  | closeParen => ")"
  | openBracket => "["
  | closeBracket => "]"
  | openBrace => "\x7b"
  | closeBrace => "\x7d"
  | semicolon => ";"
  | comma => ","
  | colon => ":"
  | doubleColon => "::"
  | dot => "."
  | dollar => "$"
  | atSign => "@"
  | question => "?"
  | caret => "^"
  | ampersand => "&"
  | pipe => "|"
  | tilde => "~"
  | bang => "!"
  | plus => "+"
  | minus => "-"
  | asterisk => "*"
  | slash => "/"
  | percent => "%"
  | doubleAmpersand => "&&"
  | doublePipe => "||"
  | doubleEquals => "=="
  | notEquals => "!="
  | less => "<"
  | lessOrEqual => "<="
  | greater => ">"
  | greaterOrEqual => ">="
  | equals => "="
  | eof | identifier | variableName | command | number | string | assign => ""

/-- The name of the kind in error messages and listings. -/
def describe : TokenKind → String
  | eof => "end of file"
  | identifier => "identifier"
  | variableName => "variable"
  | command => "command"
  | number => "number"
  | string => "string"
  | assign => "assignment operator"
  | kind => "`" ++ kind.spelling ++ "`"

/-- The kinds that may start or continue a selector. -/
def isSelectorPart : TokenKind → Bool
  | identifier | asterisk | colon | doubleColon | dot | openBracket | ampersand | minus | greater
  | plus | tilde | notWord | number => true
  | _ => false

end TokenKind

/-! ## Tokens -/

/-- A token.  `text` is its source text and `span` the place of that text; `value` is the name of
a word, variable or command, or the contents of a string. -/
structure Token where
  kind : TokenKind := .eof
  text : String := ""
  span : Span := {}
  line : Nat := 0
  /-- Whether blanks or comments separate the token from the one before it. -/
  spaced : Bool := false
  value : String := ""
  number : Float := 0.0
  unit : Option String := none
  quote : Option Quote := none
  assign : Option AssignOp := none
  comments : List Comment := []
  deriving Inhabited

/-- A token in error messages: its source text, or the end of the file. -/
def Token.describe (token : Token) : String :=
  match token.kind with
  | .eof => TokenKind.eof.describe
  | _ => "`" ++ token.text ++ "`"

end Cascade
