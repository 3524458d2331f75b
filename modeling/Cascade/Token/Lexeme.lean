import Cascade.Error
import Cascade.Number.Decimal
import Cascade.Token.Basic

/-!
# Reading one token

`Lexeme.read` looks at the front of a text and says which token stands there.  It looks at nothing
else: neither at the place of the text in its source nor at the tokens before it.
-/

set_option autoImplicit false

namespace Cascade

/-- A token without its place: its kind, its source text, and what the text says. -/
structure Lexeme where
  kind : TokenKind
  text : List Char
  value : String := ""
  number : Float := 0.0
  unit : Option String := none
  quote : Option Quote := none
  assign : Option AssignOp := none

namespace Lexeme

/-! ## Character classes -/

/-- The characters a name may start with. -/
def isNameStart (c : Char) : Bool :=
  c.isAlpha || c == '_'

/-- The characters a name may go on with. -/
def isNameChar (c : Char) : Bool :=
  c.isAlphanum || c == '_' || c == '-'

/-- The sixteen hexadecimal digits, in either letter case. -/
def isHexDigit (c : Char) : Bool :=
  c.isDigit || ('a' ≤ c && c ≤ 'f') || ('A' ≤ c && c ≤ 'F')

/-- The ASCII characters that are neither letters, digits, blanks nor controls. -/
def isPunctuation (c : Char) : Bool :=
  '!' ≤ c && c ≤ '~' && !c.isAlphanum

/-! ## Pieces of tokens -/

/-- The name at the front of a text.  A dot belongs to it only if another name follows the dot. -/
def nameChars : List Char → List Char
  | [] => []
  | c :: cs =>
    if isNameChar c || (c == '.' && cs.head?.any isNameStart) then c :: nameChars cs else []

/-- The text up to the closing quotation mark.  A backslash keeps the character after it from
closing the string; a line break never stands inside one. -/
def quotedBody? (mark : Char) : List Char → Option (List Char)
  | [] => none
  | [c] => if c = mark then some [] else none
  | c :: d :: cs =>
    if c = mark then some []
    else if c = '\n' then none
    else if c = '\\' then
      if d = '\n' then none else (quotedBody? mark cs).map fun body => c :: d :: body
    else (quotedBody? mark (d :: cs)).map fun body => c :: body

/-- The keywords; every other word is an identifier. -/
def wordKind (word : String) : TokenKind :=
  if word = "true" then .trueWord
  else if word = "false" then .falseWord
  else if word = "null" then .nullWord
  else if word = "and" then .andWord
  else if word = "or" then .orWord
  else if word = "not" then .notWord
  else .identifier

/-- The marks of two characters. -/
def doubleMark? : Char → Char → Option TokenKind
  | '&', '&' => some .doubleAmpersand
  | '|', '|' => some .doublePipe
  | '=', '=' => some .doubleEquals
  | '!', '=' => some .notEquals
  | '<', '=' => some .lessOrEqual
  | '>', '=' => some .greaterOrEqual
  | ':', ':' => some .doubleColon
  | _, _ => none

/-- The marks of one character. -/
def singleMark? : Char → Option TokenKind
  | '(' => some .openParen
  | ')' => some .closeParen
  | '[' => some .openBracket
  | ']' => some .closeBracket
  | '\x7b' => some .openBrace
  | '\x7d' => some .closeBrace
  | ';' => some .semicolon
  | ',' => some .comma
  | ':' => some .colon
  | '.' => some .dot
  | '$' => some .dollar
  | '@' => some .atSign
  | '?' => some .question
  | '^' => some .caret
  | '&' => some .ampersand
  | '|' => some .pipe
  | '~' => some .tilde
  | '!' => some .bang
  | '+' => some .plus
  | '-' => some .minus
  | '*' => some .asterisk
  | '/' => some .slash
  | '%' => some .percent
  | '<' => some .less
  | '>' => some .greater
  | '=' => some .equals
  | _ => none

/-! ## Tokens of one kind -/

/-- The name after a `$` or `@`. -/
def readNamed (kind : TokenKind) (mark : Char) (cs : List Char) : Lexeme :=
  let name := nameChars cs
  { kind, text := mark :: name, value := String.ofList name }

/-- A word that begins with `#`; it keeps the mark. -/
def readHash (cs : List Char) : Lexeme :=
  let text := '#' :: nameChars cs
  { kind := .identifier, text, value := String.ofList text }

/-- A word such as `0xff`, whose value is not computed. -/
def readHexWord (cs : List Char) : Lexeme :=
  let text := '0' :: 'x' :: cs.takeWhile isHexDigit
  { kind := .identifier, text, value := String.ofList text }

/-- A word: a keyword or an identifier. -/
def readWord (cs : List Char) : Lexeme :=
  let text := nameChars cs
  let word := String.ofList text
  { kind := wordKind word, text, value := word }

/-- The digits after the point, if a point with a digit after it stands in front. -/
def fractionDigits : List Char → List Char
  | '.' :: cs => cs.takeWhile Char.isDigit
  | _ => []

/-- The unit of a number: a percent sign or letters. -/
def unitChars : List Char → List Char
  | '%' :: _ => ['%']
  | cs => cs.takeWhile Char.isAlpha

/-- A number: digits, an optional fraction, and the unit. -/
def readNumber (cs : List Char) : Lexeme :=
  let whole := cs.takeWhile Char.isDigit
  let fraction := fractionDigits (cs.drop whole.length)
  let digits := if fraction = [] then whole else whole ++ '.' :: fraction
  let unit := unitChars (cs.drop digits.length)
  { kind := .number
    text := digits ++ unit
    number := Number.ofDigits whole fraction
    unit := if unit = [] then none else some (String.ofList unit) }

/-- A variable in braces, from after the opening brace on. -/
def readVariableBlock (cs : List Char) : Except LexError Lexeme :=
  let name := nameChars cs
  if name ≠ [] ∧ (cs.drop name.length).head? = some '\x7d' then
    .ok { kind := .variableName
          text := '$' :: '\x7b' :: name ++ ['\x7d']
          value := String.ofList name }
  else .error .invalidVariableBlock

/-- A string, from after the opening quotation mark on. -/
def readString (quote : Quote) (cs : List Char) : Except LexError Lexeme :=
  match quotedBody? quote.char cs with
  | some body =>
    .ok { kind := .string
          text := quote.char :: body ++ [quote.char]
          value := String.ofList body
          quote := some quote }
  | none => .error .unterminatedString

/-- A mark: an assignment operator, then two characters, then one. -/
def readMark (c : Char) (next : Option Char) : Except LexError Lexeme :=
  match next, AssignOp.ofChar? c, next.bind (doubleMark? c) with
  | some '=', some op, _ => .ok { kind := .assign, text := [c, '='], assign := some op }
  | some d, _, some kind => .ok { kind, text := [c, d] }
  | _, _, _ =>
    match singleMark? c with
    | some kind => .ok { kind, text := [c] }
    | none => .error (if isPunctuation c then .unknownOperator c else .illegalCharacter c)

/-! ## The token at the front of a text -/

/-- **The token at the front of a text**, or why there is none.  At the end of the text this is the
empty token `eof`. -/
def read : List Char → Except LexError Lexeme
  | [] => .ok { kind := .eof, text := [] }
  | c :: cs =>
    let next := cs.head?
    if c = '"' then readString .double cs
    else if c = '\'' then readString .single cs
    else if c = '$' ∧ next = some '\x7b' then readVariableBlock (cs.drop 1)
    else if c = '$' ∧ next.any isNameStart then .ok (readNamed .variableName c cs)
    else if c = '@' ∧ next.any (fun d => isNameStart d || d == '-') then
      .ok (readNamed .command c cs)
    else if c = '#' ∧ next.any isNameChar then .ok (readHash cs)
    else if c = '0' ∧ next = some 'x' ∧ (cs.drop 1).head?.any isHexDigit then
      .ok (readHexWord (cs.drop 1))
    else if c.isDigit ∨ (c = '.' ∧ next.any Char.isDigit) then .ok (readNumber (c :: cs))
    else if isNameStart c then .ok (readWord (c :: cs))
    else readMark c next

end Lexeme

end Cascade
