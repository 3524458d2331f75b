import Cascade.Node.Basic
import Cascade.Token.Stream

/-!
# Parsing values and expressions

Values stand after the colon of a property, on the right of assignments, and as arguments.  Their
parts are separated by commas, and within those by blanks.  In a value the style language's own
rules for `+`, `-` and `/` apply: a sign that touches the word after it and not the one before it
begins a new part, and a slash between two numbers is kept.  Conditions and `@expr(...)` are
expressions in the usual sense, with comparisons and assignments as well.

The grammar, from loose to tight:

```
expression  → default ( "=" expression )?
default     → or ( "?" or )*
or          → and ( "or" and )*
and         → equality ( "and" equality )*
equality    → relation ( ( "==" | "!=" ) relation )*
relation    → sum ( ( "<" | "<=" | ">" | ">=" ) sum )*
sum         → product ( ( "+" | "-" ) product )*
product     → unary ( ( "*" | "/" | "%" ) unary )*
unary       → ( "-" | "+" | "!" | "not" ) unary | primary
primary     → word | word "(" arguments ")" | command ( "(" arguments ")" )? | "(" expression ")"
```

Parsers take a number of steps that bounds their depth.  Every loop and every level of the grammar
takes one step, and a loop only goes on after it has consumed a token, so a number proportional to
the length of the text is enough.
-/

set_option autoImplicit false

namespace Cascade

/-! ## Modes and levels -/

/-- Whether the rules of values or those of expressions apply. -/
inductive Mode where
  | value
  | expression
  deriving DecidableEq, Repr, Inhabited

/-- The number of levels of binary operators. -/
def operatorLevels : Nat := 7

/-- The operator a token stands for at a level of the grammar; level zero binds tightest.
Comparisons by order are no operators in values. -/
def operatorAt (mode : Mode) : Nat → TokenKind → Option BinaryOp
  | 0, .asterisk => some .multiply
  | 0, .slash => some .divide
  | 0, .percent => some .modulus
  | 1, .plus => some .add
  | 1, .minus => some .subtract
  | 2, .less => if mode = .expression then some .less else none
  | 2, .lessOrEqual => if mode = .expression then some .lessOrEqual else none
  | 2, .greater => if mode = .expression then some .greater else none
  | 2, .greaterOrEqual => if mode = .expression then some .greaterOrEqual else none
  | 3, .doubleEquals => some .equals
  | 3, .notEquals => some .notEquals
  | 4, .andWord | 4, .doubleAmpersand => some .and
  | 5, .orWord | 5, .doublePipe => some .or
  | 6, .question => some .default
  | _, _ => none

/-- The operator a token stands for in front of a value. -/
def unaryAt : TokenKind → Option UnaryOp
  | .minus => some .minus
  | .plus => some .plus
  | .bang | .notWord => some .not
  | _ => none

/-- Functions whose arguments are kept as text. -/
def rawFunctions : List String :=
  ["calc", "var", "env", "min", "max", "clamp", "attr"]

namespace Parse

open Reading

/-! ## Looking ahead -/

/-- Fails because the steps are used up. -/
def outOfSteps {α : Type} : Reading α := do
  failAt (← token).line .outOfSteps

/-- Whether `!important` comes next. -/
def importantAhead : Reading Bool := do
  let next ← peekNth 1
  pure (next.kind = .identifier ∧ next.value = "important")

/-- Whether a value ends here. -/
def atValueEnd : Reading Bool := do
  match ← peek with
  | .semicolon | .closeBrace | .openBrace | .comma | .closeParen | .less | .eof => pure true
  | .bang => importantAhead
  | _ => pure false

/-- Whether a sign begins a new part of a value, as in `10px -20px`. -/
def signStartsPart (mode : Mode) (op : BinaryOp) (sign : Token) : Reading Bool := do
  if mode = .value ∧ (op = .add ∨ op = .subtract) ∧ sign.spaced then
    pure (!(← peekNth 1).spaced)
  else pure false

/-- Whether a slash separates two numbers, as in `12px/1.5`. -/
def slashIsKept (mode : Mode) (op : BinaryOp) (left : Node) : Reading Bool := do
  match left.kind with
  | .number .. =>
    if mode = .value ∧ op = .divide then pure ((← peekNth 1).kind = .number) else pure false
  | _ => pure false

/-- Two operands and the operator between them. -/
def joined (kept : Bool) (op : BinaryOp) (left right : Node) : Node :=
  .make (if kept then .slash else .binary op) left.line [left, right]

/-- A text in lower case letters. -/
def lowercase (text : String) : String :=
  String.ofList (text.toList.map Char.toLower)

/-- The rest of a raw argument after the opening parenthesis. -/
def finishRaw (line : Nat) : Reading Node := do
  let text ← rawArgument
  let _ ← expect .closeParen
  pure (.make .params line [.make (.raw text) line])

/-! ## The grammar -/

mutual

/-- Values separated by blanks; at least one. -/
def valueEntry (mode : Mode) : Nat → Reading Node
  | 0 => outOfSteps
  | steps + 1 => do
    let line := (← peekNth 0).line
    match ← entryValues mode steps with
    | [] => do
      let _ ← advance
      unexpected "value"
    | [value] => pure value
    | values => pure (.make .list line values)
termination_by structural steps => steps

/-- Values up to the end of an entry. -/
def entryValues (mode : Mode) : Nat → Reading (List Node)
  | 0 => outOfSteps
  | steps + 1 => do
    if ← atValueEnd then pure []
    else
      let value ← expression mode steps
      let rest ← entryValues mode steps
      pure (value :: rest)
termination_by structural steps => steps

/-- Arguments in parentheses. -/
def arguments (mode : Mode) (line : Nat) : Nat → Reading Node
  | 0 => outOfSteps
  | steps + 1 => do
    let _ ← expect .openParen
    let arguments ← moreArguments mode steps
    pure (.make .params line arguments)
termination_by structural steps => steps

/-- Arguments up to the closing parenthesis. -/
def moreArguments (mode : Mode) : Nat → Reading (List Node)
  | 0 => outOfSteps
  | steps + 1 => do
    if ← accept .closeParen then pure []
    else
      let argument ← valueEntry mode steps
      if ← accept .comma then
        let rest ← moreArguments mode steps
        pure (argument :: rest)
      else
        let _ ← expect .closeParen
        pure [argument]
termination_by structural steps => steps

/-- An expression.  Only a variable can be assigned to. -/
def expression (mode : Mode) : Nat → Reading Node
  | 0 => outOfSteps
  | steps + 1 => do
    let left ← binary mode operatorLevels steps
    if mode = .value then pure left
    else
      match ← peek with
      | .equals | .assign => do
        let _ ← advance
        let operator := (← token).assign
        match left.kind with
        | .reference name => do
          let right ← expression mode steps
          pure (.make (.assign name operator) left.line [right.placed .initializer])
        | _ => failAt left.line .invalidTarget
      | _ => pure left
termination_by structural steps => steps

/-- Operands of the levels below `level`, joined by its operators from left to right. -/
def binary (mode : Mode) (level : Nat) : Nat → Reading Node
  | 0 => outOfSteps
  | steps + 1 =>
    match level with
    | 0 => unary mode steps
    | level + 1 => do
      let first ← binary mode level steps
      moreOperands mode level first steps
termination_by structural steps => steps

/-- The operands of a level after the first one, each after an operator. -/
def moreOperands (mode : Mode) (level : Nat) (left : Node) : Nat → Reading Node
  | 0 => outOfSteps
  | steps + 1 => do
    let sign ← peekNth 0
    match operatorAt mode level sign.kind with
    | none => pure left
    | some op =>
      if ← signStartsPart mode op sign then pure left
      else
        let kept ← slashIsKept mode op left
        let _ ← advance
        let right ← binary mode level steps
        moreOperands mode level (joined kept op left right) steps
termination_by structural steps => steps

/-- An operand with operators in front of it.  A sign that touches a number belongs to the number,
and a minus that touches a word belongs to the word. -/
def unary (mode : Mode) : Nat → Reading Node
  | 0 => outOfSteps
  | steps + 1 => do
    let sign ← peekNth 0
    match unaryAt sign.kind with
    | none => primary mode steps
    | some op => do
      let _ ← advance
      let operand ← peekNth 0
      if !operand.spaced ∧ op ≠ .not ∧ operand.kind = .number then
        let _ ← advance
        let value := if op = .minus then -operand.number else operand.number
        pure (.make (.number value operand.unit) sign.line)
      else if !operand.spaced ∧ op = .minus ∧ operand.kind = .identifier then
        let _ ← advance
        word mode ("-" ++ operand.value) sign.line steps
      else
        let inner ← unary mode steps
        pure (.make (.unary op) sign.line [inner])
termination_by structural steps => steps

/-- A literal, a variable, a function or command with its arguments, or an expression in
parentheses. -/
def primary (mode : Mode) : Nat → Reading Node
  | 0 => outOfSteps
  | steps + 1 => do
    let kind ← advance
    let current ← token
    let line := current.line
    match kind with
    | .number => pure (.make (.number current.number current.unit) line)
    | .string => pure (.make (.string current.value (current.quote.getD .double)) line)
    | .trueWord => pure (.make (.boolean true) line)
    | .falseWord => pure (.make (.boolean false) line)
    | .nullWord => pure (.make .null line)
    | .identifier => word mode current.value line steps
    | .variableName => pure (.make (.reference current.value) line)
    | .command => command mode current.value line steps
    | .openParen => do
      let inner ← expression mode steps
      let _ ← expect .closeParen
      pure inner
    | _ => unexpected "value"
termination_by structural steps => steps

/-- A word, or a function if an opening parenthesis touches the word. -/
def word (mode : Mode) (name : String) (line : Nat) : Nat → Reading Node
  | 0 => outOfSteps
  | steps + 1 => do
    let next ← peekNth 0
    if next.kind ≠ .openParen ∨ next.spaced then pure (.make (.identifier name) line)
    else
      let params ← functionArguments mode (lowercase name) line steps
      pure (.make (.function name) line [params.placed .params])
termination_by structural steps => steps

/-- The arguments of a function.  Some functions keep theirs as text, and so does `url` unless a
string, a variable or a command follows. -/
def functionArguments (mode : Mode) (name : String) (line : Nat) : Nat → Reading Node
  | 0 => outOfSteps
  | steps + 1 => do
    if rawFunctions.contains name then
      let _ ← expect .openParen
      finishRaw line
    else if name = "url" then
      let _ ← expect .openParen
      if ← nextIsRaw then finishRaw line
      else
        putBack
        arguments mode line steps
    else arguments mode line steps
termination_by structural steps => steps

/-- A command: `@expr(...)` holds an expression, `@raw("...")` is text, and any other one may have
arguments if an opening parenthesis touches it. -/
def command (mode : Mode) (name : String) (line : Nat) : Nat → Reading Node
  | 0 => outOfSteps
  | steps + 1 => do
    if name = "expr" then
      let _ ← expect .openParen
      let inner ← expression .expression steps
      let _ ← expect .closeParen
      pure inner
    else if name = "raw" then
      let _ ← expect .openParen
      let text := (← expect .string).value
      let _ ← expect .closeParen
      pure (.make (.raw text) line)
    else
      let next ← peekNth 0
      let params ←
        if next.kind = .openParen ∧ !next.spaced then arguments mode line steps
        else pure (.make .params line)
      pure (.make (.command name) line [params.placed .params])
termination_by structural steps => steps

end

/-- The parts of a value after the first one, each after a comma. -/
def moreEntries (mode : Mode) : Nat → Reading (List Node)
  | 0 => outOfSteps
  | steps + 1 => do
    if ← accept .comma then
      let entry ← valueEntry mode steps
      let rest ← moreEntries mode steps
      pure (entry :: rest)
    else pure []

/-- A value: parts separated by commas. -/
def valueList (mode : Mode) (steps : Nat) : Reading Node := do
  let line := (← peekNth 0).line
  let first ← valueEntry mode steps
  match ← moreEntries mode steps with
  | [] => pure first
  | rest => pure (.make .comma line (first :: rest))

end Parse

end Cascade
