import Cascade.Parse.Prelude
import Cascade.Selector.Names

/-!
# Parsing statements

A stylesheet is a list of statements: properties, rules, assignments, mixins and their uses, and
commands.  What a statement is shows at its first tokens, except that a rule and a property are
told apart by what comes first after them, a brace or a semicolon.

Comments belong to the statement after them, but one that stands on the same line as the end of a
statement belongs to that statement.  A parser of statements therefore also gives back the comments
that belong to the statement before it.
-/

set_option autoImplicit false

namespace Cascade

namespace Parse

open Reading

/-! ## Small parts -/

/-- The end of a statement: a semicolon, which may be left out before a closing brace and at the
end of the text. -/
def endStatement : Reading Unit := do
  if ← accept .semicolon then pure ()
  else
    match ← peek with
    | .closeBrace | .eof => pure ()
    | _ => do
      let _ ← advance
      unexpected TokenKind.semicolon.describe

/-- An optional `!important`. -/
def important : Reading Bool := do
  if (← peek) = .bang then
    if ← importantAhead then
      let _ ← advance
      let _ ← advance
      pure true
    else pure false
  else pure false

/-- Whether a variable in braces is glued to more of a name, as at the start of a property name. -/
def startsName (first : Token) : Reading Bool := do
  if "$\x7b".toList.isPrefixOf first.text.toList then
    let next ← peekNth 1
    pure (!next.spaced ∧
      (next.kind = .identifier ∨ next.kind = .minus ∨ next.kind = .number))
  else pure false

/-- The value of a property and the end of its statement. -/
def propertyValue (name : Template) (line steps : Nat) : Reading Node := do
  let value ← valueList .value steps
  let important ← important
  endStatement
  pure (.make (.property name.text name.dynamic important) line [value])

/-- A property. -/
def property (steps : Nat) : Reading Node := do
  let line := (← peekNth 0).line
  let name ← propertyName steps
  propertyValue name line steps

/-- The parameters of a mixin up to the closing parenthesis, each with an optional default. -/
def parameters : Nat → Reading (List Node)
  | 0 => outOfSteps
  | steps + 1 => do
    if ← accept .closeParen then pure []
    else
      let name ← expect .variableName
      let default ←
        if ← accept .equals then pure [(← valueEntry .value steps).placed .initializer]
        else pure []
      let param := Node.make (.param name.value) name.line default
      if ← accept .comma then
        let rest ← parameters steps
        pure (param :: rest)
      else
        let _ ← expect .closeParen
        pure [param]

/-- The arguments of a directive: in parentheses that touch its name, as a value, or none. -/
def directiveArguments (line steps : Nat) : Reading Node := do
  let next ← peekNth 0
  if next.kind = .openParen ∧ !next.spaced then arguments .value line steps
  else if next.kind = .semicolon ∨ next.kind = .closeBrace ∨ next.kind = .eof then
    pure (.make .params line)
  else
    let value ← valueList .value steps
    pure (.make .params line [value])

/-- The vendor in the name of a command such as `-webkit-keyframes`. -/
def vendor? (name : String) : Option String :=
  let cs := name.toList
  if cs.head? = some '-' ∧ "-keyframes".toList.isSuffixOf cs then
    some (String.ofList (Text.trimChar '-' (Text.dropTail "keyframes".toList cs)))
  else none

/-- Gives comments to the statement before, which is the first of the list. -/
def commentPrevious (comments : List Comment) : List Node → List Node
  | [] => []
  | previous :: rest => previous.addComments comments :: rest

/-- A statement with its comments.  Trailing comments go to the statement before it if there is
one; they are given back together with those already `passed` on. -/
def withComments (hasPrevious : Bool) (comments : List Comment) (statement : Node)
    (passed : List Comment) : Node × List Comment :=
  let (trailing, own) := comments.partition fun comment => comment.place = .trailing
  if hasPrevious then (statement.addComments own, passed ++ trailing)
  else (statement.addComments (trailing ++ own), passed)

/-! ## Statements -/

mutual

/-- Statements up to a token of kind `closing`, or the end of the text.  `before` are the statements
read so far, the last one first. -/
def statementsFrom (closing : TokenKind) (before : List Node) : Nat → Reading (List Node)
  | 0 => outOfSteps
  | steps + 1 => do
    let kind ← peek
    if kind = closing ∨ kind = .eof then pure before.reverse
    else if kind = .semicolon then
      let _ ← advance
      statementsFrom closing before steps
    else
      let (statement, passed) ← statement (!before.isEmpty) steps
      statementsFrom closing (statement :: commentPrevious passed before) steps
termination_by structural steps => steps

/-- Statements in braces. -/
def block : Nat → Reading Node
  | 0 => outOfSteps
  | steps + 1 => do
    let line := (← expect .openBrace).line
    let statements ← statementsFrom .closeBrace [] steps
    let _ ← expect .closeBrace
    pure (.make .block line statements)
termination_by structural steps => steps

/-- A statement, and the comments that belong to the one before it. -/
def statement (hasPrevious : Bool) : Nat → Reading (Node × List Comment)
  | 0 => outOfSteps
  | steps + 1 => do
    let comments ← takeComments
    let first ← peekNth 0
    if first.kind = .command then
      let (node, passed) ← commandStatement hasPrevious steps
      pure (withComments hasPrevious comments node passed)
    else
      let node ←
        if first.kind = .variableName then
          if ← startsName first then ruleOrProperty steps else variableStatement steps
        else if first.kind.isSelectorPart then ruleOrProperty steps
        else
          let _ ← advance
          unexpected "statement"
      pure (withComments hasPrevious comments node [])
termination_by structural steps => steps

/-- A rule or a property: a rule if a brace comes before the next semicolon or closing brace. -/
def ruleOrProperty : Nat → Reading Node
  | 0 => outOfSteps
  | steps + 1 => do
    if (← find [.openBrace, .semicolon, .closeBrace]) = .openBrace then
      let line := (← peekNth 0).line
      let text ← prelude steps
      withBlock (.selector (splitSelectors text.text) text.dynamic) line steps
    else property steps
termination_by structural steps => steps

/-- A rule of the given kind, whose block comes next. -/
def withBlock (kind : Kind) (line : Nat) : Nat → Reading Node
  | 0 => outOfSteps
  | steps + 1 => do
    let rules ← block steps
    pure (.make kind line [rules.placed .rules])
termination_by structural steps => steps

/-- A statement that begins with a variable: a declaration, an assignment, a mixin, a use of a
mixin, or a property whose name is the variable. -/
def variableStatement : Nat → Reading Node
  | 0 => outOfSteps
  | steps + 1 => do
    let first ← expect .variableName
    let name := first.value
    let line := first.line
    match ← peek with
    | .equals => do
      let _ ← advance
      let value ← valueList .value steps
      endStatement
      pure (.make (.declaration name) line [value.placed .initializer])
    | .assign => do
      let operator := (← expect .assign).assign
      let value ← valueList .value steps
      endStatement
      pure (.make (.assign name operator) line [value.placed .initializer])
    | .openBrace => mixin name line steps
    | .openParen => do
      if ← groupBeforeBlock steps then mixin name line steps
      else
        let params ← arguments .value line steps
        call name false line params steps
    | .colon => do
      let _ ← advance
      propertyValue (Template.interpolate {} name) line steps
    | .semicolon | .closeBrace | .eof | .less => call name true line (.make .params line) steps
    | _ => do
      let _ ← advance
      unexpected "`=`, `\x7b`, `(`, `:` or `;`"
termination_by structural steps => steps

/-- The parameters and the block of a mixin. -/
def mixin (name : String) (line : Nat) : Nat → Reading Node
  | 0 => outOfSteps
  | steps + 1 => do
    let params ← if ← accept .openParen then parameters steps else pure []
    let rules ← block steps
    pure (.make (.mixin name none 0) line
      [(Node.make .params line params).placed .params, rules.placed .rules])
termination_by structural steps => steps

/-- The rest of a use of a mixin after its arguments: statements passed to it after `<`. -/
def call (name : String) (extend : Bool) (line : Nat) (params : Node) : Nat → Reading Node
  | 0 => outOfSteps
  | steps + 1 => do
    let content ←
      if ← accept .less then pure [(← block steps).placed .rules] else pure []
    endStatement
    pure (.make (.call name extend) line (params.placed .params :: content))
termination_by structural steps => steps

/-- A statement that begins with a command, and the comments inside it that belong to the statement
before it. -/
def commandStatement (hasPrevious : Bool) : Nat → Reading (Node × List Comment)
  | 0 => outOfSteps
  | steps + 1 => do
    let first ← expect .command
    let name := first.value
    let line := first.line
    if name = "if" then pure (← conditional line steps, [])
    else if name = "content" then
      endStatement
      pure (.make .content line, [])
    else if name = "include" then
      match ← advance with
      | .string | .identifier => do
        let path := (← token).value
        endStatement
        pure (.make (.inclusion path) line, [])
      | _ => unexpected "include path"
    else if name = "require" ∨ name = "load" ∨ name = "break" ∨ name = "asset" then
      let params ← directiveArguments line steps
      endStatement
      pure (.make (.directive name) line [params.placed .params], [])
    else if name = "font-face" then pure (← withBlock .fontFace line steps, [])
    else if name = "media" then
      let text ← prelude steps
      let kind := Kind.media (splitTopLevel ',' text.text) text.dynamic
      pure (← withBlock kind line steps, [])
    else if name = "supports" then
      let text ← prelude steps
      pure (← withBlock (.supports text.text) line steps, [])
    else if name = "root" then
      if (← peek) = .openBrace then pure (← withBlock .root line steps, [])
      else
        let (inner, passed) ← statement hasPrevious steps
        let rules := Node.make .block line [inner]
        pure (.make .root line [rules.placed .rules], passed)
    else if name = "keyframes" then pure (← keyframes none line steps, [])
    else
      match vendor? name with
      | some vendor => pure (← keyframes (some vendor) line steps, [])
      | none => failAt line (.unsupportedCommand name)
termination_by structural steps => steps

/-- A conditional after its command: a condition, a block, and what applies otherwise. -/
def conditional (line : Nat) : Nat → Reading Node
  | 0 => outOfSteps
  | steps + 1 => do
    let condition ← expression .expression steps
    let thenPart ← block steps
    let elsePart ← otherwise steps
    pure (.make .conditional line
      (condition.placed .condition :: thenPart.placed .thenPart
        :: elsePart.map fun part => part.placed .elsePart))
termination_by structural steps => steps

/-- The rest of a conditional: nothing, another condition, or a block. -/
def otherwise : Nat → Reading (List Node)
  | 0 => outOfSteps
  | steps + 1 => do
    let next ← peekNth 0
    if next.kind = .command ∧ next.value = "elif" then
      let _ ← advance
      pure [← conditional next.line steps]
    else if next.kind = .command ∧ next.value = "else" then
      let _ ← advance
      let after ← peekNth 0
      if after.kind = .identifier ∧ after.value = "if" then
        let _ ← advance
        pure [← conditional after.line steps]
      else pure [← block steps]
    else pure []
termination_by structural steps => steps

/-- An animation after its command: its name and its steps. -/
def keyframes (vendor : Option String) (line : Nat) : Nat → Reading Node
  | 0 => outOfSteps
  | steps + 1 => do
    match ← advance with
    | .identifier | .string => do
      let name := (← token).value
      let blockLine := (← expect .openBrace).line
      let frames ← frames steps
      let _ ← expect .closeBrace
      let rules := Node.make .block blockLine frames
      pure (.make (.keyframes name vendor) line [rules.placed .rules])
    | _ => unexpected "keyframes name"
termination_by structural steps => steps

/-- The steps of an animation. -/
def frames : Nat → Reading (List Node)
  | 0 => outOfSteps
  | steps + 1 => do
    match ← peek with
    | .closeBrace | .eof => pure []
    | _ => do
      let line := (← peekNth 0).line
      let text ← prelude steps
      let frame ← withBlock (.frame (splitTopLevel ',' text.text)) line steps
      let rest ← frames steps
      pure (frame :: rest)
termination_by structural steps => steps

end

/-- A whole stylesheet. -/
def sheet (steps : Nat) : Reading Node := do
  let statements ← statementsFrom .eof [] steps
  let _ ← expect .eof
  pure (.make .sheet 1 statements)

/-- The steps allotted to a text: enough for its longest chain of tokens and grammar levels. -/
def stepsFor (source : Source) : Nat :=
  32 * (source.text.length + 2)

end Parse

/-- **Parses a stylesheet.** -/
def parse (source : Source) : Except Error Node :=
  (Parse.sheet (Parse.stepsFor source)).run' (TokenStream.ofSource source)

end Cascade
