import Cascade.Command
import Cascade.Sheet
import Cascade.Value.Operation
import Cascade.Value.Tree

/-!
# Evaluating expressions

Variables are bound to evaluated expressions.  An expression is evaluated by evaluating its parts
from left to right and putting values in their place: copies of what variables are bound to,
results of operators, results of commands.  An assignment inside an expression binds its variable
for what follows.
-/

set_option autoImplicit false

namespace Cascade

/-! ## Computations -/

/-- What variables are bound to: evaluated expressions. -/
abbrev Bindings := NameTable Node

/-- A computation that reads and changes bindings and may fail. -/
abbrev Evaluation := StateT Bindings (Except Error)

/-- What evaluation depends on: the file that errors name and the commands of the build. -/
structure Surroundings where
  file : Option String := none
  commands : CommandHost := fun _ _ => none

/-- A failure at a line. -/
def Evaluation.fail {α : Type} (s : Surroundings) (line : Nat) (error : EvalError) :
    Evaluation α :=
  throw ⟨.eval error, ⟨s.file, line⟩⟩

/-- The outcome of an operator, which may fail at a line. -/
def Evaluation.ofResult {α : Type} (s : Surroundings) (line : Nat) :
    Except EvalError α → Evaluation α
  | .ok a => pure a
  | .error error => Evaluation.fail s line error

/-- Binds a variable. -/
def Evaluation.bindName (name : String) (value : Node) : Evaluation Unit :=
  modify fun bindings => bindings.insert name value

/-- Takes the binding of a variable away. -/
def Evaluation.unbindName (name : String) : Evaluation Unit :=
  modify fun bindings => bindings.erase name

/-! ## Assignments -/

/-- The new value of a variable that is assigned to.  A default only counts if the variable is
unbound or null; every other compound assignment needs a binding. -/
def assigned (name : String) (operator : Option AssignOp) (line : Nat) (current : Option Node)
    (value : Node) : Except EvalError Node :=
  match operator, current with
  | none, _ | some .default, none => .ok value
  | some .default, some current =>
    match Value.ofNode current with
    | .null => .ok value
    | _ => .ok current
  | some _, none => .error (.missingBinding name)
  | some operator, some current =>
    match Value.binary operator.binary (Value.ofNode current) (Value.ofNode value) with
    | .ok result => .ok (result.toNode line)
    | .error error => .error (.operation error)

/-! ## Commands -/

/-- The argument that a command sees, if it can be passed to one. -/
def Kind.commandValue? : Kind → Option CommandValue
  | .number value _ => some (.number value)
  | .string value _ | .identifier value | .raw value => some (.string value)
  | .boolean value => some (.boolean value)
  | .null => some .null
  | _ => none

/-- The number that a command gives.  A text counts if it reads as a number. -/
def CommandValue.toNumber? : CommandValue → Option Float
  | number value => some value
  | string text => (Number.read? (Text.trimmed text)).map Float.ofBits
  | _ => none

/-- The tree for the result of a command. -/
def commandResult (name : String) (line : Nat) (value : CommandValue) (type : ResultType) :
    Except EvalError Node :=
  let number (unit : Option String) : Except EvalError Node :=
    match value.toNumber? with
    | some number => .ok (.make (.number number unit) line)
    | none => .error (.commandFailed name ("expected a number, found `" ++ value.text ++ "`"))
  match type with
  | .px => number (some "px")
  | .number => number none
  | .url =>
    let argument := Node.make (.string value.text .double) line
    let params := (Node.make .params line [argument]).placed .params
    .ok (.make (.function "url") line [params])
  | .other => .ok (.make (.identifier value.text) line)

/-- Runs a command whose arguments have been evaluated. -/
def runCommand (commands : CommandHost) (name : String) (line : Nat) (arguments : List Node) :
    Except EvalError Node :=
  match arguments.mapM fun argument => argument.kind.commandValue? with
  | none => .error (.invalidCommandArgument name)
  | some arguments =>
    match commands name arguments with
    | none => .error (.unknownCommand name)
    | some (.error reason) => .error (.commandFailed name reason)
    | some (.ok (value, type)) => commandResult name line value type

/-! ## Expressions -/

/-- Whether an expression is nothing but a variable that is not bound. -/
def isUnset (bindings : Bindings) (kind : Kind) : Bool :=
  match kind with
  | .reference name => !bindings.contains name
  | _ => false

namespace Node

mutual

/-- **The value of an expression**, in its place. -/
def evaluate (s : Surroundings) : Node → Evaluation Node
  | mk label children => do
    let place (value : Node) : Node := value.withRelation label.relation
    match label.kind, children with
    | .reference name, _ =>
      match (← get).find? name with
      | some value => pure (place value.copied)
      | none => Evaluation.fail s label.line (.undefinedVariable name)
    | .binary operator, [left, right] =>
      let unset := operator == .default && isUnset (← get) left.kind
      let leftValue ← if unset then pure Value.null else Value.ofNode <$> evaluate s left
      let rightValue ← Value.ofNode <$> evaluate s right
      let result ← Evaluation.ofResult s label.line
        ((Value.binary operator leftValue rightValue).mapError EvalError.operation)
      pure (place (result.toNode label.line))
    | .unary operator, operand :: _ =>
      let value ← Value.ofNode <$> evaluate s operand
      let result ← Evaluation.ofResult s label.line (Value.unary operator value)
      pure (place (result.toNode label.line))
    | .assign name operator, children =>
      let value ← evaluateInitializer s label.line children
      let value ← Evaluation.ofResult s label.line
        (assigned name operator label.line ((← get).find? name) value)
      Evaluation.bindName name value
      pure (place value.copied)
    | .command name, children =>
      let children ← evaluateArguments s children
      if isBuiltin name then pure (mk { label with kind := .function name } children)
      else
        let result ← Evaluation.ofResult s label.line
          (runCommand s.commands name label.line (mk label children).arguments)
        pure (place result)
    | .function _, children => pure (mk label (← evaluateArguments s children))
    | .list, children => pure (mk label (← evaluateAll s children))
    | .comma, children => pure (mk label (← evaluateAll s children))
    | .slash, children => pure (mk label (← evaluateAll s children))
    | _, children => pure (mk label children)

/-- The values of several expressions, from left to right. -/
def evaluateAll (s : Surroundings) : List Node → Evaluation (List Node)
  | [] => pure []
  | node :: rest => do
    let node ← evaluate s node
    let rest ← evaluateAll s rest
    pure (node :: rest)

/-- The children of a function or a command with its arguments evaluated. -/
def evaluateArguments (s : Surroundings) : List Node → Evaluation (List Node)
  | [] => pure []
  | mk label children :: rest =>
    if label.relation = some .params then do
      let children ← evaluateAll s children
      pure (mk label children :: rest)
    else do
      let rest ← evaluateArguments s rest
      pure (mk label children :: rest)

/-- The value that is assigned: that of the initializer, or null if there is none. -/
def evaluateInitializer (s : Surroundings) (line : Nat) : List Node → Evaluation Node
  | [] => pure (make .null line)
  | mk label children :: rest =>
    if label.relation = some .initializer then evaluate s (mk label children)
    else evaluateInitializer s line rest

end

end Node

/-! ## Texts with variables in them -/

/-- The texts that variables stand for, or the first variable that is not bound. -/
def replacements (bindings : Bindings) (names : List String) :
    Except EvalError (List (String × String)) :=
  names.mapM fun name =>
    match bindings.find? name with
    | some value => .ok (name, (Value.ofNode value).render)
    | none => .error (.undefinedVariable name)

/-- A text with variables replaced, one variable after the other. -/
def fillIn (texts : List (String × String)) (text : String) : String :=
  texts.foldl (fun text (name, value) => Text.replaced (interpolation name) value text) text

/-- A kind with the values of variables written into its texts. -/
def interpolated (bindings : Bindings) (kind : Kind) : Except EvalError Kind := do
  let texts ← replacements bindings kind.dynamic
  pure (kind.withTexts (fillIn texts) [])

end Cascade
