import Cascade.Document.Editing
import Cascade.Evaluation.Statement

/-!
# Evaluating a document

Variables are bound to nodes that are no longer part of the stylesheet.  Expressions are evaluated
in place: a variable is replaced by a copy of what it is bound to, an operation or a command by its
result.  Declarations and assignments are taken out, and of a conditional the statements of one
branch remain.
-/

set_option autoImplicit false

namespace Cascade

/-- What variables are bound to: the keys of evaluated expressions. -/
abbrev KeyBindings := NameTable Key

/-- The value of an evaluated expression. -/
def Document.valueAt (d : Document) (key : Key) : Value :=
  Value.ofNode (d.view key)

/-- Whether an expression is nothing but a variable that is not bound. -/
def Document.isUnsetAt (d : Document) (values : KeyBindings) (key : Key) : Bool :=
  match d.kindAt key with
  | .reference name => !NameTable.contains name values
  | _ => false

/-- The evaluated expressions that some of the variables are bound to. -/
def Document.bindingsOf (d : Document) (values : KeyBindings) (names : NameSet) : Bindings :=
  (values.filter fun entry => names.contains entry.1).map fun (name, key) => (name, d.view key)

namespace Editing

/-! ## Expressions -/

/-- Puts a new tree in the place of a node. -/
def putInPlace (key : Key) (tree : Node) : Editing Key := do
  let new ← make (·.plant tree)
  edit (·.replace key new)
  pure new

/-- Puts a copy of a node in the place of another one. -/
def copyInPlace (key original : Key) : Editing Key := do
  let copy ← make (·.deepClone original)
  edit (·.replace key copy)
  pure copy

/-- How expressions are evaluated in place: what holds the value afterwards, and the bindings. -/
abbrev Evaluator := Key → KeyBindings → Editing (Key × KeyBindings)

/-- Evaluates expressions from left to right. -/
def evaluateAll (evaluate : Evaluator) (keys : List Key) (values : KeyBindings) :
    Editing KeyBindings :=
  keys.foldlM (fun values key => do
    let (_, values) ← evaluate key values
    pure values) values

/-- Evaluates the arguments of a function, a command or a directive. -/
def evaluateArguments (evaluate : Evaluator) (key : Key) (values : KeyBindings) :
    Editing KeyBindings := do
  evaluateAll evaluate (← look (·.argumentKeys key)) values

/-- The value of an operand, which is evaluated in place. -/
def operand (evaluate : Evaluator) (key : Key) (values : KeyBindings) :
    Editing (Value × KeyBindings) := do
  let (key, values) ← evaluate key values
  pure (← look (·.valueAt key), values)

/-- The value of the operand on the left.  One that may be missing is null if it is a variable that
is not bound. -/
def leftOperand (evaluate : Evaluator) (operator : BinaryOp) (key : Key) (values : KeyBindings) :
    Editing (Value × KeyBindings) := do
  if ← look fun d => operator == .default && d.isUnsetAt values key then pure (.null, values)
  else operand evaluate key values

/-- The value that is assigned: that of the initializer, or null if there is none. -/
def evaluateInitializer (evaluate : Evaluator) (key : Key) (values : KeyBindings) :
    Editing (Key × KeyBindings) := do
  match ← look (·.child? key .initializer) with
  | some initializer => evaluate initializer values
  | none =>
    let line ← look (·.lineAt key)
    let value ← make (·.create .null line)
    pure (value, values)

/-- The new value of a variable that is assigned to at a node. -/
def assignedAt (key : Key) (name : String) (operator : Option AssignOp) (current : Option Key)
    (value : Key) : Editing Key := do
  match operator, current with
  | none, _ | some .default, none => pure value
  | some .default, some current =>
    match ← look (·.valueAt current) with
    | .null => pure value
    | _ => pure current
  | some _, none => failAt key (.eval (.missingBinding name))
  | some operator, some current =>
    let result ← ofResult key ((Value.binary operator.binary (← look (·.valueAt current))
      (← look (·.valueAt value))).mapError EvalError.operation)
    let line ← look (·.lineAt key)
    make (·.plant (result.toNode line))

/-- Carries out an assignment and gives the new value of the variable. -/
def assign (evaluate : Evaluator) (key : Key) (name : String) (operator : Option AssignOp)
    (values : KeyBindings) : Editing (Key × KeyBindings) := do
  let (value, values) ← evaluateInitializer evaluate key values
  let value ← assignedAt key name operator (NameTable.find? name values) value
  pure (value, NameTable.insert name value values)

/-- Puts the result of a command, whose arguments have been evaluated, in its place. -/
def command (commands : CommandHost) (key : Key) (name : String) : Editing Key := do
  if isBuiltin name then
    edit (·.updateKind key fun _ => .function name)
    pure key
  else
    let line ← look (·.lineAt key)
    let arguments ← look fun d => (d.argumentKeys key).map d.view
    let result ← ofResult key (runCommand commands name line arguments)
    putInPlace key result

/-- **Evaluates an expression in place**, as far as the given depth. -/
def evaluateTo (commands : CommandHost) : Nat → Evaluator
  | 0, key, values => pure (key, values)
  | depth + 1, key, values => do
    match ← look (·.kindAt key), ← look (·.childKeys key) with
    | .reference name, _ =>
      match NameTable.find? name values with
      | some value => pure (← copyInPlace key value, values)
      | none => failAt key (.eval (.undefinedVariable name))
    | .binary operator, [left, right] =>
      let (left, values) ← leftOperand (evaluateTo commands depth) operator left values
      let (right, values) ← operand (evaluateTo commands depth) right values
      let result ← ofResult key ((Value.binary operator left right).mapError EvalError.operation)
      let line ← look (·.lineAt key)
      pure (← putInPlace key (result.toNode line), values)
    | .unary operator, child :: _ =>
      let (value, values) ← operand (evaluateTo commands depth) child values
      let result ← ofResult key (Value.unary operator value)
      let line ← look (·.lineAt key)
      pure (← putInPlace key (result.toNode line), values)
    | .assign name operator, _ =>
      let (value, values) ← assign (evaluateTo commands depth) key name operator values
      pure (← copyInPlace key value, values)
    | .command name, _ =>
      let values ← evaluateArguments (evaluateTo commands depth) key values
      pure (← command commands key name, values)
    | .function _, _ => pure (key, ← evaluateArguments (evaluateTo commands depth) key values)
    | .list, children | .comma, children | .slash, children =>
      pure (key, ← evaluateAll (evaluateTo commands depth) children values)
    | _, _ => pure (key, values)

/-- Evaluates an expression in place.  No way down is longer than there are nodes. -/
def evaluate (commands : CommandHost) : Evaluator := fun key values => do
  evaluateTo commands (← look (·.cells.size)) key values

/-! ## Statements -/

/-- Writes the values of variables into the texts of a node. -/
def interpolate (key : Key) (values : KeyBindings) : Editing Unit := do
  let kind ← look (·.kindAt key)
  let kind ← ofResult key (interpolated (← look (·.bindingsOf values kind.dynamic)) kind)
  edit (·.updateKind key fun _ => kind)

/-- Binds the variable that a statement declares.  Without an initializer it is unbound. -/
def declare (commands : CommandHost) (key : Key) (name : String) (values : KeyBindings) :
    Editing KeyBindings := do
  match ← look (·.child? key .initializer) with
  | some initializer =>
    let (value, values) ← evaluate commands initializer values
    pure (NameTable.insert name value values)
  | none => pure (NameTable.erase name values)

/-- Whether the condition of a conditional holds. -/
def conditionHolds (commands : CommandHost) (key : Key) (values : KeyBindings) :
    Editing (Bool × KeyBindings) := do
  match ← look (·.child? key .condition) with
  | some condition =>
    let (value, values) ← evaluate commands condition values
    pure ((← look (·.valueAt value)).isTruthy, values)
  | none => pure (false, values)

/-- The statements that take the place of a conditional: those of a branch, or a conditional that
stands in its place. -/
def branchStatements (key : Key) (holds : Bool) : Editing (List Key) := do
  match ← look (·.child? key (if holds then .thenPart else .elsePart)) with
  | some part =>
    if (← look (·.kindAt part)).isConditional then pure [part] else make (·.takeChildren part)
  | none => pure []

/-- Runs the statements of a block in bindings of its own. -/
def enterBlock (run : Key → KeyBindings → Editing Unit) (block : Key) (values : KeyBindings) :
    Editing Unit := do
  match ← look fun d => (d.labelAt block).scope with
  | none => failAt block (.scope .missingScope)
  | some scope =>
    run block (scope.modified.foldl (fun values name => NameTable.erase name values) values)

/-- Runs the statements of the block of a rule, if it has one. -/
def enterRules (run : Key → KeyBindings → Editing Unit) (rule : Key) (values : KeyBindings) :
    Editing Unit := do
  match ← look (·.rules? rule) with
  | some block => enterBlock run block values
  | none => pure ()

/-- **Evaluates the statements of a block** from a position on, in at most `count` steps.  A
statement that is taken out or replaced leaves its position to the next one. -/
def executeStatements (commands : CommandHost) :
    Nat → Key → Nat → KeyBindings → Editing Unit
  | 0, _, _, _ => pure ()
  | count + 1, block, index, values => do
    match (← look (·.childKeys block))[index]? with
    | none => pure ()
    | some key =>
      let run := fun block values => executeStatements commands count block 0 values
      match (← look (·.kindAt key)).treatment with
      | .branch =>
        let (holds, values) ← conditionHolds commands key values
        let statements ← branchStatements key holds
        edit (·.splice key statements)
        executeStatements commands count block index values
      | .declare name =>
        let values ← declare commands key name values
        edit (·.remove key)
        executeStatements commands count block index values
      | .assign name operator =>
        let (_, values) ← assign (evaluate commands) key name operator values
        edit (·.remove key)
        executeStatements commands count block index values
      | .values =>
        interpolate key values
        let values ← evaluateAll (evaluate commands) (← look (·.childKeys key)) values
        executeStatements commands count block (index + 1) values
      | .rules =>
        interpolate key values
        enterRules run key values
        executeStatements commands count block (index + 1) values
      | .block =>
        enterBlock run key values
        executeStatements commands count block (index + 1) values
      | .arguments =>
        let values ← evaluateArguments (evaluate commands) key values
        executeStatements commands count block (index + 1) values
      | .keep => executeStatements commands count block (index + 1) values

/-- **Evaluates a document.**  No more statements are met than there are nodes. -/
def execute (commands : CommandHost) : Editing Unit := do
  let count ← look (·.cells.size)
  enterBlock (fun block values => executeStatements commands count block 0 values)
    Document.root []

end Editing

end Cascade
