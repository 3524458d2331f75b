import Cascade.Evaluation.Expression

/-!
# Evaluating stylesheets

Statements are evaluated in order.  Declarations and assignments bind variables and disappear; of a
conditional the statements of one branch are left.  A block starts with the bindings of the block
around it, without the variables that it sets itself, and its own bindings end with it.

Mixins that no selector extends are left as they are.
-/

set_option autoImplicit false

namespace Cascade

/-- Runs a computation with bindings of its own, which end with it. -/
def Evaluation.within {α : Type} (bindings : Bindings) (evaluation : Evaluation α) :
    Evaluation α := fun outer => do
  let (a, _) ← evaluation bindings
  pure (a, outer)

/-- The bindings that a block starts with. -/
def Bindings.entering (scope : Scope) (outer : Bindings) : Bindings :=
  scope.modified.foldl (fun bindings name => bindings.erase name) outer

/-- A block whose statements are evaluated in bindings of its own. -/
def Label.enter (s : Surroundings) (label : Label) (statements : Evaluation (List Node)) :
    Evaluation Node :=
  match label.scope with
  | none => throw ⟨.scope .missingScope, ⟨s.file, label.line⟩⟩
  | some scope => do
    let bindings := Bindings.entering scope (← get)
    pure (.mk label (← Evaluation.within bindings statements))

/-- A label with the values of variables written into the texts of its kind. -/
def Label.interpolate (s : Surroundings) (label : Label) : Evaluation Label := do
  let kind ← Evaluation.ofResult s label.line (interpolated (← get) label.kind)
  pure { label with kind }

/-- How statements of a kind are evaluated. -/
inductive Treatment where
  /-- One of its branches takes its place. -/
  | branch
  | declare (name : String)
  | assign (name : String) (operator : Option AssignOp)
  /-- Its parts are expressions. -/
  | values
  /-- It has a block; its texts are filled in before. -/
  | rules
  | block
  /-- Its arguments are expressions. -/
  | arguments
  | keep
  deriving Inhabited

/-- How statements of a kind are evaluated. -/
def Kind.treatment : Kind → Treatment
  | .conditional => .branch
  | .declaration name => .declare name
  | .assign name operator => .assign name operator
  | .property .. => .values
  | .selector .. | .media .. | .mixin _ (some _) _ | .supports _ | .root | .fontFace
  | .keyframes .. | .frame _ => .rules
  | .block => .block
  | .directive _ => .arguments
  | _ => .keep

namespace Node

mutual

/-- **What is left of a statement** once it has been evaluated. -/
def execute (s : Surroundings) : Node → Evaluation (List Node)
  | mk label children =>
    match label.kind.treatment with
    | .branch => do
      let holds ← conditionHolds s children
      executeBranch s (if holds then .thenPart else .elsePart) children
    | .declare name => do
      match (mk label children).child? .initializer with
      | some value => Evaluation.bindName name (← evaluate s value)
      | none => Evaluation.unbindName name
      pure []
    | .assign name operator => do
      let value ← evaluateInitializer s label.line children
      let value ← Evaluation.ofResult s label.line
        (assigned name operator label.line ((← get).find? name) value)
      Evaluation.bindName name value
      pure []
    | .values => do
      let label ← label.interpolate s
      pure [mk label (← evaluateAll s children)]
    | .rules => do
      let label ← label.interpolate s
      pure [mk label (← executeRules s children)]
    | .block => do pure [← label.enter s (executeAll s children)]
    | .arguments => do pure [mk label (← evaluateArguments s children)]
    | .keep => pure [mk label children]

/-- What is left of several statements. -/
def executeAll (s : Surroundings) : List Node → Evaluation (List Node)
  | [] => pure []
  | node :: rest => do
    let first ← execute s node
    let rest ← executeAll s rest
    pure (first ++ rest)

/-- The children of a rule with its block evaluated. -/
def executeRules (s : Surroundings) : List Node → Evaluation (List Node)
  | [] => pure []
  | mk label children :: rest =>
    if label.relation = some .rules then do
      let block ← label.enter s (executeAll s children)
      pure (block :: rest)
    else do
      let rest ← executeRules s rest
      pure (mk label children :: rest)

/-- Whether the condition among the parts of a conditional holds. -/
def conditionHolds (s : Surroundings) : List Node → Evaluation Bool
  | [] => pure false
  | mk label children :: rest =>
    if label.relation = some .condition then do
      let value ← evaluate s (mk label children)
      pure (Value.ofNode value).isTruthy
    else conditionHolds s rest

/-- What is left of the branch in the given place among the parts of a conditional. -/
def executeBranch (s : Surroundings) (relation : Relation) : List Node → Evaluation (List Node)
  | [] => pure []
  | mk label children :: rest =>
    if label.relation = some relation then
      match label.kind with
      | .conditional => execute s (mk label children)
      | _ => executeAll s children
    else executeBranch s relation rest

end

end Node

/-- **Evaluates a stylesheet.** -/
def Sheet.execute (sheet : Sheet) (commands : CommandHost) : Except Error Sheet := do
  let s : Surroundings := { file := sheet.file, commands }
  let (root, _) ← (sheet.root.label.enter s (Node.executeAll s sheet.root.children)).run []
  pure (sheet.withRoot root)

end Cascade
