import Cascade.Sheet

/-!
# Build fields

A stylesheet may depend on fields of the build: a theme, a target, whether this is a debug build.
Field names stand for their values in conditions, and `@field(name)` stands for the value anywhere
else.
-/

set_option autoImplicit false

namespace Cascade

/-! ## Values of fields -/

/-- The value of a field.  Numbers are kept by their bits, so that they can be told apart exactly. -/
inductive FieldValue where
  | boolean (value : Bool)
  | number (bits : UInt64)
  | string (value : String)
  | null
  deriving DecidableEq, Repr, Inhabited

/-- Reads the value of a field from a command line: a truth value, null, a number, or else a
string. -/
def FieldValue.parse (text : String) : FieldValue :=
  if text = "true" then .boolean true
  else if text = "false" then .boolean false
  else if text = "null" then .null
  else match Number.read? text with
    | some bits => .number bits
    | none => .string text

/-- The literal a field stands for. -/
def FieldValue.kind : FieldValue → Kind
  | boolean value => .boolean value
  | number bits => .number (Float.ofBits bits) none
  | string value => .string value .double
  | null => .null

/-! ## Tables of fields -/

/-- Fields by name. -/
abbrev Fields := NameTable FieldValue

/-- The kind that a node has once fields have been put in: in a condition, a word that is the name
of a field is the field. -/
def Fields.patch (fields : Fields) (inCondition : Bool) (kind : Kind) : Kind :=
  match inCondition, kind with
  | true, .identifier name =>
    match NameTable.find? name fields with
    | some value => value.kind
    | none => kind
  | _, kind => kind

/-- The name of the field that a command asks for: its first argument, a word or a string. -/
def Fields.requested? (fields : Fields) (inCondition : Bool) (command : Node) : Option String :=
  match command.arguments.head?.map fun argument => fields.patch inCondition argument.kind with
  | some (.identifier name) | some (.string name _) => some name
  | _ => none

mutual

/-- Puts fields into a tree.  `inCondition` says that the tree is part of a condition.  The
arguments of a `@field` command are gone afterwards, but a command among them still has to ask for
a field that exists. -/
def Fields.substitute (fields : Fields) (file : Option String) (inCondition : Bool) :
    Node → Except Error Node
  | .mk label children =>
    match label.kind with
    | .command "field" =>
      let command := Node.mk label children
      match fields.requested? inCondition command with
      | none => .error (command.errorIn file (.eval (.invalidCommandArgument "field")))
      | some name =>
        match NameTable.find? name fields with
        | none => .error (command.errorIn file (.eval (.unknownField name)))
        | some value => do
          let _ ← Fields.substituteAll fields file inCondition children
          pure (.mk { label with kind := value.kind } [])
    | .conditional => do
      pure (.mk label (← Fields.substituteParts fields file inCondition children))
    | kind => do
      let children ← Fields.substituteAll fields file inCondition children
      pure (.mk { label with kind := fields.patch inCondition kind } children)

/-- Puts fields into several trees. -/
def Fields.substituteAll (fields : Fields) (file : Option String) (inCondition : Bool) :
    List Node → Except Error (List Node)
  | [] => .ok []
  | node :: rest => do
    let node ← Fields.substitute fields file inCondition node
    let rest ← Fields.substituteAll fields file inCondition rest
    pure (node :: rest)

/-- Puts fields into the parts of a conditional, of which the first condition counts. -/
def Fields.substituteParts (fields : Fields) (file : Option String) (inCondition : Bool) :
    List Node → Except Error (List Node)
  | [] => .ok []
  | .mk label children :: rest =>
    if label.relation = some .condition then do
      let condition ← Fields.substitute fields file true (.mk label children)
      let rest ← Fields.substituteAll fields file inCondition rest
      pure (condition :: rest)
    else do
      let node ← Fields.substitute fields file inCondition (.mk label children)
      let rest ← Fields.substituteParts fields file inCondition rest
      pure (node :: rest)

end

/-- **Puts fields into a stylesheet.** -/
def Sheet.substituteFields (sheet : Sheet) (fields : Fields) : Except Error Sheet :=
  (fields.substitute sheet.file false sheet.root).map sheet.withRoot

end Cascade
