import Cascade.Output.Layout
import Cascade.Sheet
import Cascade.Value.Tree

/-!
# Writing stylesheets out

The text of a stylesheet that holds nothing but rules, properties and evaluated values.  Everything
else cannot be written.
-/

set_option autoImplicit false

namespace Cascade

namespace Layout

/-- The blank around braces and after colons. -/
def space (layout : Layout) : String :=
  if layout.has .whitespace then " " else ""

/-- The start of a line at a depth. -/
def indentation (layout : Layout) (depth : Nat) : String :=
  if layout.has .indent && layout.has .statements then Text.repeated depth "  " else ""

/-- The line break after a property or an opening brace. -/
def statementBreak (layout : Layout) : String :=
  if layout.has .statements then "\n" else ""

/-- The line break after a rule. -/
def blockBreak (layout : Layout) : String :=
  if layout.has .blocks || layout.has .statements then "\n" else ""

/-- The text between two values of a comma list. -/
def listSeparator (layout : Layout) : String :=
  if layout.has .comma || layout.has .whitespace then ", " else ","

/-- The text between two selectors of a rule at a depth. -/
def selectorSeparator (layout : Layout) (depth : Nat) : String :=
  if layout.has .blocks then ",\n" ++ layout.indentation depth
  else if layout.has .whitespace || layout.has .comma then ", "
  else ","

/-- How many decimals numbers keep. -/
def decimals (layout : Layout) : Nat :=
  layout.precision.getD Number.defaultPrecision

end Layout

/-! ## Values -/

/-- The text of a literal. -/
def Kind.cssLiteral? (layout : Layout) : Kind → Option String
  | .number value unit => some (Value.numberText value unit layout.decimals)
  | .string value quote => some (quote.wrap value)
  | .identifier value | .raw value => some value
  | .boolean value => some (toString value)
  | .null => some ""
  | _ => none

/-- The error for a node that cannot be written. -/
def Label.unwritable (file : Option String) (label : Label) : Error :=
  ⟨.output (.unreducedNode label.kind.name), ⟨file, label.line⟩⟩

namespace Node

mutual

/-- **The text of a value.** -/
def cssValue (file : Option String) (layout : Layout) : Node → Except Error String
  | mk label children =>
    match label.kind with
    | .function name => do
      let arguments ← cssArguments file layout children
      pure (name ++ "(" ++ layout.listSeparator.intercalate arguments ++ ")")
    | .list => do pure (" ".intercalate (← cssValues file layout children))
    | .comma => do pure (layout.listSeparator.intercalate (← cssValues file layout children))
    | .slash => do pure ("/".intercalate (← cssValues file layout children))
    | kind =>
      match kind.cssLiteral? layout with
      | some text => .ok text
      | none => .error (label.unwritable file)

/-- The texts of several values. -/
def cssValues (file : Option String) (layout : Layout) : List Node → Except Error (List String)
  | [] => .ok []
  | node :: rest => do
    let text ← cssValue file layout node
    let rest ← cssValues file layout rest
    pure (text :: rest)

/-- The texts of the arguments among the children of a function. -/
def cssArguments (file : Option String) (layout : Layout) :
    List Node → Except Error (List String)
  | [] => .ok []
  | mk label children :: rest =>
    if label.relation = some .params then cssValues file layout children
    else cssArguments file layout rest

end

end Node

/-! ## Statements -/

/-- The text before the brace of a rule at a depth, if nodes of the kind are rules. -/
def Kind.heading? (layout : Layout) (depth : Nat) : Kind → Option String
  | .selector names _ => some ((layout.selectorSeparator depth).intercalate names)
  | .media queries _ => some ("@media " ++ layout.listSeparator.intercalate queries)
  | .supports query => some ("@supports " ++ query)
  | .fontFace => some "@font-face"
  | .keyframes name (some vendor) => some ("@-" ++ vendor ++ "-keyframes " ++ name)
  | .keyframes name none => some ("@keyframes " ++ name)
  | .frame names => some (layout.listSeparator.intercalate names)
  | _ => none

namespace Layout

/-- The text of a property at a depth. -/
def property (layout : Layout) (depth : Nat) (name : String) (important : Bool)
    (values : List String) : String :=
  layout.indentation depth ++ name ++ ":" ++ layout.space ++ " ".intercalate values
    ++ (if important then "!important" else "") ++ ";" ++ layout.statementBreak

/-- The text of a rule at a depth. -/
def rule (layout : Layout) (depth : Nat) (heading body : String) : String :=
  layout.indentation depth ++ heading ++ layout.space ++ "\x7b" ++ layout.statementBreak ++ body
    ++ layout.indentation depth ++ "\x7d" ++ layout.blockBreak

end Layout

namespace Node

mutual

/-- **The text of a statement** at a depth. -/
def css (file : Option String) (layout : Layout) (depth : Nat) : Node → Except Error String
  | mk label children =>
    match label.kind with
    | .property name _ important => do
      pure (layout.property depth name important (← cssValues file layout children))
    | .block => cssAll file layout depth children
    | kind =>
      match kind.heading? layout depth with
      | none => .error (label.unwritable file)
      | some heading => do
        pure (layout.rule depth heading (← cssRules file layout (depth + 1) children))

/-- The text of several statements. -/
def cssAll (file : Option String) (layout : Layout) (depth : Nat) :
    List Node → Except Error String
  | [] => .ok ""
  | node :: rest => do
    let text ← css file layout depth node
    let rest ← cssAll file layout depth rest
    pure (text ++ rest)

/-- The text of the block among the children of a rule. -/
def cssRules (file : Option String) (layout : Layout) (depth : Nat) :
    List Node → Except Error String
  | [] => .ok ""
  | mk label children :: rest =>
    if label.relation = some .rules then cssAll file layout depth children
    else cssRules file layout depth rest

end

end Node

/-- **The text of a stylesheet.** -/
def Sheet.css (sheet : Sheet) (layout : Layout) : Except Error String :=
  Node.cssAll sheet.file layout 0 sheet.root.children

end Cascade
