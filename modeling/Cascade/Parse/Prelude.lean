import Cascade.Parse.Expression

/-!
# Parsing what stands before a block or a value

The text before a block — selectors, media queries, conditions, steps of an animation — is not
parsed but kept as text, with one blank wherever the source had blanks or comments.  Variables may
be written into it, and into the names of properties; they are kept in the text as `$` and a name in
braces, and the names are collected.
-/

set_option autoImplicit false

namespace Cascade

/-- How a variable stands in a text. -/
def interpolation (name : String) : String :=
  "$\x7b" ++ name ++ "\x7d"

/-- A text with the names of the variables that are written into it. -/
structure Template where
  text : String := ""
  dynamic : NameSet := []
  deriving Repr, Inhabited

namespace Template

/-- The template with more text. -/
def write (template : Template) (text : String) : Template :=
  { template with text := template.text ++ text }

/-- The template with a variable after it. -/
def interpolate (template : Template) (name : String) : Template :=
  { text := template.text ++ interpolation name
    dynamic := template.dynamic.insert name }

end Template

namespace Parse

open Reading

/-! ## Preludes -/

/-- The parentheses and brackets that are open after a token. -/
def depthAfter (depth : Nat) : TokenKind → Nat
  | .openParen | .openBracket => depth + 1
  | .closeParen | .closeBracket => depth - 1
  | _ => depth

/-- The rest of a prelude after `before`, with `depth` parentheses and brackets open. -/
def preludeFrom (before : Template) (depth : Nat) : Nat → Reading Template
  | 0 => outOfSteps
  | steps + 1 => do
    let next ← peek
    if (next = .openBrace ∧ depth = 0) ∨ next = .eof then pure before
    else
      let kind ← advance
      let current ← token
      let before :=
        if current.spaced ∧ before.text ≠ "" then before.write " " else before
      if kind = .variableName then
        preludeFrom (before.interpolate current.value) depth steps
      else if (kind = .semicolon ∨ kind = .closeBrace) ∧ depth = 0 then
        unexpected TokenKind.openBrace.describe
      else
        preludeFrom (before.write current.text) (depthAfter depth kind) steps

/-- The text up to the brace that opens a block, which is left unread.  A brace in parentheses or
brackets belongs to the text. -/
def prelude (steps : Nat) : Reading Template :=
  preludeFrom {} 0 steps

/-! ## Names of properties -/

/-- The rest of the name of a property after `before`, up to and with the colon. -/
def propertyNameFrom (before : Template) : Nat → Reading Template
  | 0 => outOfSteps
  | steps + 1 => do
    match ← advance with
    | .colon => if before.text = "" then unexpected "property name" else pure before
    | .variableName => do
      propertyNameFrom (before.interpolate (← token).value) steps
    | .identifier | .minus | .asterisk | .number | .notWord => do
      propertyNameFrom (before.write (← token).text) steps
    | _ => unexpected "property name"

/-- The name of a property, up to and with the colon. -/
def propertyName (steps : Nat) : Reading Template :=
  propertyNameFrom {} steps

/-! ## Looking ahead -/

/-- Reads to the end of the parentheses of which `depth` are open. -/
def skipGroup (depth : Nat) : Nat → Reading Unit
  | 0 => outOfSteps
  | steps + 1 => do
    match ← advance with
    | .openParen => skipGroup (depth + 1) steps
    | .closeParen => if depth ≤ 1 then pure () else skipGroup (depth - 1) steps
    | .eof => pure ()
    | _ => skipGroup depth steps

/-- Whether the parentheses ahead are followed by a block. -/
def groupBeforeBlock (steps : Nat) : Reading Bool :=
  ahead do
    skipGroup 0 steps
    pure ((← peek) = .openBrace)

end Parse

end Cascade
