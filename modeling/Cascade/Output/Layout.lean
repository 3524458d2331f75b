import Cascade.Text.Blank
import Cascade.Text.Pattern

/-!
# Layouts

How the output is laid out: line breaks, blanks, indentation, and how many decimals numbers keep.
The layout with nothing switched on gives the shortest text.
-/

set_option autoImplicit false

namespace Cascade

/-- One switch of a layout. -/
inductive LayoutFlag where
  /-- A line break after every rule. -/
  | blocks
  /-- A line break after every property. -/
  | statements
  /-- Blanks before braces, after colons and between selectors. -/
  | whitespace
  /-- Indentation by the depth of nesting. -/
  | indent
  /-- A semicolon after the last property.  It is always written. -/
  | semicolon
  /-- A blank after every comma in a value. -/
  | comma
  deriving DecidableEq, Repr, Inhabited

namespace LayoutFlag

/-- All flags, in the order in which they are listed. -/
def all : List LayoutFlag :=
  [blocks, statements, whitespace, indent, semicolon, comma]

/-- The name of a flag. -/
def name : LayoutFlag → String
  | blocks => "blocks"
  | statements => "statements"
  | whitespace => "whitespace"
  | indent => "indent"
  | semicolon => "semicolon"
  | comma => "comma"

/-- The flag of a name. -/
def ofName? (text : String) : Option LayoutFlag :=
  all.find? fun flag => flag.name == text

end LayoutFlag

/-- How the output is laid out. -/
structure Layout where
  /-- The flags that are switched on. -/
  flags : List LayoutFlag := []
  /-- How many decimals numbers keep. -/
  precision : Option Nat := none
  deriving DecidableEq, Repr, Inhabited

/-- A layout was asked for that does not exist. -/
inductive LayoutError where
  | unknownFlag (text : String)
  deriving DecidableEq, Repr

def LayoutError.message : LayoutError → String
  | unknownFlag text => "unknown format flag `" ++ text ++ "`"

namespace Layout

/-- Whether a flag is switched on. -/
def has (layout : Layout) (flag : LayoutFlag) : Bool :=
  layout.flags.contains flag

/-- A text that stands for the layout: the flags in their order, and the precision if there is
one. -/
def key (layout : Layout) : String :=
  let flags := ",".intercalate ((LayoutFlag.all.filter layout.has).map LayoutFlag.name)
  match layout.precision with
  | some precision => flags ++ ";" ++ toString precision
  | none => flags

/-- Reads the names of flags, separated by commas.  Blanks around the names do not count, and
neither do empty names. -/
def parse (text : String) : Except LayoutError Layout := do
  let names := (Text.pieces ',' text.toList).map fun piece => String.ofList (Text.trim piece)
  let flags ← (names.filter (· ≠ "")).mapM fun name =>
    match LayoutFlag.ofName? name with
    | some flag => pure flag
    | none => throw (LayoutError.unknownFlag name)
  pure { flags }

end Layout

end Cascade
