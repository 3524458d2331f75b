import Cascade.Text.Pattern

/-!
# Colored text

Listings can be colored for a terminal.  A colored piece is its text between a start code and a
reset code; a reset inside the text starts the color again, so that pieces may be nested.
-/

set_option autoImplicit false

namespace Cascade

/-- The colors of listings. -/
inductive Color where
  | brightBlack
  | cyan
  | white
  | magenta
  | blue
  deriving DecidableEq, Repr, Inhabited

/-- The number of a color in its start code. -/
def Color.code : Color → Nat
  | brightBlack => 90
  | cyan => 36
  | white => 37
  | magenta => 35
  | blue => 34

/-- The code that ends a color. -/
def resetCode : String := "\x1b[0m"

/-- The code that starts a color. -/
def Color.start (color : Color) : String :=
  "\x1b[" ++ toString color.code ++ "m"

/-- A piece of a listing in a color, if colors are wanted. -/
def paint (colored : Bool) (color : Color) (text : String) : String :=
  if colored then
    color.start ++ Text.replaced resetCode (resetCode ++ color.start) text ++ resetCode
  else text

end Cascade
