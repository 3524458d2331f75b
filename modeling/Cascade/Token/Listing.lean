import Cascade.Number.Decimal
import Cascade.Text.Paint
import Cascade.Token.Basic

/-!
# Listings of tokens

One token a line: its line number, its kind, and its value.
-/

set_option autoImplicit false

namespace Cascade

/-- The value of a token in a listing: the number with its unit, or the name or contents. -/
def Token.shown (token : Token) : String :=
  match token.kind with
  | .number => Number.plain token.number ++ token.unit.getD ""
  | _ => token.value

/-- The line of a token in a listing. -/
def Token.listing (colored : Bool) (token : Token) : String :=
  paint colored .brightBlack (Text.padLeft 4 (toString token.line)) ++ " "
    ++ paint colored .cyan token.kind.describe ++ " " ++ paint colored .white token.shown

/-- **A listing of tokens**, one a line. -/
def listTokens (colored : Bool) (tokens : List Token) : String :=
  "\n".intercalate (tokens.map (Token.listing colored))

end Cascade
