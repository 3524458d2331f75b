import Cascade.Number.Decimal
import Cascade.Text.Names

/-!
# Commands

Stylesheets may call functions of the build, written `@name(...)`.  A command takes literals, may
fail with a reason, and gives a literal back; its result type says how the literal is put into the
stylesheet.  The names of some functions of the style language itself may be written as commands
too, and are passed on.
-/

set_option autoImplicit false

namespace Cascade

/-! ## Literals -/

/-- A literal that a command takes or gives. -/
inductive CommandValue where
  | number (value : Float)
  | string (value : String)
  | boolean (value : Bool)
  | null
  deriving Inhabited

/-- The text of a literal. -/
def CommandValue.text : CommandValue → String
  | number value => Number.plain value
  | string value => value
  | boolean value => toString value
  | null => ""

/-- What becomes of the result of a command: a number of pixels, a `url(...)`, a plain number, or
a word. -/
inductive ResultType where
  | px
  | url
  | number
  | other
  deriving DecidableEq, Repr, Inhabited

namespace ResultType

/-- The name of a result type. -/
def name : ResultType → String
  | px => "px"
  | url => "url"
  | number => "number"
  | other => "other"

/-- The result type of a name. -/
def ofName? (text : String) : Option ResultType :=
  [px, url, number, other].find? fun type => type.name == text

end ResultType

/-! ## Hosts -/

/-- The outcome of a command: a literal and what becomes of it, or the reason of a failure. -/
abbrev CommandResult := Except String (CommandValue × ResultType)

/-- All commands there are: what a name does with its arguments, if there is such a command. -/
abbrev CommandHost := String → List CommandValue → Option CommandResult

/-- A table of commands by name. -/
abbrev CommandRegistry := NameTable (ResultType × (List CommandValue → Except String CommandValue))

/-- The host that has the commands of a table. -/
def CommandRegistry.host (registry : CommandRegistry) : CommandHost :=
  fun name arguments =>
    (NameTable.find? name registry).map fun (type, command) =>
      (command arguments).map fun value => (value, type)

/-! ## Functions that are passed on -/

/-- The functions of the style language that may be written as commands. -/
def builtinFunctions : List String :=
  ["rgb", "rgba", "hsl", "hsb", "url", "format", "matrix", "translate", "translate3d",
    "translateX", "translateY", "translateZ", "scale", "scale3d", "scaleX", "scaleY", "scaleZ",
    "rotate", "rotate3d", "rotateX", "rotateY", "rotateZ", "skewX", "skewY", "perspective",
    "linear-gradient", "radial-gradient", "repeating-linear-gradient",
    "repeating-radial-gradient"]

/-- Whether a command is a function of the style language.  A name with a dash in front is one of
some vendor. -/
def isBuiltin (name : String) : Bool :=
  name.toList.head? == some '-' || builtinFunctions.contains name

end Cascade
