import Cascade.Evaluation.Statement
import Cascade.Field
import Cascade.Flat
import Cascade.Inclusion
import Cascade.Mixin.Extend
import Cascade.Output.Css
import Cascade.Scope.Unused

/-!
# Compiling stylesheets

The stages together: fields are put in, unused definitions removed, mixins expanded and extended,
variables and expressions evaluated, and nested rules flattened.  What is left is written out.
-/

set_option autoImplicit false

namespace Cascade

/-- What a compilation depends on besides the stylesheet. -/
structure Profile where
  fields : Fields := []
  commands : CommandHost := fun _ _ => none

/-- **Reduces a stylesheet to plain rules.** -/
def Sheet.reduce (sheet : Sheet) (profile : Profile) : Except Error Sheet := do
  let sheet ← sheet.substituteFields profile.fields
  let sheet ← sheet.cleanUp
  let sheet ← sheet.expandMixins
  let sheet ← sheet.processExtends
  let sheet ← sheet.cleanUp
  let sheet ← sheet.execute profile.commands
  sheet.flatten

/-- **Compiles a stylesheet** without inclusions. -/
def compile (source : Source) (profile : Profile) (layout : Layout) : Except Error String := do
  let sheet ← Sheet.parse source
  let sheet ← sheet.reduce profile
  sheet.css layout

/-- Compiles a stylesheet, with a library for its inclusions. -/
def compileWith (library : Library) (source : Source) (profile : Profile) (layout : Layout) :
    Except Error String := do
  let sheet ← Sheet.parse source
  let sheet ← sheet.resolveInclusions library
  let sheet ← sheet.reduce profile
  sheet.css layout

end Cascade
