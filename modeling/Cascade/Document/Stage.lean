import Cascade.Compile
import Cascade.Document.Evaluation
import Cascade.Document.Fields
import Cascade.Document.Flat
import Cascade.Document.Mixins

/-!
# Stages

The stages of compilation as edits of one document.  A stage that fails leaves the document as it
was when it failed, and other stages can still be run on it.
-/

set_option autoImplicit false

namespace Cascade

/-- **Reduces a document to plain rules.** -/
def Editing.reduce (profile : Profile) : Editing Unit := do
  substituteFields profile.fields
  cleanUp
  expandMixins
  processExtends
  cleanUp
  execute profile.commands
  flatten

/-- A stage of compilation, with what it depends on besides the document. -/
inductive Stage where
  | resolveInclusions (library : Library)
  | substituteFields (fields : Fields)
  | scanScopes
  | cleanUp
  | expandMixins
  | processExtends
  | execute (commands : CommandHost)
  | flatten
  | reduce (profile : Profile)

namespace Stage

/-- What a stage does with a document. -/
def run : Stage → Editing Unit
  | resolveInclusions library => Editing.resolveInclusions library
  | substituteFields fields => Editing.substituteFields fields
  | scanScopes => Editing.scanScopes
  | cleanUp => Editing.cleanUp
  | expandMixins => Editing.expandMixins
  | processExtends => Editing.processExtends
  | execute commands => Editing.execute commands
  | flatten => Editing.flatten
  | reduce profile => Editing.reduce profile

/-- The outcome of each of several stages and the document after it, whether it failed or not. -/
def trace : List Stage → Document → List (Except Error Unit × Document)
  | [], _ => []
  | stage :: rest, d =>
    let step := stage.run d
    step :: trace rest step.2

end Stage

end Cascade
