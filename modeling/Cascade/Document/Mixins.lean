import Cascade.Document.Definitions
import Cascade.Mixin.Extend

/-!
# Mixins in a document

A use of a mixin is replaced by a renamed copy of its body, into which the arguments of the use are
moved.  An extending use leaves its selectors with the mixin instead, and of the use itself the
statements that it passes along remain.
-/

set_option autoImplicit false

namespace Cascade

namespace Document

/-- The parameters of a mixin, with their default values. -/
def paramsOf (d : Document) (mixin : Key) : List (String × Option Key) :=
  (d.argumentKeys mixin).filterMap fun param =>
    match d.kindAt param with
    | .param name => some (name, d.child? param .initializer)
    | _ => none

/-- The marks for passed statements below a key. -/
def contentMarkers (d : Document) (key : Key) : List Key :=
  (d.preorder key).filter fun below => (d.kindAt below).isContent

end Document

namespace Editing

/-! ## Copying uses -/

/-- Renames the names that belong to a mixin in all nodes below a key. -/
def renameBelow (r : Renaming) (key : Key) : Editing Unit := do
  let keys ← look (·.preorder key)
  keys.forM fun key => edit (·.updateKind key r.renameKind)

/-- The value that a parameter starts with: the argument, if there is one, or else a copy of the
default value. -/
def paramValue (r : Renaming) (default argument : Option Key) : Editing (Option Key) := do
  match argument, default with
  | some argument, _ => pure (some argument)
  | none, some default =>
    let value ← make (·.deepClone default)
    renameBelow r value
    pure (some value)
  | none, none => pure none

/-- Gives a declaration its value, if there is one. -/
def initializeWith (declaration : Key) (value : Option Key) : Editing Unit :=
  match value with
  | some value => edit (·.appendAs declaration value .initializer)
  | none => pure ()

/-- Puts the declaration of a parameter at the head of an expansion. -/
def declareParam (r : Renaming) (line : Nat) (expansion : Key) (name : String)
    (default argument : Option Key) : Editing Unit := do
  let declaration ← make (·.create (.declaration (r.marked name)) line)
  let value ← paramValue r default argument
  initializeWith declaration value
  edit (·.insert expansion 0 declaration)

/-- Puts copies of the statements of a block in the place of a mark, or takes the mark away if there
is no block. -/
def fillContent (content : Option Key) (marker : Key) : Editing Unit := do
  match content with
  | some block =>
    let copies ← deepClones (← look (·.childKeys block))
    edit (·.splice marker copies)
  | none => edit (·.remove marker)

/-- A copy of the body of a mixin, or an empty block if there is none. -/
def bodyCopy (mixin : Key) (line : Nat) : Editing Key := do
  match ← look (·.rules? mixin) with
  | some body => make (·.deepClone body)
  | none => make (·.create .block line)

/-- **Replaces a use by the body of a mixin.** -/
def expandCall (call mixin : Key) : Editing Unit := do
  let params ← look (·.paramsOf mixin)
  let arguments ← look (·.argumentKeys call)
  let limit ← look fun d => (d.view mixin).argumentLimit
  if limit < arguments.length then
    let name ← look fun d => (d.view mixin).mixinName
    failAt call (.resolve (.tooManyArguments name limit arguments.length))
  else
    let line ← look (·.lineAt call)
    let expansion ← bodyCopy mixin line
    let mark ← make (·.nextMark)
    let locals ← look fun d => (d.view mixin).localNames (d.view expansion)
    let r : Renaming := { mark, locals }
    renameBelow r expansion
    -- every declaration goes in front of those already there, so the last parameter comes first
    params.zipIdx.reverse.forM fun ((name, default), i) =>
      declareParam r line expansion name default arguments[i]?
    let content ← look (·.rules? call)
    (← look (·.contentMarkers expansion)).forM (fillContent content)
    edit (·.replace call expansion)

end Editing

/-- Whether a use of a mixin is expanded in this round. -/
def ExpansionRound.selectsIn (round : ExpansionRound) (d : Document) (call : Key) (extend : Bool) :
    Bool :=
  match round with
  | .definitions => d.isInsideMixin call
  | .rules => !extend && !d.isInsideMixin call

namespace Editing

/-- Expands a use, if the node is one that is still there and belongs to this round. -/
def expandAt (round : ExpansionRound) (key : Key) : Editing Unit := do
  match ← look (·.kindAt key) with
  | .call name extend =>
    if ← look fun d => d.isAttached key && round.selectsIn d key extend then
      let mixin ← findMixin key name
      expandCall key mixin
    else pure ()
  | _ => pure ()

/-- Expands all uses that belong to a round, inner ones first. -/
def expandRound (round : ExpansionRound) : Editing Unit := do
  let keys ← look (·.postorder Document.root)
  keys.forM (expandAt round)

/-- **Expands the copying uses of mixins**, and all uses inside definitions. -/
def expandMixins : Editing Unit := do
  expandRound .definitions
  expandRound .rules

/-! ## Extending uses -/

/-- Copies of passed statements in rules like those around a mark in the body of a mixin, the
innermost rule first. -/
def rulesAround (body content marker : Key) : Editing (List Key) := do
  let around ← look fun d => ((d.ancestors marker).takeWhile (· != body)).filter fun ancestor =>
    Node.isWrapping (d.kindAt ancestor)
  let copies ← deepClones (← look (·.childKeys content))
  around.foldlM (fun statements rule => do
    let label ← look (·.labelAt rule)
    pure [← enclose { label with comments := [] } statements]) copies

/-- What is left of an extending use: for every mark in the body of the mixin, the passed statements
in rules like those around the mark. -/
def passedRules (mixin call : Key) : Editing (List Key) := do
  match ← look (·.rules? call), ← look (·.rules? mixin) with
  | some content, some body =>
    let markers ← look (·.contentMarkers body)
    let rules ← markers.mapM (rulesAround body content)
    pure rules.flatten
  | _, _ => pure []

/-- Extends a mixin from a use. -/
def extendMixin (call mixin : Key) (name : String) : Editing Unit := do
  let context ← ofExcept (← look fun d => d.contextAt call (d.parent? mixin))
  let hasParams ← look fun d => (d.view mixin).hasParams
  if !context.media.isEmpty || !context.supports.isEmpty || hasParams then expandCall call mixin
  else if context.selectors.isEmpty then
    failAt call (.resolve (.extendWithoutSelector name))
  else
    edit (·.updateKind mixin (Node.extended context.selectors))
    let replacement ← passedRules mixin call
    if replacement.isEmpty then edit (·.remove call) else edit (·.splice call replacement)

/-- Handles an extending use, if the node is one that is still there and not part of a
definition. -/
def extendAt (key : Key) : Editing Unit := do
  match ← look (·.kindAt key) with
  | .call name true =>
    if ← look fun d => d.isAttached key && !d.isInsideMixin key then
      let mixin ← findMixin key name
      extendMixin key mixin name
    else pure ()
  | _ => pure ()

end Editing

/-- Whether a mixin is emitted as a rule of its own. -/
def Kind.isExtended : Kind → Bool
  | .mixin _ (some _) _ => true
  | _ => false

namespace Editing

/-- Takes away the marks in mixins that are emitted as rules, where nothing is passed along. -/
def dropContent : Editing Unit := do
  let markers ← look fun d => (d.contentMarkers Document.root).filter fun marker =>
    (d.ancestors marker).any fun ancestor => (d.kindAt ancestor).isExtended
  markers.forM fun marker => edit (·.remove marker)

/-- **Handles all extending uses**, the last one first. -/
def processExtends : Editing Unit := do
  let keys ← look (·.preorder Document.root)
  keys.reverse.forM extendAt
  dropContent

end Editing

end Cascade
