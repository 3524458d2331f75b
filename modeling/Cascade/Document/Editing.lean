import Cascade.Document
import Cascade.Selector.Context

/-!
# Editing documents

A computation that edits a document may fail.  What it changed before the failure stays changed, as
a document is not copied before it is edited.
-/

set_option autoImplicit false

namespace Cascade

/-- A computation that edits a document and may fail. -/
abbrev Editing := ExceptT Error (StateM Document)

namespace Editing

variable {α : Type}

/-- Something about the document as it is now. -/
def look (f : Document → α) : Editing α :=
  fun d => (.ok (f d), d)

/-- Changes the document. -/
def edit (change : Document → Document) : Editing Unit :=
  fun d => (.ok (), change d)

/-- Changes the document and gives what the change gives. -/
def make (change : Document → Document × α) : Editing α :=
  fun d => (.ok (change d).2, (change d).1)

/-- A failure for the given reason at the line of a node. -/
def failAt (key : Key) (cause : Cause) : Editing α :=
  fun d => (.error ⟨cause, d.location key⟩, d)

/-- The outcome of a computation that does not edit. -/
def ofExcept (outcome : Except Error α) : Editing α :=
  fun d => (outcome, d)

/-- The outcome of an operation, which may fail at the line of a node. -/
def ofResult (key : Key) : Except EvalError α → Editing α
  | .ok a => pure a
  | .error error => failAt key (.eval error)

/-- Edits another document and gives it back. -/
def elsewhere (document : Document) (editing : Editing Unit) : Editing Document :=
  let (outcome, document) := editing document
  ofExcept (outcome.map fun _ => document)

/-- Puts statements into the block of a new rule and gives the key of the rule. -/
def enclose (label : Label) (statements : List Key) : Editing Key := do
  let rule ← make (·.push label)
  let block ← make (·.create .block label.line)
  edit (·.appendAs rule block .rules)
  statements.forM fun statement => edit (·.append block statement)
  pure rule

/-- Copies of nodes with everything below them. -/
def deepClones (keys : List Key) : Editing (List Key) :=
  keys.mapM fun key => make (·.deepClone key)

end Editing

namespace Document

/-- Whether a node lies inside the definition of a mixin. -/
def isInsideMixin (d : Document) (key : Key) : Bool :=
  (d.ancestors key).any fun ancestor => (d.kindAt ancestor).isMixin

/-- The context of a node, the node itself included.  With a node to stop at, only what lies below
that node counts, and a stray `&` is kept. -/
def contextAt (d : Document) (key : Key) (stop : Option Key) : Except Error Context :=
  let chain := (key :: d.ancestors key).takeWhile fun ancestor => some ancestor != stop
  contextOf d.file stop.isSome (chain.reverse.map fun ancestor => .mk (d.labelAt ancestor) [])

end Document

end Cascade
