import Cascade.Document.Editing
import Cascade.Flat

/-!
# Flattening a document

The rules of a document are moved to the top, each with its selectors written out and inside the
queries that it was nested in.
-/

set_option autoImplicit false

namespace Cascade

namespace Document

/-- The containers below a key, as far as the given depth, in document order. -/
def containersTo (d : Document) : Nat → Key → List Key
  | 0, _ => []
  | depth + 1, key =>
    let kind := d.kindAt key
    if !kind.isContainer || kind.isDiscarded then []
    else if kind.isWhole then [key]
    else key :: (((d.rules? key).map d.childKeys).getD []).flatMap (d.containersTo depth)

/-- Whether a node is a rule without statements. -/
def isEmptyRule (d : Document) (key : Key) : Bool :=
  match d.kindAt key with
  | .selector .. | .mixin .. | .media .. | .supports _ | .root =>
    (((d.rules? key).map d.childKeys).getD []).isEmpty
  | _ => false

/-- The blocks of two rules that can be merged. -/
def mergeable? (d : Document) (previous next : Key) : Option (Key × Key) :=
  match (d.kindAt previous).sameRule (d.kindAt next), d.rules? previous, d.rules? next with
  | true, some target, some source => some (target, source)
  | _, _, _ => none

end Document

namespace Editing

/-! ## Blocks that stand for themselves -/

/-- Puts the statements of a block in its place, if it stands for itself. -/
def dissolveAt (key : Key) : Editing Unit := do
  if ← look fun d => (d.kindAt key).isBlock && (d.relation? key).isNone && (d.parent? key).isSome then
    let statements ← make (·.takeChildren key)
    edit (·.splice key statements)
  else pure ()

/-- Dissolves every block that stands for itself, inner ones first. -/
def dissolveBlocks : Editing Unit := do
  let keys ← look (·.postorder Document.root)
  keys.forM dissolveAt

/-! ## Lifting rules out -/

/-- A new rule for what a container holds itself, if it has statements and selectors.  What is
lifted out as a whole is the container itself. -/
def ruleOf (key : Key) (context : Context) : Editing (Option Key) := do
  if (← look (·.kindAt key)).isWhole then
    edit (·.remove key)
    pure (some key)
  else
    match ← look (·.rules? key) with
    | none => pure none
    | some block =>
      let statements ← look fun d =>
        (d.childKeys block).filter fun statement => !(d.kindAt statement).isContainer
      if statements.isEmpty || context.selectors.isEmpty then pure none
      else
        let line ← look (·.lineAt key)
        some <$> enclose { kind := .selector context.selectors [], line } statements

/-- Puts a node into a new rule of a kind, if there is one. -/
def encloseIn (kind : Option Kind) (key : Key) : Editing Key := do
  match kind with
  | some kind =>
    let line ← look (·.lineAt key)
    enclose { kind, line } [key]
  | none => pure key

/-- Puts a node into the queries of its context, the media query outermost. -/
def wrap (context : Context) (key : Key) : Editing Key := do
  let key ← encloseIn (context.supportsQuery.map .supports) key
  encloseIn (if context.media.isEmpty then none else some (.media context.media [])) key

/-- What a container becomes at the top. -/
def liftOne (key : Key) (context : Context) : Editing (List Key) := do
  match ← ruleOf key context with
  | some rule => pure [← wrap context rule]
  | none => pure []

/-- What a statement of the stylesheet becomes.  Mixins come before the rules that they were defined
in. -/
def liftStatement (key : Key) : Editing (List Key) := do
  let kind ← look (·.kindAt key)
  if kind.isDiscarded then pure []
  else if !kind.isContainer then pure [key]
  else
    let found ← look fun d => d.containersTo d.cells.size key
    -- the contexts are those before any of the containers is taken apart
    let lifted ← ofExcept (← look fun d =>
      found.mapM fun key => (d.contextAt key none).map fun context => (key, context))
    let mixins ← look fun d => lifted.filter fun (key, _) => (d.kindAt key).isMixin
    let rules ← look fun d => lifted.filter fun (key, _) => !(d.kindAt key).isMixin
    let statements ← (mixins ++ rules).mapM fun (key, context) => liftOne key context
    pure statements.flatten

/-- Moves every rule to the top. -/
def liftRules : Editing Unit := do
  let statements ← make (·.takeChildren Document.root)
  let lifted ← statements.mapM liftStatement
  lifted.flatten.forM fun key => edit (·.append Document.root key)

/-! ## Removing what is empty -/

/-- Takes out a node if it is an empty rule or leaves no trace. -/
def dropEmptyAt (key : Key) : Editing Unit := do
  if ← look fun d => d.isEmptyRule key || (d.kindAt key).isDiscarded then edit (·.remove key)
  else pure ()

/-- Takes out empty rules and what leaves no trace. -/
def dropEmpty : Editing Unit := do
  let keys ← look (·.postorder Document.root)
  keys.forM dropEmptyAt

/-! ## Merging neighbours -/

/-- Moves the statements of a block behind those of another one and takes its rule out. -/
def mergeInto (target source next : Key) : Editing Unit := do
  let statements ← make (·.takeChildren source)
  statements.forM fun statement => edit (·.append target statement)
  edit (·.remove next)

/-- Merges each of several neighbours into the one before it where that is possible. -/
def mergeAfter : Key → List Key → Editing Unit
  | _, [] => pure ()
  | previous, next :: rest => do
    match ← look (·.mergeable? previous next) with
    | some (target, source) =>
      mergeInto target source next
      mergeAfter previous rest
    | none => mergeAfter next rest

/-- Merges neighbours among the children of a node. -/
def mergeChildren (parent : Key) : Editing Unit := do
  match ← look (·.childKeys parent) with
  | [] => pure ()
  | first :: rest => mergeAfter first rest

/-- Merges neighbours among the children of a node, inside queries too, down to the given depth. -/
def mergeBelow : Nat → Key → Editing Unit
  | 0, parent => mergeChildren parent
  | depth + 1, parent => do
    mergeChildren parent
    (← look (·.childKeys parent)).forM fun child => do
      match (← look (·.kindAt child)).isQuery, ← look (·.rules? child) with
      | true, some block => mergeBelow depth block
      | _, _ => pure ()

/-! ## All steps -/

/-- **Flattens a document.** -/
def flatten : Editing Unit := do
  dissolveBlocks
  liftRules
  dropEmpty
  mergeBelow (← look (·.cells.size)) Document.root

end Editing

end Cascade
