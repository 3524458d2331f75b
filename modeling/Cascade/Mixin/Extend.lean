import Cascade.Mixin.Expand
import Cascade.Selector.Context

/-!
# Extending mixins

A use without parentheses extends a mixin: its body becomes one rule that all extending selectors
share.  The mixin collects the selectors, and the use itself disappears, except for the statements
that it passes along, which go into rules of their own.

Sharing does not work under a media or feature query, nor for a mixin with parameters; there the
body is copied.
-/

set_option autoImplicit false

namespace Cascade

namespace Node

/-! ## Statements that an extending use passes along -/

/-- Whether rules of this kind have to be built again around passed statements. -/
def isWrapping : Kind → Bool
  | .selector .. | .media .. | .supports _ | .root => true
  | _ => false

mutual

/-- For every `@content` of a tree the rules around it, the outermost first.  `around` are the
rules around the tree itself. -/
def contentWraps (around : List Label) : Node → List (List Label)
  | mk label children =>
    match label.kind with
    | .content => [around]
    | kind => contentWrapsAll (if isWrapping kind then around ++ [label] else around) children

/-- For every `@content` of several trees the rules around it. -/
def contentWrapsAll (around : List Label) : List Node → List (List Label)
  | [] => []
  | node :: rest => contentWraps around node ++ contentWrapsAll around rest

end

/-- Statements inside new rules, the outermost first. -/
def wrapIn (statements : List Node) : List Label → List Node
  | [] => statements
  | label :: inner =>
    let block := (make .block label.line (wrapIn statements inner)).placed .rules
    [mk { label with comments := [] } [block]]

/-- What is left of an extending use: for every `@content` of the mixin, the passed statements in
rules like those around the `@content`. -/
def passedRules (mixin call : Node) : List Node :=
  match call.rules?, mixin.rules? with
  | some content, some body =>
    (contentWrapsAll [] body.children).flatMap fun around =>
      (wrapIn (content.children.map copied) around).map plain
  | _, _ => []

/-! ## Selectors that a mixin collects -/

/-- A kind with more selectors that extend it, in front of those that it has. -/
def extended (selectors : List String) : Kind → Kind
  | .mixin name existing dropped =>
    .mixin name
      (some (existing.getD [] |>.foldl
        (fun all old => if all.contains old then all else all ++ [old]) selectors)) dropped
  | kind => kind

/-- Whether a mixin has or had parameters. -/
def hasParams (mixin : Node) : Bool :=
  !mixin.arguments.isEmpty ||
    match mixin.kind with
    | .mixin _ _ dropped => dropped > 0
    | _ => false

mutual

/-- A tree without the `@content` inside mixins that are emitted as rules; `shared` says that the
tree itself is inside one. -/
def dropContent (shared : Bool) : Node → Node
  | mk label children =>
    let shared := match label.kind with
      | .mixin _ (some _) _ => true
      | _ => shared
    mk label (dropContentAll shared children)

/-- Several trees without the `@content` inside mixins that are emitted as rules. -/
def dropContentAll (shared : Bool) : List Node → List Node
  | [] => []
  | mk label children :: rest =>
    if shared && label.kind.isContent then dropContentAll shared rest
    else dropContent shared (mk label children) :: dropContentAll shared rest

end

end Node

/-! ## Extending uses -/

/-- Extends the mixin at `place` from the use at `path`. -/
def Sheet.extendMixin (sheet : Sheet) (path place : Path) (name : String) : Except Error Sheet :=
  match sheet.root.get? path, sheet.root.get? place with
  | some call, some mixin => do
    let context ← sheet.contextAt path (some place.dropLast)
    if !context.media.isEmpty || !context.supports.isEmpty || mixin.hasParams then
      sheet.expandCall path place
    else if context.selectors.isEmpty then
      .error (call.errorIn sheet.file (.resolve (.extendWithoutSelector name)))
    else
      let graft (mixin : Node) : Node := mixin.withKind (Node.extended context.selectors mixin.kind)
      pure (sheet.withRoot
        ((sheet.root.update graft place).splice (Node.passedRules mixin call) path))
  | _, _ => pure sheet

/-- Handles the extending use at a path, if there is one and it is not part of a definition. -/
def Sheet.extendAt (sheet : Sheet) (path : Path) : Except Error Sheet :=
  match (sheet.root.get? path).map Node.kind with
  | some (.call name true) =>
    if sheet.root.isInsideMixin path then pure sheet
    else do
      let place ← sheet.findMixin path name
      sheet.extendMixin path place name
  | _ => pure sheet

/-- The places of all extending uses, in document order. -/
def Node.extendPlaces (root : Node) : List Path :=
  root.places.filterMap fun (path, node) =>
    match node.kind with
    | .call _ true => some path
    | _ => none

/-- **Handles all extending uses.**  The last one comes first: what takes its place moves only
what follows it. -/
def Sheet.processExtends (sheet : Sheet) : Except Error Sheet := do
  let sheet ← sheet.root.extendPlaces.reverse.foldlM Sheet.extendAt sheet
  pure (sheet.withRoot (sheet.root.dropContent false))

end Cascade
