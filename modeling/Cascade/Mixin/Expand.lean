import Cascade.Mixin.Lookup
import Cascade.Scope.Scan

/-!
# Expanding mixins

A use of a mixin is replaced by a block with a copy of its body.  The names that belong to the
mixin, its parameters and what it declares, get a mark in the copy, a new one for every use, so
that they meet no other names.  The parameters become declarations at the head of the block, and
the statements passed along take the place of every `@content`.

Uses inside definitions are expanded first, so that the body of a mixin has no uses left when a
rule uses the mixin.
-/

set_option autoImplicit false

namespace Cascade

/-! ## Renaming -/

/-- The names that belong to a mixin and the mark they get in one copy of it. -/
structure Renaming where
  mark : String
  locals : NameSet
  deriving Inhabited

namespace Renaming

/-- The mark of the expansion with the given number. -/
def markOf (expansion : Nat) : String :=
  "m" ++ Number.hex 5 expansion

/-- A name with the mark in front. -/
def marked (r : Renaming) (name : String) : String :=
  r.mark ++ "-" ++ name

/-- Whether a name belongs to the mixin, by itself or by its package. -/
def isLocal (r : Renaming) (name : String) : Bool :=
  r.locals.contains name || r.locals.contains ((Text.package? name).getD name)

/-- The name in the copy. -/
def rename (r : Renaming) (name : String) : String :=
  if r.isLocal name then r.marked name else name

/-- A text in the copy, in which the given names are written with the mark. -/
def renameIn (r : Renaming) (names : List String) (text : String) : String :=
  names.foldl
    (fun text name =>
      Text.replaced (interpolation name) (interpolation (r.marked name)) text) text

/-- The kind of a node in the copy. -/
def renameKind (r : Renaming) : Kind → Kind
  | .declaration name => .declaration (r.rename name)
  | .assign name operator => .assign (r.rename name) operator
  | .reference name => .reference (r.rename name)
  | .call name extend => .call (r.rename name) extend
  | .mixin name selector dropped => .mixin (r.rename name) selector dropped
  | .param name => .param (r.rename name)
  | kind =>
    let names := kind.dynamic.filter r.isLocal
    kind.withTexts (r.renameIn names)
      (names.foldl (fun set name => NameSet.insert (r.marked name) (set.erase name))
        kind.dynamic)

end Renaming

namespace Node

mutual

/-- A tree with the local names of a mixin renamed. -/
def renamed (r : Renaming) : Node → Node
  | mk label children =>
    mk { label with kind := r.renameKind label.kind } (renamedAll r children)

/-- Several trees with the local names of a mixin renamed. -/
def renamedAll (r : Renaming) : List Node → List Node
  | [] => []
  | node :: rest => renamed r node :: renamedAll r rest

end

/-- The names that belong to a mixin: its parameters and what is declared anywhere in its body. -/
def localNames (mixin body : Node) : NameSet :=
  NameSet.ofList (mixin.paramNames ++ body.preorder.filterMap fun node =>
    match node.kind with
    | .declaration name | .mixin name _ _ => some name
    | _ => none)

/-! ## Passed statements -/

mutual

/-- A tree with the given statements in the place of every `@content` below its root. -/
def fillContent (statements : List Node) : Node → Node
  | mk label children => mk label (fillContentAll statements children)

/-- Several trees with the given statements in the place of every `@content`. -/
def fillContentAll (statements : List Node) : List Node → List Node
  | [] => []
  | mk label children :: rest =>
    (match label.kind with
      | .content => statements
      | _ => [fillContent statements (mk label children)])
      ++ fillContentAll statements rest

end

/-- Copies of the statements that a use passes along. -/
def passedStatements (call : Node) : List Node :=
  match call.rules? with
  | some content => content.children.map fun statement => statement.copied.plain
  | none => []

/-! ## Expansion -/

/-- The declaration of a parameter at the head of an expansion: its value is the argument, if
there is one, and otherwise the default value. -/
def paramDeclaration (r : Renaming) (line : Nat) (name : String) (default : Option Node)
    (argument : Option Node) : Node :=
  let value := match argument with
    | some argument => some argument
    | none => default.map fun value : Node => value.copied.renamed r
  make (.declaration (r.marked name)) line
    (value.toList.map fun value : Node => value.placed .initializer)

/-- The declarations of all parameters, each with the argument in its position. -/
def paramDeclarations (r : Renaming) (mixin call : Node) : List Node :=
  let params := mixin.arguments.filterMap fun param =>
    match param.kind with
    | .param name => some (name, param.child? .initializer)
    | _ => none
  params.zipIdx.map fun ((name, default), i) =>
    paramDeclaration r call.line name default call.arguments[i]?

/-- **The block that replaces a use of a mixin**: the parameters, then the body. -/
def expansion (mark : String) (mixin call : Node) : Node :=
  let body := match mixin.rules? with
    | some body => body.copied
    | none => make .block call.line
  let r : Renaming := { mark, locals := mixin.localNames body }
  let body := body.renamed r
  let block := body.withChildren (paramDeclarations r mixin call ++ body.children)
  (block.fillContent call.passedStatements).withRelation call.relation

/-- How many arguments a mixin takes.  Those for parameters that were taken out are ignored. -/
def argumentLimit (mixin : Node) : Nat :=
  mixin.paramNames.length +
    match mixin.kind with
    | .mixin _ _ dropped => dropped
    | _ => 0

end Node

/-- The name of a mixin. -/
def Node.mixinName (mixin : Node) : String :=
  match mixin.kind with
  | .mixin name _ _ => name
  | _ => ""

/-- Replaces the use at a path by the body of the mixin at `place`. -/
def Sheet.expandCall (sheet : Sheet) (path place : Path) : Except Error Sheet :=
  match sheet.root.get? path, sheet.root.get? place with
  | some call, some mixin =>
    if mixin.argumentLimit < call.arguments.length then
      .error (call.errorIn sheet.file (.resolve (.tooManyArguments mixin.mixinName
        mixin.argumentLimit call.arguments.length)))
    else
      let expansions := sheet.expansions + 1
      let block := Node.expansion (Renaming.markOf expansions) mixin call
      .ok { sheet with expansions, root := sheet.root.update (fun _ => block) path }
  | _, _ => .ok sheet

/-! ## All uses -/

/-- The two rounds of expansion: all uses inside definitions, then the copying uses in rules. -/
inductive ExpansionRound where
  | definitions
  | rules
  deriving DecidableEq, Repr, Inhabited

/-- Whether the use at a path is expanded in this round. -/
def ExpansionRound.selects (round : ExpansionRound) (root : Node) (path : Path) (extend : Bool) :
    Bool :=
  match round with
  | .definitions => root.isInsideMixin path
  | .rules => !extend && !root.isInsideMixin path

/-- Expands the use at a path, if there is one that belongs to this round. -/
def ExpansionRound.visit (round : ExpansionRound) (sheet : Sheet) (path : Path) :
    Except Error Sheet :=
  match (sheet.root.get? path).map Node.kind with
  | some (.call name extend) =>
    if round.selects sheet.root path extend then do
      let place ← sheet.findMixin path name
      sheet.expandCall path place
    else pure sheet
  | _ => pure sheet

/-- The places of all uses of mixins, inner ones first. -/
def Node.callPlaces (root : Node) : List Path :=
  root.placesUp.filterMap fun (path, node) =>
    match node.kind with
    | .call .. => some path
    | _ => none

/-- Expands all uses that belong to a round.  Every use keeps its place when another one is
expanded, so the places can be listed before. -/
def Sheet.expandRound (sheet : Sheet) (round : ExpansionRound) : Except Error Sheet :=
  sheet.root.callPlaces.foldlM round.visit sheet

/-- **Expands the copying uses of mixins**, and all uses inside definitions. -/
def Sheet.expandMixins (sheet : Sheet) : Except Error Sheet := do
  let sheet ← sheet.expandRound .definitions
  sheet.expandRound .rules

end Cascade
