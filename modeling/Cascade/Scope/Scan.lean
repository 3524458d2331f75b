import Cascade.Sheet

/-!
# Counting names

The whole stylesheet and every block in it get a record of what they do with names.  The branches
of a conditional have no names of their own: what they declare and read counts in the block that
the conditional stands in.
-/

set_option autoImplicit false

namespace Cascade

/-! ## Single nodes -/

/-- Counts what a node itself does with names, leaving its children aside.  A compound assignment
reads the variable it changes. -/
def Scope.record (kind : Kind) (scope : Scope) : Scope :=
  match kind with
  | .mixin name _ _ => scope.declare name
  | .declaration name => (scope.declare name).modify name
  | .assign name operator =>
    let scope := scope.modify name
    if operator.isSome then scope.access name else scope
  | .reference name | .call name _ => scope.access name
  | kind => kind.dynamic.foldl (fun scope name => scope.access name) scope

/-- The names of the parameters of a mixin. -/
def Node.paramNames (mixin : Node) : List String :=
  mixin.arguments.filterMap fun param =>
    match param.kind with
    | .param name => some name
    | _ => none

/-- What a new block knows before its first statement: if it is the body of a mixin, the name and
the parameters of the mixin. -/
def Scope.opening (parent : Node) : Scope :=
  match parent.kind with
  | .mixin name _ _ => { params := NameSet.ofList parent.paramNames, owner := some name }
  | _ => {}

/-- Whether a node is a branch of a conditional. -/
def Label.isBranch (label : Label) : Bool :=
  label.relation == some .thenPart || label.relation == some .elsePart

/-! ## Trees -/

namespace Node

mutual

/-- Attaches scopes to all blocks of a tree.  `opening` is what a block right here starts with and
`scope` is the record of the block around, which is given back with the counts of the tree. -/
def scanScopes (opening scope : Scope) : Node → Node × Scope
  | mk label children =>
    match label.kind with
    | .block =>
      if label.isBranch then
        let (children, scope) := scanScopesAll {} scope children
        (mk { label with scope := some {} } children, scope)
      else
        let (children, inner) := scanScopesAll {} opening children
        let inner := inner.finish
        (mk { label with scope := some inner } children, inner.absorb scope)
    | kind =>
      let (children, scope) :=
        scanScopesAll (Scope.opening (mk label children)) (scope.record kind) children
      (mk label children, scope)

/-- Attaches scopes to all blocks of several trees, one after the other. -/
def scanScopesAll (opening scope : Scope) : List Node → List Node × Scope
  | [] => ([], scope)
  | node :: rest =>
    let (node, scope) := scanScopes opening scope node
    let (rest, scope) := scanScopesAll opening scope rest
    (node :: rest, scope)

end

end Node

/-- **Attaches scopes to a stylesheet** and all its blocks. -/
def Sheet.scanScopes (sheet : Sheet) : Sheet :=
  let (children, scope) := Node.scanScopesAll {} {} sheet.root.children
  sheet.withRoot (.mk { sheet.root.label with scope := some scope.finish } children)

end Cascade
