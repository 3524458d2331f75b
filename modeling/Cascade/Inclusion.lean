import Cascade.Sheet

/-!
# Included stylesheets

`@include "path";` stands for the statements of another stylesheet.  Inclusions are resolved
recursively; a path that is already being included is a cycle.
-/

set_option autoImplicit false

namespace Cascade

/-- Where included stylesheets come from.  `load` gives the text at a path, or the reason why there
is none, and `depth` bounds the length of a chain of inclusions in which no path repeats. -/
structure Library where
  load : String → Except String String
  depth : Nat

/-- The library with the stylesheets of a table.  A path that is not in the table fails with the
given reason. -/
def Library.ofTable (table : NameTable String) (reason : String) : Library where
  load path := match NameTable.find? path table with
    | some text => .ok text
    | none => .error reason
  depth := table.length

namespace Node

/-- The paths that a tree includes, in document order. -/
def inclusions (root : Node) : List String :=
  root.preorder.filterMap fun node =>
    match node.kind with
    | .inclusion path => some path
    | _ => none

mutual

/-- A tree with every inclusion below its root replaced by the statements that `resolve` gives for
its path and line. -/
def expandInclusions (resolve : String → Nat → Except Error (List Node)) :
    Node → Except Error Node
  | mk label children => do pure (mk label (← expandInclusionsAll resolve children))

/-- Several trees with every inclusion replaced. -/
def expandInclusionsAll (resolve : String → Nat → Except Error (List Node)) :
    List Node → Except Error (List Node)
  | [] => .ok []
  | mk label children :: rest =>
    match label.kind with
    | .inclusion path => do
      let statements ← resolve path label.line
      let rest ← expandInclusionsAll resolve rest
      pure (statements ++ rest)
    | _ => do
      let node ← expandInclusions resolve (mk label children)
      let rest ← expandInclusionsAll resolve rest
      pure (node :: rest)

end

end Node

/-- Resolves the inclusions of a tree read from `file`.  `chain` are the paths being included and
`depth` bounds how many more there may be. -/
def Library.resolve (library : Library) :
    Nat → Option String → List String → Node → Except Error Node
  | depth, file, chain, root =>
    root.expandInclusions fun path line =>
      let failure (error : ResolveError) : Error := ⟨.resolve error, ⟨file, line⟩⟩
      if path ∈ chain then .error (failure (.includeCycle path))
      else
        match library.load path with
        | .error reason => .error (failure (.includeFailed path reason))
        | .ok text =>
          match depth with
          | 0 => .error (failure (.includeCycle path))
          | depth + 1 => do
            let included ← parse { text, file := some path }
            let resolved ← library.resolve depth (some path) (path :: chain) included
            pure (resolved.children.map fun statement => statement.copied.plain)

/-- **Replaces every inclusion of a stylesheet** by the statements of the stylesheet it names. -/
def Sheet.resolveInclusions (sheet : Sheet) (library : Library) : Except Error Sheet :=
  (library.resolve library.depth sheet.file [] sheet.root).map sheet.withRoot

end Cascade
