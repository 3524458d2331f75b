import Cascade.Document.Editing
import Cascade.Field
import Cascade.Inclusion

/-!
# Putting texts from outside into a document

Fields of the build are put in where a document asks for them, and the statements of other
stylesheets where it includes them.
-/

set_option autoImplicit false

namespace Cascade

namespace Editing

/-! ## Fields -/

/-- Puts fields in the place of the words of a condition that name them. -/
def patchCondition (fields : Fields) (condition : Key) : Editing Unit := do
  let keys ← look (·.preorder condition)
  keys.forM fun key => edit (·.updateKind key (fields.patch true))

/-- Puts a field in the place of the command that asks for it. -/
def inlineField (fields : Fields) (command : Key) : Editing Unit := do
  match fields.requested? false (← look (·.view command)) with
  | none => failAt command (.eval (.invalidCommandArgument "field"))
  | some name =>
    match NameTable.find? name fields with
    | none => failAt command (.eval (.unknownField name))
    | some value =>
      let _ ← make (·.takeChildren command)
      edit (·.updateKind command fun _ => value.kind)

/-- Puts fields into a single node. -/
def substituteFieldsAt (fields : Fields) (key : Key) : Editing Unit := do
  match ← look (·.kindAt key) with
  | .conditional =>
    match ← look (·.child? key .condition) with
    | some condition => patchCondition fields condition
    | none => pure ()
  | .command "field" => inlineField fields key
  | _ => pure ()

/-- **Puts fields into a document.** -/
def substituteFields (fields : Fields) : Editing Unit := do
  let keys ← look (·.preorder Document.root)
  keys.forM (substituteFieldsAt fields)

/-! ## Inclusions -/

/-- Puts the statements that `fetch` gives for a path in the place of a node that includes it. -/
def includeAt (fetch : String → Key → Editing (List Node)) (key : Key) : Editing Unit := do
  match ← look (·.kindAt key) with
  | .inclusion path =>
    let statements ← fetch path key
    let keys ← statements.mapM fun statement => make (·.graft statement)
    edit (·.splice key keys)
  | _ => pure ()

/-- Replaces every inclusion of a document by the statements that `fetch` gives for its path. -/
def includeAll (fetch : String → Key → Editing (List Node)) : Editing Unit := do
  let keys ← look (·.preorder Document.root)
  keys.forM (includeAt fetch)

/-- The statements of the stylesheet at a path.  `chain` are the paths being included, and
`resolve` resolves the inclusions of the stylesheet itself in a document of its own. -/
def fetchStatements (library : Library) (chain : List String) (resolve : Option (Editing Unit))
    (path : String) (key : Key) : Editing (List Node) :=
  if path ∈ chain then failAt key (.resolve (.includeCycle path))
  else
    match library.load path, resolve with
    | .error reason, _ => failAt key (.resolve (.includeFailed path reason))
    | .ok _, none => failAt key (.resolve (.includeCycle path))
    | .ok text, some resolve => do
      let included ← ofExcept (parse { text, file := some path })
      let document ← elsewhere (Document.ofTree (some path) included) resolve
      pure ((document.childKeys Document.root).map document.view)

/-- Replaces every inclusion of a document.  `chain` are the paths being included and `depth` bounds
how many more there may be. -/
def resolveWithin (library : Library) : Nat → List String → Editing Unit
  | 0, chain => includeAll (fetchStatements library chain none)
  | depth + 1, chain => includeAll fun path key =>
    fetchStatements library chain (some (resolveWithin library depth (path :: chain))) path key

/-- **Replaces every inclusion of a document** by the statements of the stylesheet it names. -/
def resolveInclusions (library : Library) : Editing Unit :=
  resolveWithin library library.depth []

end Editing

end Cascade
