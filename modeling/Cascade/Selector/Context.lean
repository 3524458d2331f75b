import Cascade.Sheet

/-!
# Nested rules

A rule inside other rules applies where all of them apply.  Selectors nest by descent, `&` standing
for the selector around; media queries and feature queries nest by conjunction.
-/

set_option autoImplicit false

namespace Cascade

/-! ## One level of nesting -/

/-- Whether a selector refers to the selector around it. -/
def hasParentReference (selector : String) : Bool :=
  selector.toList.contains '&'

/-- A selector inside another one: `&` stands for the outer selector, and without `&` the inner
selector is a descendant of it, unless the rules in between start at the root again. -/
def nestSelector (atRoot : Bool) (outer inner : String) : String :=
  if hasParentReference inner then Text.replaced "&" outer inner
  else if atRoot then inner
  else outer ++ " " ++ inner

/-- Every selector of `inner` inside every selector of `outer`, without repetitions.  Without outer
selectors there is nothing that `&` could stand for; `keep` leaves it for later. -/
def combineSelectors (outer inner : List String) (atRoot keep : Bool) :
    Except ResolveError (List String) :=
  if outer.isEmpty then
    match inner.find? hasParentReference with
    | some stray => if keep then .ok inner else .error (.strayParentReference stray)
    | none => .ok inner
  else
    .ok (outer.flatMap fun o => inner.map fun i => nestSelector atRoot o i).eraseDups

/-- Every query of `inner` together with every query of `outer`. -/
def combineMedia (outer inner : List String) : List String :=
  if outer.isEmpty then inner
  else outer.flatMap fun o => inner.map fun i => o ++ " and " ++ i

/-! ## Feature queries -/

/-- Whether the group that is open at `depth` ends with the last character of the text. -/
def closesAtEnd : Nat → List Char → Bool
  | _, [] => false
  | depth, c :: cs =>
    if c = '(' then closesAtEnd (depth + 1) cs
    else if c = ')' then if depth ≤ 1 then cs.isEmpty else closesAtEnd (depth - 1) cs
    else closesAtEnd depth cs

/-- Whether a query is one group in parentheses, like `(a: b)` but not `(a: b) or (c: d)`. -/
def isSingleGroup (query : String) : Bool :=
  match query.toList with
  | '(' :: cs => closesAtEnd 1 cs
  | _ => false

/-- A query that can stand beside others. -/
def groupedQuery (query : String) : String :=
  if isSingleGroup query then query else "(" ++ query ++ ")"

/-! ## Contexts -/

/-- Everything that a nested rule inherits from the rules around it. -/
structure Context where
  selectors : List String := []
  media : List String := []
  supports : List String := []
  deriving DecidableEq, Repr, Inhabited

/-- The feature query that says that all of them hold. -/
def Context.supportsQuery (context : Context) : Option String :=
  match context.supports with
  | [] => none
  | [query] => some query
  | queries => some (" and ".intercalate (queries.map groupedQuery))

/-- What is known on the way down to a rule: the context so far, and whether the rules right here
start at the root again. -/
structure Descent where
  context : Context := {}
  atRoot : Bool := false
  deriving Inhabited

/-- One step down into a node. -/
def Descent.enter (file : Option String) (keep : Bool) (descent : Descent) (node : Node) :
    Except Error Descent :=
  let nest (names : List String) : Except Error Descent :=
    match combineSelectors descent.context.selectors names descent.atRoot keep with
    | .ok selectors => .ok { context := { descent.context with selectors } }
    | .error error => .error (node.errorIn file (.resolve error))
  match node.kind with
  | .selector names _ => nest names
  | .mixin _ (some names) _ => nest names
  | .media queries _ =>
    let media := combineMedia descent.context.media queries
    .ok { descent with context := { descent.context with media } }
  | .supports query =>
    let supports := descent.context.supports ++ [query]
    .ok { descent with context := { descent.context with supports } }
  | .root => .ok { descent with atRoot := true }
  | _ => .ok descent

/-- **The context that a chain of nodes makes**, the outermost first. -/
def contextOf (file : Option String) (keep : Bool) (chain : List Node) : Except Error Context :=
  (chain.foldlM (Descent.enter file keep) {}).map Descent.context

/-- The context of a place, the node there included.  With a place to stop at, only the nodes
below that place count, and a stray `&` is kept. -/
def Sheet.contextAt (sheet : Sheet) (path : Path) (stop : Option Path) : Except Error Context :=
  let chain := sheet.root.chain path
  match stop with
  | none => contextOf sheet.file false chain
  | some stop =>
    contextOf sheet.file true (if stop.isPrefixOf path then chain.drop (stop.length + 1) else chain)

end Cascade
