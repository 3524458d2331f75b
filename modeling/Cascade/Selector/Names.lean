import Cascade.Text.Blank

/-!
# Lists of selectors

The text before the brace of a rule is a list of selectors separated by commas.  A comma in quotes,
parentheses or brackets separates nothing.  Blanks around the combinators `>`, `+` and `~` do not
matter and are dropped, so that selectors can be compared as texts.
-/

set_option autoImplicit false

namespace Cascade

/-! ## Quotes and brackets -/

/-- What is open at a place in a text: the quotation mark of a string, and how many parentheses
and brackets. -/
structure Nesting where
  quote : Option Char := none
  depth : Nat := 0
  deriving DecidableEq, Repr, Inhabited

namespace Nesting

/-- The characters that open or close something. -/
def isMark (c : Char) : Bool :=
  c == '"' || c == '\'' || c == '(' || c == '[' || c == ')' || c == ']'

/-- What is open after one more character.  In quotes only the same quotation mark counts, and a
bracket that closes nothing is ignored. -/
def step (nesting : Nesting) (c : Char) : Nesting :=
  match nesting.quote with
  | some mark => if c = mark then { nesting with quote := none } else nesting
  | none =>
    if c = '"' ∨ c = '\'' then { nesting with quote := some c }
    else if c = '(' ∨ c = '[' then { nesting with depth := nesting.depth + 1 }
    else if c = ')' ∨ c = ']' then { nesting with depth := nesting.depth - 1 }
    else nesting

/-- Whether nothing is open. -/
def isTop (nesting : Nesting) : Bool :=
  nesting.quote.isNone && nesting.depth == 0

end Nesting

/-! ## Splitting -/

/-- The text cut at every separator outside of quotes and brackets.  There is always at least one
piece. -/
def topLevelPieces (separator : Char) (nesting : Nesting) : List Char → List (List Char)
  | [] => [[]]
  | c :: cs =>
    if nesting.isTop ∧ c = separator ∧ ¬ Nesting.isMark c then
      [] :: topLevelPieces separator nesting cs
    else
      match topLevelPieces separator (nesting.step c) cs with
      | [] => [[c]]
      | first :: rest => (c :: first) :: rest

/-- The pieces of a text between the separators outside of quotes and brackets, each without the
blanks around it.  A blank text has no pieces. -/
def splitTopLevel (separator : Char) (text : String) : List String :=
  match (topLevelPieces separator {} text.toList).map Text.trim with
  | [[]] => []
  | pieces => pieces.map String.ofList

/-! ## Selectors -/

/-- The three marks between the parts of a selector. -/
def isCombinator (c : Char) : Bool :=
  c == '>' || c == '+' || c == '~'

/-- Drops the blanks around combinators outside of quotes and brackets.  `done` is the text so far,
the last character first, and `after` says that a combinator was the last thing written. -/
def collapseFrom (nesting : Nesting) (after : Bool) (done : List Char) : List Char → List Char
  | [] => done.reverse
  | c :: cs =>
    if nesting.isTop ∧ isCombinator c then
      collapseFrom nesting true (c :: done.dropWhile Text.isBlank) cs
    else if nesting.quote.isNone ∧ c = ' ' ∧ after then
      collapseFrom nesting after done cs
    else
      collapseFrom (nesting.step c) false (c :: done) cs

/-- A selector without blanks around its combinators. -/
def collapseCombinators (selector : String) : String :=
  String.ofList (collapseFrom {} false [] selector.toList)

/-- **The selectors of a list**, each in its shortest form. -/
def splitSelectors (text : String) : List String :=
  (splitTopLevel ',' text).map collapseCombinators

end Cascade
