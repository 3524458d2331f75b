import Cascade.Operator
import Cascade.Text.Names

/-!
# Kinds of nodes

A stylesheet is a tree of statements, rules and values.  The kind of a node says what it stands for
and holds the texts that belong to it; what it is made of are its children.
-/

set_option autoImplicit false

namespace Cascade

/-! ## Relations -/

/-- The named place a child takes in its parent. -/
inductive Relation where
  | rules
  | params
  | condition
  | thenPart
  | elsePart
  | initializer
  deriving DecidableEq, Repr, Inhabited

/-- The name of the place in outlines. -/
def Relation.name : Relation → String
  | rules => "rules"
  | params => "params"
  | condition => "condition"
  | thenPart => "then_part"
  | elsePart => "else_part"
  | initializer => "initializer"

/-! ## Kinds -/

/-- What a node stands for.  The names in `dynamic` are those of the variables that are written
into the texts of the node. -/
inductive Kind where
  /-- A whole stylesheet. -/
  | sheet
  /-- Statements in braces. -/
  | block
  /-- A rule with its selectors. -/
  | selector (names : List String) (dynamic : NameSet)
  | property (name : String) (dynamic : NameSet) (important : Bool)
  | media (queries : List String) (dynamic : NameSet)
  | supports (query : String)
  /-- Rules that do not nest in the selectors around them. -/
  | root
  | fontFace
  | keyframes (name : String) (vendor : Option String)
  /-- One step of an animation. -/
  | frame (names : List String)
  | declaration (name : String)
  | assign (name : String) (operator : Option AssignOp)
  /-- A mixin; `selector` holds the selectors that extend it and `dropped` counts the parameters
  that were taken away because nobody reads them. -/
  | mixin (name : String) (selector : Option (List String)) (dropped : Nat)
  | param (name : String)
  /-- A use of a mixin: its statements are copied, or, if `extend`, its rule is shared. -/
  | call (name : String) (extend : Bool)
  /-- The place in a mixin where the statements passed by a call go. -/
  | content
  | conditional
  | inclusion (path : String)
  /-- An instruction to whoever drives the compiler. -/
  | directive (name : String)
  | reference (name : String)
  | command (name : String)
  | function (name : String)
  | params
  | binary (operator : BinaryOp)
  | unary (operator : UnaryOp)
  | number (value : Float) (unit : Option String)
  | string (value : String) (quote : Quote)
  | identifier (value : String)
  | boolean (value : Bool)
  | null
  /-- Text that is passed on as it is. -/
  | raw (value : String)
  /-- Values separated by blanks. -/
  | list
  /-- Values separated by commas. -/
  | comma
  /-- Two numbers separated by a slash. -/
  | slash
  deriving Inhabited

namespace Kind

/-- The name of the kind in outlines and error messages. -/
def name : Kind → String
  | sheet => "sheet"
  | block => "block"
  | selector .. => "selector"
  | property .. => "property"
  | media .. => "media"
  | supports _ => "supports"
  | root => "root"
  | fontFace => "font_face"
  | keyframes .. => "keyframes"
  | frame _ => "frame"
  | declaration _ => "declaration"
  | assign .. => "assign"
  | mixin .. => "mixin"
  | param _ => "param"
  | call .. => "call"
  | content => "content"
  | conditional => "if"
  | inclusion _ => "include"
  | directive _ => "meta"
  | reference _ => "variable"
  | command _ => "command"
  | function _ => "function"
  | params => "params"
  | binary _ => "binary"
  | unary _ => "unary"
  | number .. => "number"
  | string .. => "string"
  | identifier _ => "identifier"
  | boolean _ => "boolean"
  | null => "null"
  | raw _ => "raw"
  | list => "list"
  | comma => "comma"
  | slash => "slash"

/-- The kinds of values that have no parts. -/
def isLiteral : Kind → Bool
  | number .. | string .. | identifier _ | boolean _ | null | raw _ => true
  | _ => false

/-- The names of the variables written into the texts of the node. -/
def dynamic : Kind → NameSet
  | selector _ dynamic | property _ dynamic _ | media _ dynamic => dynamic
  | _ => []

/-- The kind with the texts of the node changed and other names written into them. -/
def withTexts (change : String → String) (names : NameSet) : Kind → Kind
  | selector texts _ => selector (texts.map change) names
  | property text _ important => property (change text) names important
  | media texts _ => media (texts.map change) names
  | kind => kind

/-- Whether the node is a stylesheet or a block, and so a list of statements. -/
def isBlockLike : Kind → Bool
  | sheet | block => true
  | _ => false

/-- Whether the node is a block. -/
def isBlock : Kind → Bool
  | block => true
  | _ => false

/-- Whether the node is a conditional. -/
def isConditional : Kind → Bool
  | conditional => true
  | _ => false

/-- Whether the node marks the place for passed statements. -/
def isContent : Kind → Bool
  | content => true
  | _ => false

/-- Whether the node is a mixin. -/
def isMixin : Kind → Bool
  | mixin .. => true
  | _ => false

end Kind

end Cascade
