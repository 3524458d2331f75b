import Cascade.Source

/-!
# Errors

Everything that can go wrong while a stylesheet is compiled.  Each stage has its own type of causes,
and each type one function that gives the wording.  An `Error` is a cause with the line it concerns.
-/

set_option autoImplicit false

namespace Cascade

/-! ## Causes -/

/-- Why a text cannot be cut into tokens. -/
inductive LexError where
  | unterminatedComment
  | unterminatedString
  | unknownOperator (c : Char)
  | invalidVariableBlock
  | illegalCharacter (c : Char)
  deriving DecidableEq, Repr

def LexError.message : LexError → String
  | unterminatedComment => "unterminated comment"
  | unterminatedString => "unterminated string literal"
  | unknownOperator c => "unknown operator `" ++ c.toString ++ "`"
  | invalidVariableBlock => "invalid variable block, expected `$\x7bname\x7d`"
  | illegalCharacter c => "illegal character `" ++ c.toString ++ "`"

/-- Why tokens do not form a stylesheet.  `outOfSteps` stands for a parser that was given fewer
steps than the text needs; the steps that `parse` allots are always enough.  `tokenLost` stands for
a token that would have been lost from a stream; a parser never loses one. -/
inductive ParseError where
  | unexpectedToken (expected found : String)
  | invalidTarget
  | unsupportedCommand (name : String)
  | outOfSteps
  | tokenLost
  deriving DecidableEq, Repr

def ParseError.message : ParseError → String
  | unexpectedToken expected found => "expected " ++ expected ++ ", found " ++ found
  | invalidTarget => "invalid left-hand side in assignment"
  | unsupportedCommand name => "unsupported system command `@" ++ name ++ "`"
  | outOfSteps => "out of steps"
  | tokenLost => "token lost"

/-- A block was looked at before its names had been counted. -/
inductive ScopeError where
  | missingScope
  deriving DecidableEq, Repr

def ScopeError.message : ScopeError → String
  | missingScope => "block has no scope data attached"

/-- Why a mixin, a parent reference or an inclusion cannot be resolved. -/
inductive ResolveError where
  | mixinNotFound (name : String)
  | tooManyArguments (name : String) (expected found : Nat)
  | strayParentReference (selector : String)
  | extendWithoutSelector (name : String)
  | includeFailed (path reason : String)
  | includeCycle (path : String)
  deriving DecidableEq, Repr

def ResolveError.message : ResolveError → String
  | mixinNotFound name => "could not find mixin `" ++ name ++ "`"
  | tooManyArguments name expected found =>
    "too many arguments for mixin `" ++ name ++ "`: expected at most " ++ toString expected
      ++ ", found " ++ toString found
  | strayParentReference selector =>
    "parent reference `&` in `" ++ selector ++ "` has no enclosing selector"
  | extendWithoutSelector name => "cannot extend `" ++ name ++ "` outside of a selector"
  | includeFailed path reason => "could not include `" ++ path ++ "`: " ++ reason
  | includeCycle path => "include cycle through `" ++ path ++ "`"

/-- Why an operator cannot be applied to two values. -/
inductive OperationError where
  | typeMismatch (operator left right : String)
  | unitMismatch (operator left right : String)
  | listLengthMismatch (left right : Nat)
  | divisionByZero
  deriving DecidableEq, Repr

def OperationError.message : OperationError → String
  | typeMismatch operator left right =>
    "cannot apply `" ++ operator ++ "` to " ++ left ++ " and " ++ right
  | unitMismatch operator left right =>
    "incompatible units for `" ++ operator ++ "`: " ++ left ++ " and " ++ right
  | listLengthMismatch left right =>
    "list lengths differ: " ++ toString left ++ " and " ++ toString right
  | divisionByZero => "division by zero"

/-- Why a statement or an expression cannot be evaluated. -/
inductive EvalError where
  | undefinedVariable (name : String)
  | missingBinding (name : String)
  | unknownCommand (name : String)
  | commandFailed (name reason : String)
  | unknownField (name : String)
  | invalidCommandArgument (name : String)
  | unsupportedOperand (operator operand : String)
  | operation (error : OperationError)
  deriving DecidableEq, Repr

def EvalError.message : EvalError → String
  | undefinedVariable name => "variable `$" ++ name ++ "` is not defined"
  | missingBinding name => "cannot modify `$" ++ name ++ "` before it is declared"
  | unknownCommand name => "unknown command `@" ++ name ++ "`"
  | commandFailed name reason => "command `@" ++ name ++ "` failed: " ++ reason
  | unknownField name => "no value for field `" ++ name ++ "`"
  | invalidCommandArgument name => "invalid argument for command `@" ++ name ++ "`"
  | unsupportedOperand operator operand => "`" ++ operator ++ "` cannot be applied to " ++ operand
  | operation error => error.message

/-- Why a tree cannot be written out. -/
inductive OutputError where
  | unreducedNode (kind : String)
  deriving DecidableEq, Repr

def OutputError.message : OutputError → String
  | unreducedNode kind => "`" ++ kind ++ "` nodes cannot be emitted, reduce the tree first"

/-! ## Errors -/

/-- A cause of any stage. -/
inductive Cause where
  | lex (error : LexError)
  | parse (error : ParseError)
  | scope (error : ScopeError)
  | resolve (error : ResolveError)
  | eval (error : EvalError)
  | output (error : OutputError)
  deriving DecidableEq, Repr

/-- The wording of a cause, headed by the name of its stage. -/
def Cause.message : Cause → String
  | lex error => "LexError: " ++ error.message
  | parse error => "ParseError: " ++ error.message
  | scope error => "ScopeError: " ++ error.message
  | resolve error => "ResolverError: " ++ error.message
  | eval error => "ExecuterError: " ++ error.message
  | output error => "CompressorError: " ++ error.message

/-- A failure of the compiler and the line it concerns. -/
structure Error where
  cause : Cause
  location : Location
  deriving DecidableEq, Repr

/-- An error as the user sees it. -/
def Error.message (error : Error) : String :=
  error.cause.message ++ " (at " ++ error.location.text ++ ")"

end Cascade
