import Cascade.Field
import Cascade.Output.Layout

/-!
# Arguments of the command line

Arguments are read from left to right; the first one that is wrong makes the whole command line
wrong.  A value follows its option as the next argument or after an equals sign.  After `--`
everything is a file.
-/

set_option autoImplicit false

namespace Cascade

/-- What the command line asks for. -/
structure Invocation where
  files : List String := []
  /-- List the tokens of the files instead of compiling them. -/
  tokens : Bool := false
  /-- Show the reduced trees. -/
  tree : Bool := false
  layout : Option Layout := none
  precision : Option Nat := none
  fields : List (String × FieldValue) := []
  deriving Inhabited

/-- What a command line amounts to. -/
inductive Asked where
  | run (invocation : Invocation)
  | version
  | help
  deriving Inhabited

/-- Options that take a value. -/
inductive ValueOption where
  | format
  | precision
  | field
  deriving DecidableEq, Repr, Inhabited

/-- Reads a natural number that fits into 64 bits.  A plus sign may stand in front. -/
def readCount? (text : String) : Option Nat :=
  let digits := match text.toList with
    | '+' :: rest => rest
    | cs => cs
  if digits.isEmpty || !digits.all Char.isDigit then none
  else
    let n := digits.foldl (fun n c => n * 10 + (c.toNat - '0'.toNat)) 0
    if n < UInt64.size then some n else none

/-- Reads a field written `name=value`. -/
def readField? (text : String) : Option (String × FieldValue) :=
  (Text.splitAt? '=' text.toList).map fun (name, value) =>
    (String.ofList (Text.trim name), FieldValue.parse (String.ofList (Text.trim value)))

namespace Invocation

/-- Sets an option to a value.  Only fields may be given more than once. -/
def set? (invocation : Invocation) (option : ValueOption) (text : String) : Option Invocation :=
  match option with
  | .format =>
    match invocation.layout, Layout.parse text with
    | none, .ok layout => some { invocation with layout := some layout }
    | _, _ => none
  | .precision =>
    match invocation.precision, readCount? text with
    | none, some precision => some { invocation with precision := some precision }
    | _, _ => none
  | .field =>
    (readField? text).map fun field =>
      { invocation with fields := invocation.fields ++ [field] }

/-- Adds a file. -/
def addFile? (invocation : Invocation) (path : String) : Option Invocation :=
  if path = "" then none else some { invocation with files := invocation.files ++ [path] }

/-- Adds several files. -/
def addFiles? (invocation : Invocation) (paths : List String) : Option Invocation :=
  paths.foldlM addFile? invocation

end Invocation

/-- Whether an argument looks like an option. -/
def looksLikeOption (text : String) : Bool :=
  text.toList.head? == some '-' && text != "-"

/-- The option that takes a value and has the given name. -/
def valueOption? : String → Option ValueOption
  | "--format" => some .format
  | "--precision" => some .precision
  | "--field" => some .field
  | _ => none

/-- Reads a command line, given what has been read before.  `none` stands for wrong usage. -/
def readArgumentsAfter (invocation : Invocation) : List String → Option Asked
  | [] => some (.run invocation)
  | "--" :: rest => (invocation.addFiles? rest).map .run
  | "--tokens" :: rest =>
    if invocation.tokens then none else readArgumentsAfter { invocation with tokens := true } rest
  | "--tree" :: rest =>
    if invocation.tree then none else readArgumentsAfter { invocation with tree := true } rest
  | "--version" :: _ => some .version
  | "--help" :: _ => some .help
  | argument :: rest =>
    if !looksLikeOption argument then
      match invocation.addFile? argument with
      | some invocation => readArgumentsAfter invocation rest
      | none => none
    else
      match argument.toList with
      | '-' :: 'V' :: _ => some .version
      | '-' :: 'h' :: _ => some .help
      | cs =>
        match Text.splitAt? '=' cs with
        | some (name, value) =>
          match valueOption? (String.ofList name) with
          | some option =>
            match invocation.set? option (String.ofList value) with
            | some invocation => readArgumentsAfter invocation rest
            | none => none
          | none => none
        | none =>
          match valueOption? argument, rest with
          | some option, value :: rest =>
            if looksLikeOption value then none
            else
              match invocation.set? option value with
              | some invocation => readArgumentsAfter invocation rest
              | none => none
          | _, _ => none

/-- **Reads a command line.**  `none` stands for wrong usage. -/
def readArguments (arguments : List String) : Option Asked :=
  readArgumentsAfter {} arguments

end Cascade
