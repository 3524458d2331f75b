import Cascade.Text.Pattern

/-!
# Files by path

Paths are texts whose parts are separated by slashes.  A file store answers what is at a path.
-/

set_option autoImplicit false

namespace Cascade

/-! ## Paths -/

/-- The parts of a path between its slashes. -/
def pathParts (path : String) : List String :=
  (Text.pieces '/' path.toList).map String.ofList

/-- Whether a part of a path does not lead anywhere. -/
def isIdlePart (part : String) : Bool :=
  part == "" || part == "."

/-- The parts of a path, without those at the end that do not lead anywhere.  The first part always
counts, since it says whether the path starts at the root or here. -/
def dropIdleEnd : List String → List String
  | [] => []
  | first :: rest => first :: (rest.reverse.dropWhile isIdlePart).reverse

/-- The directory that a path lies in. -/
def parentPath (path : String) : String :=
  let rest := (dropIdleEnd (dropIdleEnd (pathParts path)).dropLast)
  match rest with
  | [""] => "/"
  | parts => "/".intercalate parts

/-- Whether a path starts at the root. -/
def isAbsolutePath (path : String) : Bool :=
  path.toList.head? == some '/'

/-- A path inside a directory. -/
def joinPath (base path : String) : String :=
  if isAbsolutePath path || base = "" then path
  else if base.toList.getLast? == some '/' then base ++ path
  else base ++ "/" ++ path

/-! ## Stores -/

/-- Why a file cannot be read. -/
inductive FileError where
  | notFound
  | notDirectory
  | isDirectory
  /-- The path, or a name in it, is longer than a file system takes. -/
  | nameTooLong
  /-- The path contains the null character, which no file system takes. -/
  | nullInName
  /-- There is a file, but it is not a text. -/
  | notText
  | other (reason : String)
  deriving DecidableEq, Repr, Inhabited

/-- The wording of a file error. -/
def FileError.text : FileError → String
  | notFound => "No such file or directory (os error 2)"
  | notDirectory => "Not a directory (os error 20)"
  | isDirectory => "Is a directory (os error 21)"
  | nameTooLong => "File name too long (os error 36)"
  | nullInName => "file name contained an unexpected NUL byte"
  | notText => "stream did not contain valid UTF-8"
  | other reason => reason

/-- What is at which path: `read` gives the text of a file, and `isFile` says whether there is a
regular file.  `volume` bounds how many different paths can be written in all files together. -/
structure FileStore where
  read : String → Except FileError String
  isFile : String → Bool
  volume : Nat

end Cascade
