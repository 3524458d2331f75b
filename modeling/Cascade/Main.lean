import Cascade.CommandLine.Run

/-!
# The program

Reads the files that a command line names and all that they include, runs the command line on them,
writes what it gives and ends with its exit code.
-/

set_option autoImplicit false

namespace Cascade

/-- What was found at each path. -/
abbrev Gathered := List (String × Except FileError String)

/-- Reads the file at a path. -/
def readFromDisk (path : String) : IO (Except FileError String) := do
  if '\x00' ∈ path.toList then return .error .nullInName
  try
    return .ok (← IO.FS.readFile path)
  catch error =>
    match error with
    | .noFileOrDirectory .. => return .error .notFound
    | .inappropriateType _ code _ =>
      return .error (if code == 20 then .notDirectory else .isDirectory)
    | .invalidArgument .. => return .error .nameTooLong
    | .userError _ => return .error .notText
    | other => return .error (.other (toString other))

/-- Whether there is a file, given what came of reading it. -/
def wasFile : Except FileError String → Bool
  | .ok _ | .error .notText | .error (.other _) => true
  | .error _ => false

/-- The paths that the text of a file includes, seen from a directory. -/
def includedPaths (directory text : String) : List String :=
  match parse { text } with
  | .ok root => root.inclusions.map (joinPath directory)
  | .error _ => []

/-- Reads files and, with them, everything that they include from a directory.  The files in `seen`
have been followed already. -/
partial def gatherIncluded (directory : String) (seen : List String) (gathered : Gathered) :
    List String → IO Gathered
  | [] => return gathered
  | path :: rest => do
    if seen.contains path then
      gatherIncluded directory seen gathered rest
    else
      let found ← match gathered.lookup path with
        | some found => pure found
        | none => readFromDisk path
      let more := match found with
        | .ok text => includedPaths directory text
        | .error _ => []
      gatherIncluded directory (path :: seen) ((path, found) :: gathered) (more ++ rest)

/-- Reads the files at the given paths and everything that they include from their directories. -/
def gatherFiles (paths : List String) : IO Gathered :=
  paths.foldlM (fun gathered path => gatherIncluded (parentPath path) [] gathered [path]) []

/-- The store of what was found. -/
def Gathered.store (gathered : Gathered) : FileStore where
  read path := (gathered.lookup path).getD (.error .notFound)
  isFile path := (gathered.lookup path).any wasFile
  volume := gathered.foldl (fun total (_, found) => total + (found.toOption.getD "").length) 0

end Cascade

open Cascade in
/-- Runs the command line. -/
def main (arguments : List String) : IO UInt32 := do
  let paths := match readArguments arguments with
    | some (.run invocation) => invocation.files
    | _ => []
  let gathered ← gatherFiles paths
  let outcome := runCommandLine gathered.store arguments
  IO.print outcome.output
  if outcome.errors != "" then IO.eprintln outcome.errors
  if outcome.code == 2 then IO.eprint ("error: wrong usage\n\n" ++ helpText)
  return UInt32.ofNat outcome.code
