import Cascade.CommandLine.Files

/-!
# Trees of files

A file tree holds files and directories by the names on the way to them.  A path is followed name
by name from the working directory or from the root: every name but the last has to lead to a
directory, and going up from the working directory leads to the directories that it lies in.
-/

set_option autoImplicit false

namespace Cascade

/-! ## Trees -/

/-- Files with their texts, by the names on the way to them, and directories that exist even if
there is no file in them. -/
structure FileTree where
  files : List (List String × String)
  directories : List (List String) := []

/-- What is at a place. -/
inductive Entry where
  | file (text : String)
  | directory
  | nothing
  deriving DecidableEq, Repr, Inhabited

/-- What the given names lead to from the top of a tree, which is a directory.  So is every place
on the way to a file. -/
def FileTree.entry (tree : FileTree) (names : List String) : Entry :=
  match tree.files.lookup names with
  | some text => .file text
  | none =>
    if names.isEmpty || tree.directories.contains names
        || tree.files.any fun (place, _) => names.isPrefixOf place then .directory
    else .nothing

/-- What every system has at its root: the standard directories, and the null device, which reads
as an empty text. -/
def FileTree.system : FileTree where
  files := [(["dev", "null"], "")]
  directories :=
    ["bin", "boot", "dev", "etc", "home", "lib", "media", "mnt", "opt", "proc", "root", "run",
      "sbin", "srv", "sys", "tmp", "usr", "var"].map fun name => [name]

/-! ## Places -/

/-- A place that a path can lead to. -/
inductive Place where
  /-- The given names below the working directory. -/
  | inside (names : List String)
  /-- One of the directories that the working directory lies in. -/
  | above
  /-- The given names below the root. -/
  | outside (names : List String)
  /-- A name in a directory that the working directory lies in. -/
  | unknown
  deriving DecidableEq, Repr, Inhabited

namespace Place

/-- The directory that a directory lies in.  The root lies in itself. -/
def parent : Place → Place
  | inside [] => above
  | inside names => inside names.dropLast
  | outside names => outside names.dropLast
  | above => above
  | unknown => above

/-- A name in a directory. -/
def child (name : String) : Place → Place
  | inside names => inside (names ++ [name])
  | outside names => outside (names ++ [name])
  | above => unknown
  | unknown => unknown

end Place

/-! ## Paths -/

namespace FileTree

/-- The most bytes that a name may have. -/
def longestName : Nat := 255

/-- The most bytes that a path may have. -/
def longestPath : Nat := 4095

/-- What is at a place, with the tree in the working directory. -/
def entryAt (tree : FileTree) : Place → Entry
  | .inside names => tree.entry names
  | .above => .directory
  | .outside names => system.entry names
  | .unknown => .nothing

/-- Follows the parts of a path from a place. -/
def follow (tree : FileTree) : Place → List String → Except FileError Place
  | place, [] => .ok place
  | place, part :: rest =>
    match tree.entryAt place with
    | .nothing => .error .notFound
    | .file _ => .error .notDirectory
    | .directory =>
      if isIdlePart part then tree.follow place rest
      else if part = ".." then tree.follow place.parent rest
      else if longestName < part.utf8ByteSize then .error .nameTooLong
      else tree.follow (place.child part) rest

/-- The place that a path leads to. -/
def locate (tree : FileTree) (path : String) : Except FileError Place :=
  if '\x00' ∈ path.toList then .error .nullInName
  else if path = "" then .error .notFound
  else if longestPath < path.utf8ByteSize then .error .nameTooLong
  else tree.follow (if isAbsolutePath path then .outside [] else .inside []) (pathParts path)

/-- The text of the file at a path. -/
def read (tree : FileTree) (path : String) : Except FileError String := do
  match tree.entryAt (← tree.locate path) with
  | .file text => pure text
  | .directory => .error .isDirectory
  | .nothing => .error .notFound

/-- Whether a path leads to a file in the working directory or below it.  Devices do not count. -/
def isFile (tree : FileTree) (path : String) : Bool :=
  match tree.locate path with
  | .ok (.inside names) => (tree.files.lookup names).isSome
  | _ => false

end FileTree

/-! ## Stores -/

/-- The store with the given files, each with its path from the working directory. -/
def FileStore.ofFiles (files : List (String × String)) : FileStore :=
  let tree : FileTree :=
    { files := files.map fun (path, text) =>
        ((pathParts path).filter fun part => !isIdlePart part, text) }
  { read := tree.read
    isFile := tree.isFile
    volume := files.foldl (fun total (_, text) => total + text.length) 0 }

end Cascade
