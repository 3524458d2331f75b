import Cascade.CommandLine.Arguments
import Cascade.CommandLine.FileTree
import Cascade.Compile
import Cascade.Node.Outline
import Cascade.Token.Listing

/-!
# Running a command line

Every file is compiled on its own, with what it includes looked up in its own directory, and its
text written.  The first failure ends the run; what was written before stays written.
-/

set_option autoImplicit false

namespace Cascade

/-- What a run writes and how it ends.  The exit code is 0 for success, 1 for a failure and 2 for
wrong usage. -/
structure Outcome where
  code : Nat
  output : String := ""
  errors : String := ""
  deriving DecidableEq, Repr, Inhabited

/-- What is written for one file, and the failure if there was one. -/
structure Report where
  output : String := ""
  failure : Option String := none
  deriving DecidableEq, Repr, Inhabited

/-- The stylesheets that the file at a path can include: those in its directory. -/
def FileStore.library (store : FileStore) (path : String) : Library where
  load name :=
    let joined := joinPath (parentPath path) name
    (store.read joined).mapError fun error => joined ++ ": " ++ error.text
  depth := store.volume

namespace Invocation

/-- The layout that the options ask for. -/
def fullLayout (invocation : Invocation) : Layout :=
  { invocation.layout.getD {} with precision := invocation.precision }

/-- The profile that the options ask for. -/
def profile (invocation : Invocation) : Profile :=
  { fields := invocation.fields.foldl (fun fields (name, value) => fields.insert name value) [] }

/-- Lists the tokens of a source. -/
def listing (source : Source) : Report :=
  match tokenize source with
  | .ok tokens => { output := listTokens false tokens ++ "\n" }
  | .error error => { failure := some error.message }

/-- Compiles a source. -/
def compiled (invocation : Invocation) (library : Library) (source : Source) : Report :=
  let reduced := do
    let sheet ← Sheet.parse source
    let sheet ← sheet.resolveInclusions library
    sheet.reduce invocation.profile
  match reduced with
  | .error error => { failure := some error.message }
  | .ok sheet =>
    let shown := if invocation.tree then sheet.root.outlineText false else ""
    match sheet.css invocation.fullLayout with
    | .ok css => { output := shown ++ css ++ "\n" }
    | .error error => { output := shown, failure := some error.message }

/-- Does what is asked for with one file. -/
def report (invocation : Invocation) (store : FileStore) (path : String) : Report :=
  match store.read path with
  | .error error => { failure := some ("failed to read '" ++ path ++ "': " ++ error.text) }
  | .ok text =>
    let source : Source := { text, file := some path }
    if invocation.tokens then listing source
    else invocation.compiled (store.library path) source

/-- Does what is asked for with all files, up to the first failure.  `written` is what has been
written before. -/
def reports (invocation : Invocation) (store : FileStore) (written : String) :
    List String → Outcome
  | [] => { code := 0, output := written }
  | path :: rest =>
    let report := invocation.report store path
    let written := written ++ report.output
    match report.failure with
    | some failure => { code := 1, output := written, errors := "error: " ++ failure }
    | none => invocation.reports store written rest

/-- Whether there is a file at every path. -/
def filesExist (invocation : Invocation) (store : FileStore) : Bool :=
  !invocation.files.isEmpty && invocation.files.all store.isFile

end Invocation

/-- The name and version of the program. -/
def versionText : String := "stylec 0.1.0\n"

/-- How the program is used. -/
def helpText : String :=
  "Usage: stylec [OPTIONS] [SOURCE_FILES]...\n\nOptions:\n"
    ++ "      --tokens              Print the tokens of each file instead of compiling it\n"
    ++ "      --tree                Print the reduced tree before the CSS\n"
    ++ "      --format <FORMAT>     Comma separated output format flags\n"
    ++ "      --precision <N>       Decimals kept in numbers\n"
    ++ "      --field <NAME=VALUE>  Build field, may be repeated\n"
    ++ "  -h, --help                Print help\n"
    ++ "  -V, --version             Print version\n"

/-- **Runs a command line** on the files of a store. -/
def runCommandLine (store : FileStore) (arguments : List String) : Outcome :=
  match readArguments arguments with
  | none => { code := 2 }
  | some .version => { code := 0, output := versionText }
  | some .help => { code := 0, output := helpText }
  | some (.run invocation) =>
    if invocation.filesExist store then invocation.reports store "" invocation.files
    else { code := 2 }

end Cascade
