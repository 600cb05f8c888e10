import ContractLinker.Files
import ContractLinker.Json.Printer
import ContractLinker.Project.Pipeline

/-
  Options of a run of the linker. The arguments themselves
  are read by a library, which is a parameter here: it either
  tells what is given or refuses the arguments with a text of
  its own. All that is done with what is given is below.

  Key definitions include:
    * `CommandLine.Mode`
    * `CommandLine.Options`
    * `CommandLine.Options.same`
    * `CommandLine.Given`
    * `CommandLine.ArgumentReader`
    * `CommandLine.OptionError`
    * `CommandLine.Options.ofGiven`
    * `CommandLine.Options.parseBy`
-/

------------------------------------------------------------
-- Options
------------------------------------------------------------

namespace ContractLinker

namespace CommandLine

/- What a run is to do. -/
inductive Mode where
  | help
  | version
  | link
deriving DecidableEq, Repr

/- The options of a run. -/
structure Options where
  mode : Mode
  path : Text
  fromStdin : Bool
  pipeline : Pipeline
  solcVersion : Option Text
  libraries : List Text
  debugOutputDir : Option Text
  format : Json.Format
deriving DecidableEq, Repr

/- The indentation which is used if none is asked for. -/
def defaultIndent : Nat :=
  2

namespace Options

/- The options of a run in a mode which looks at no others. -/
def plain (mode : Mode) : Options where
  mode := mode
  path := []
  fromStdin := false
  pipeline := .default
  solcVersion := none
  libraries := []
  debugOutputDir := none
  format := .compact

------------------------------------------------------------
-- Equality
------------------------------------------------------------

/-
  The names of a path, an empty one at the front for the root
  and at the end for a closing slash. How many slashes stand
  between two names is of no account.
-/
def pathNames (path : Text) : List Text :=
  match path.splitOn FileTree.slash with
  | [] => []
  | first :: rest =>
      first :: (rest.filter (· != [])) ++
        (if rest.getLast? = some [] then [[]] else [])

/- Whether two paths have the same names. -/
def samePath (a b : Text) : Bool :=
  pathNames a = pathNames b

/- Whether two optional paths are both missing or the same. -/
def sameOptionalPath : Option Text → Option Text → Bool
  | none, none => true
  | some a, some b => samePath a b
  | _, _ => false

/- Whether two sets of options ask for the same. -/
def same (a b : Options) : Bool :=
  a.mode = b.mode && samePath a.path b.path &&
    a.fromStdin = b.fromStdin && a.pipeline = b.pipeline &&
    a.solcVersion = b.solcVersion && a.libraries = b.libraries &&
    sameOptionalPath a.debugOutputDir b.debugOutputDir &&
    a.format = b.format

end Options

------------------------------------------------------------
-- What Is Given
------------------------------------------------------------

/-
  What a command line gives: whether a flag is there, and the
  values of the other options. An option which may be given
  once is none if it is not given; the libraries and the
  input files are all that are given, in order.
-/
structure Given where
  help : Bool
  version : Bool
  pipeline : Option Text
  libraries : List Text
  solcVersion : Option Text
  debugOutputDir : Option Text
  prettyJson : Bool
  jsonIndent : Option UInt32
  inputFiles : List Text
deriving DecidableEq, Repr

/-
  A library which reads arguments. It says what they give, or
  refuses them and says why; it does not fail in other ways.
-/
abbrev ArgumentReader :=
  List Text → Except Text Given

------------------------------------------------------------
-- Errors
------------------------------------------------------------

/-
  Why arguments are no options of a run. What a reader says
  about arguments it refuses is handed on as it is.
-/
inductive OptionError where
  | arguments (message : Text)
  | helpAndVersion
  | severalReports
  | pipeline (name : Text)
  | emptyDebugOutputDir
deriving DecidableEq, Repr

/- What a user is told. -/
def OptionError.message : OptionError → Text
  | .arguments message => message
  | .helpAndVersion =>
      ascii
        ("The following options are mutually exclusive: " ++
          "--help, --version. Select at most one.")
  | .severalReports =>
      ascii "Only one input report can be linked at a time."
  | .pipeline name =>
      ascii "Invalid option for --pipeline: " ++ name
  | .emptyDebugOutputDir =>
      ascii "Empty values are not allowed in --debug-output-dir."

------------------------------------------------------------
-- From What Is Given To Options
------------------------------------------------------------

namespace Given

/- The name of an input file which stands for the standard input. -/
def stdinMark : Text :=
  ascii "-"

/- The path of the report, none for the standard input. -/
def inputPath (given : Given) :
    Except OptionError (Option Text) :=
  match given.inputFiles with
  | [] => .ok none
  | [path] => .ok (if path = stdinMark then none else some path)
  | _ => .error .severalReports

/- The pipeline which is asked for. -/
def askedPipeline (given : Given) :
    Except OptionError Pipeline :=
  let name := given.pipeline.getD Pipeline.default.name
  match Pipeline.ofName? name with
  | some p => .ok p
  | none => .error (.pipeline name)

/- The directory for dumps which is asked for. -/
def askedDebugOutputDir (given : Given) :
    Except OptionError (Option Text) :=
  match given.debugOutputDir with
  | some [] => .error .emptyDebugOutputDir
  | directory => .ok directory

/- The format which is asked for. An indentation implies pretty. -/
def format (given : Given) : Json.Format :=
  match given.jsonIndent with
  | some n => .pretty n.toNat
  | none =>
      if given.prettyJson then
        .pretty defaultIndent
      else
        .compact

/- The options of a run which links. -/
def linkOptions (given : Given) :
    Except OptionError Options := do
  let path ← given.inputPath
  let pipeline ← given.askedPipeline
  let debugOutputDir ← given.askedDebugOutputDir
  return {
    mode := .link
    path := path.getD []
    fromStdin := path.isNone
    pipeline := pipeline
    solcVersion := given.solcVersion
    libraries := given.libraries
    debugOutputDir := debugOutputDir
    format := given.format
  }

end Given

namespace Options

/- The options of what is given. Help and version come first. -/
def ofGiven (given : Given) : Except OptionError Options :=
  if given.help && given.version then
    .error .helpAndVersion
  else if given.help then
    .ok (.plain .help)
  else if given.version then
    .ok (.plain .version)
  else
    given.linkOptions

/- The options of some arguments, which a library reads. -/
def parseBy (reader : ArgumentReader) (arguments : List Text) :
    Except OptionError Options := do
  let given ← (reader arguments).mapError .arguments
  ofGiven given

end Options

end CommandLine

end ContractLinker
