import ContractLinker.CommandLine.Arguments
import ContractLinker.Project.Assembling
import ContractLinker.Report.Merging

/-
  Sessions of the command line. A session holds the options,
  a report which was read but not processed yet, and all it
  touches outside: the standard streams and the files. An
  action which fails keeps what it has changed. The library
  which reads the arguments is a parameter of a run.

  Key definitions include:
    * `CommandLine.Host`
    * `CommandLine.Session`
    * `CommandLine.Failure`
    * `CommandLine.Failure.message`
    * `CommandLine.Action`
    * `CommandLine.parseArgumentsBy`
    * `CommandLine.readInput`
    * `CommandLine.process`
    * `CommandLine.runBy`
    * `CommandLine.run`
-/

------------------------------------------------------------
-- Sessions
------------------------------------------------------------

namespace ContractLinker

namespace CommandLine

/- The standard streams and the files. -/
structure Host where
  interactive : Bool
  stdin : Text
  stdout : Text
  stderr : Text
  files : FileTree

/- A session. -/
structure Session where
  options : Options
  reportInput : Option Text
  hasOutput : Bool
  host : Host

/- A session which has done nothing yet. -/
def Session.start (host : Host) : Session where
  options := .plain .link
  reportInput := none
  hasOutput := false
  host := host

------------------------------------------------------------
-- Failures
------------------------------------------------------------

/- Why a report cannot be linked. -/
inductive LinkError where
  | decoding (e : DecodeError)
  | analysis (e : AstError)
  | version (e : InvalidVersion)
  | library (e : LibraryError)
  | assembling (e : AssemblingError)

/- What a user is told. -/
def LinkError.message : LinkError → Text
  | .decoding e => e.message
  | .analysis e => e.message
  | .version e => e.message
  | .library e => e.message
  | .assembling e => e.message

/-
  Why an action ends early. After `reported` a user has been
  told everything already.
-/
inductive Failure where
  | option (e : OptionError)
  | file (e : FileError)
  | missingVersion
  | reported
  | linking (e : LinkError)
  | alreadyRead
  | notRead

namespace Failure

/- What a user is told. -/
def message : Failure → Text
  | .option e => e.message
  | .file e => e.message
  | .missingVersion =>
      ascii
        ("The report carries no solc version. " ++
          "Use --solc-version to specify it.")
  | .reported => []
  | .linking e => e.message
  | .alreadyRead => ascii "The report has already been read."
  | .notRead => ascii "The report has not been read."

/- Whether a failure is that of the actions' order. -/
def isInternal : Failure → Bool
  | .alreadyRead | .notRead => true
  | .option _ | .file _ | .missingVersion | .reported
  | .linking _ => false

end Failure

------------------------------------------------------------
-- Actions
------------------------------------------------------------

/- A change of the session which may fail. -/
abbrev Action (α : Type) :=
  ExceptT Failure (StateM Session) α

/- Carry out an action. -/
def perform {α : Type} (action : Action α) (s : Session) :
    Except Failure α × Session :=
  StateT.run (ExceptT.run action) s

/- Write to the standard output. -/
def Session.print (s : Session) (text : Text) : Session :=
  { s with
    hasOutput := true
    host := { s.host with stdout := s.host.stdout ++ text } }

/- Write to the standard error. -/
def Session.printError (s : Session) (text : Text) : Session :=
  { s with
    hasOutput := true
    host := { s.host with stderr := s.host.stderr ++ text } }

/- Change the files. -/
def Session.setFiles (s : Session) (files : FileTree) : Session :=
  { s with host := { s.host with files := files } }

/- Fail with an error of a step of linking. -/
def linkStep {ε α : Type} (wrap : ε → LinkError)
    (outcome : Except ε α) : Action α :=
  match outcome with
  | .ok a => pure a
  | .error e => throw (.linking (wrap e))

------------------------------------------------------------
-- Help And Version
------------------------------------------------------------

/- The text which explains the options. -/
def helpText : Text :=
  ascii
    ("zksolc-link, the solc output linker.\n\n" ++
    "Usage: zksolc-link [options] [input_file]\n" ++
    "Reads the standard JSON output of solc from the given file (or the standard input\n" ++
    "if none given or \"-\" is used as a file name), links the contract dependencies\n" ++
    "and prints the resulting project at standard output.\n" ++
    "Example:\n" ++
    "solc --standard-json input.json | zksolc-link --pipeline evmla --pretty-json\n\n" ++
    "General Information:\n" ++
    "  -h [ --help ]        Show help message and exit.\n" ++
    "  -v [ --version ]     Show version and exit.\n" ++
    "  --input-file arg     input file\n\n" ++
    "Linker Options:\n" ++
    "  --pipeline pipeline (=yul)\n" ++
    "                       Select the solc output the project is built from. Either\n" ++
    "                       yul or evmla.\n" ++
    "  --libraries libs     Deployed library addresses, in the form\n" ++
    "                       \"file:Name=0x<address>\". Can be used multiple times.\n" ++
    "  --solc-version version\n" ++
    "                       Version of solc the report was produced with. Defaults to\n" ++
    "                       the \"version\" field of the report.\n" ++
    "  --debug-output-dir path\n" ++
    "                       Dump the intermediate representations of the contracts to\n" ++
    "                       the given directory.\n\n" ++
    "Output Formatting:\n" ++
    "  --pretty-json        Output JSON in pretty format.\n" ++
    "  --json-indent N (=2) Indent pretty-printed JSON with N spaces. Enables\n" ++
    "                       '--pretty-json' automatically.\n")

/- The name and the version of the linker. -/
def versionText : Text :=
  ascii "zksolc-link, the solc output linker\nVersion: 1.3.13\n"

------------------------------------------------------------
-- Linking
------------------------------------------------------------

/- Print all diagnostics of a report. -/
def printDiagnostics (r : Report) (s : Session) : Session :=
  (r.diagnostics.getD []).foldl
    (fun s d => s.printError d.formattedMessage) s

/- The version which is asked for, or else the report's own. -/
def versionOf (options : Options) (r : Report) : Action Version :=
  match options.solcVersion.or r.version with
  | none => throw .missingVersion
  | some text => linkStep .version (Version.parse text)

/- Decode the report that was read, which is then used up. -/
def decodeReport : Action Report := do
  match (← get).reportInput with
  | none => throw .notRead
  | some input =>
      let report ← linkStep .decoding (Report.read input)
      modify fun s => { s with reportInput := none }
      return report

/- Assemble the project of a report and print it. -/
def printProject (r : Report) : Action Unit := do
  let options := (← get).options
  let version ← versionOf options r
  let libraries ←
    linkStep .library (Libraries.parse options.libraries)
  let outcome :=
    r.assemble options.pipeline libraries version
      options.debugOutputDir (← get).host.files
  modify fun s => s.setFiles outcome.files
  let project ← linkStep .assembling outcome.project
  modify fun s =>
    s.print (project.toJson.render options.format ++ [Text.newline])

/-
  Link the report that was read. Its diagnostics are printed
  first, and an error among them ends it.
-/
def link : Action Unit := do
  let report ← decodeReport
  let report ←
    linkStep .analysis (report.mergeDiagnostics Ast.diagnostics)
  modify (printDiagnostics report)
  if report.hasErrors then
    throw .reported
  else
    printProject report

------------------------------------------------------------
-- The Three Actions Of A Run
------------------------------------------------------------

/-
  Take the options from some arguments, which a library reads.
  Without arguments, someone at a keyboard is shown the help
  instead.
-/
def parseArgumentsBy (reader : ArgumentReader)
    (arguments : List Text) : Action Bool := do
  if (← get).host.interactive && arguments.isEmpty then
    modify fun s => s.print helpText
    return false
  else
    match Options.parseBy reader arguments with
    | .error e => throw (.option e)
    | .ok options =>
        modify fun s => { s with options := options }
        return true

/- Take the options as the program's own reader reads them. -/
def parseArguments (arguments : List Text) : Action Bool :=
  parseArgumentsBy plainReader arguments

/- Read the report. One which was read has to be processed first. -/
def readInput : Action Unit := do
  let s ← get
  if s.reportInput.isSome then
    throw .alreadyRead
  else if s.options.mode != .link then
    return
  else if s.options.fromStdin then
    set { s with
      reportInput := some s.host.stdin
      host := { s.host with stdin := [] } }
  else
    match s.host.files.read s.options.path with
    | .error e => throw (.file e)
    | .ok content => set { s with reportInput := some content }

/- Do what the options ask for. -/
def process : Action Unit := do
  match (← get).options.mode with
  | .help => modify fun s => s.print helpText
  | .version => modify fun s => s.print versionText
  | .link => link

------------------------------------------------------------
-- Runs
------------------------------------------------------------

/- Take the options, read and process. -/
def runActionsBy (reader : ArgumentReader)
    (arguments : List Text) : Action Bool := do
  if ← parseArgumentsBy reader arguments then
    readInput
    process
    return true
  else
    return false

/-
  Tell the user about a failure. The text ends in front of
  its first zero byte.
-/
def report (failure : Failure) (s : Session) : Session :=
  let text := failure.message.takeWhile (· != 0)
  if text.isEmpty then
    { s with hasOutput := true }
  else
    s.printError (ascii "Error: " ++ text ++ [Text.newline])

/-
  Run a command line, which a library reads; whether this
  succeeds. A failure of the actions' order is not reported
  but handed on.
-/
def runBy (reader : ArgumentReader) (arguments : List Text)
    (s : Session) : Except Failure Bool × Session :=
  match perform (runActionsBy reader arguments) s with
  | (.ok returned, s) => (.ok returned, s)
  | (.error failure, s) =>
      if failure.isInternal then
        (.error failure, s)
      else
        (.ok false, report failure s)

/- Run a command line as the program's own reader reads it. -/
def run (arguments : List Text) (s : Session) :
    Except Failure Bool × Session :=
  runBy plainReader arguments s

end CommandLine

end ContractLinker
