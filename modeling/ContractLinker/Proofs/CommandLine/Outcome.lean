import ContractLinker.CommandLine.Session

/-
  Outcomes of a run of the command line, whatever library
  reads its arguments. A run either fails, and then nothing
  is on the standard output and the failure is told on the
  standard error, or it does what its options ask for. A run
  which links prints the messages of its report as soon as it
  has them, and an error among them ends it there: what would
  come next is never begun, and nothing more is told.

  Key definitions include:
    * `Report.messages`
    * `CommandLine.reportOf`
    * `CommandLine.projectOf`
    * `CommandLine.runWith`
    * `CommandLine.Failure.line`
    * `CommandLine.complaint`
    * `CommandLine.LinkOutcome`
    * `CommandLine.Outcome`

  Main statements:
    * `CommandLine.perform_linkWith`
    * `CommandLine.perform_printProject`
    * `CommandLine.runWith_of_hasErrors`
    * `CommandLine.run_of_not_hasErrors`
    * `CommandLine.run_outcome`
-/

------------------------------------------------------------
-- What A Run Is About
------------------------------------------------------------

namespace ContractLinker

/- The formatted messages of a report, one behind the other. -/
def Report.messages (r : Report) : Text :=
  (r.diagnostics.getD []).flatMap Diagnostic.formattedMessage

namespace CommandLine

variable {α β ε : Type}

/- The text which a run with some options reads. -/
def inputOf (options : Options) (host : Host) :
    Except FileError Text :=
  if options.fromStdin then
    .ok host.stdin
  else
    host.files.read options.path

/- The report in a text, with the findings in its syntax trees. -/
def analysedReport (input : Text) : Except LinkError Report := do
  let report ← (Report.read input).mapError .decoding
  (report.mergeDiagnostics Ast.diagnostics).mapError .analysis

/- The report which a run with some options links. -/
def reportOf (options : Options) (host : Host) :
    Except Failure Report := do
  let input ← (inputOf options host).mapError .file
  (analysedReport input).mapError .linking

/- The version which a run with some options gives a project. -/
def projectVersion (options : Options) (r : Report) :
    Except Failure Version :=
  match options.solcVersion.or r.version with
  | none => .error .missingVersion
  | some text =>
      (Version.parse text).mapError fun e => .linking (.version e)

/- The project which a run with some options makes of a report. -/
def projectOf (options : Options) (files : FileTree) (r : Report) :
    Except Failure Project := do
  let version ← projectVersion options r
  let libraries ←
    (Libraries.parse options.libraries).mapError fun e =>
      .linking (.library e)
  (r.assemble options.pipeline libraries version
    options.debugOutputDir files).project.mapError fun e =>
      .linking (.assembling e)

/-
  The files of a run with some options after its project. They
  change only once the version and the libraries are read.
-/
def filesOf (options : Options) (files : FileTree) (r : Report) :
    FileTree :=
  match projectVersion options r, Libraries.parse options.libraries with
  | .ok version, .ok libraries =>
      (r.assemble options.pipeline libraries version
        options.debugOutputDir files).files
  | _, _ => files

------------------------------------------------------------
-- Runs With Another End
------------------------------------------------------------

/-
  Link the report that was read, with some action in place of
  the making of its project. The action gets the report once
  no message forbids to go on.
-/
def linkWith (finish : Report → Action Unit) : Action Unit := do
  let report ← decodeReport
  let report ←
    linkStep .analysis (report.mergeDiagnostics Ast.diagnostics)
  modify (printDiagnostics report)
  if report.hasErrors then
    throw .reported
  else
    finish report

/- Do what the options ask for, with another end of linking. -/
def processWith (finish : Report → Action Unit) : Action Unit := do
  match (← get).options.mode with
  | .help => modify fun s => s.print helpText
  | .version => modify fun s => s.print versionText
  | .link => linkWith finish

/- Take the options, read and process, with another end. -/
def runActionsWith
    (reader : ArgumentReader)
    (finish : Report → Action Unit)
    (arguments : List Text) :
    Action Bool := do
  if ← parseArgumentsBy reader arguments then
    readInput
    processWith finish
    return true
  else
    return false

/- What becomes of the end of the actions of a run. -/
def settle :
    Except Failure Bool × Session → Except Failure Bool × Session
  | (.ok returned, s) => (.ok returned, s)
  | (.error failure, s) =>
      if failure.isInternal then
        (.error failure, s)
      else
        (.ok false, report failure s)

/- Run a command line with another end of linking. -/
def runWith
    (reader : ArgumentReader)
    (finish : Report → Action Unit)
    (arguments : List Text)
    (s : Session) :
    Except Failure Bool × Session :=
  settle (perform (runActionsWith reader finish arguments) s)

/- A run is one which ends with the printing of the project. -/
theorem runWith_printProject
    (reader : ArgumentReader)
    (arguments : List Text)
    (s : Session) :
    runWith reader printProject arguments s =
      runBy reader arguments s := by
  rfl

------------------------------------------------------------
-- Carrying Out Actions
------------------------------------------------------------

@[simp]
theorem perform_pure
    (a : α)
    (s : Session) :
    perform (pure a) s = (.ok a, s) := by
  rfl

@[simp]
theorem perform_get
    (s : Session) :
    perform get s = (.ok s, s) := by
  rfl

@[simp]
theorem perform_set
    (s' s : Session) :
    perform (set s') s = (.ok (), s') := by
  rfl

@[simp]
theorem perform_modify
    (f : Session → Session)
    (s : Session) :
    perform (modify f) s = (.ok (), f s) := by
  rfl

/- The second of two actions begins where the first ends. -/
theorem perform_bind
    (action : Action α)
    (next : α → Action β)
    (s : Session) :
    perform (action >>= next) s =
      match perform action s with
      | (.ok a, s') => perform (next a) s'
      | (.error failure, s') => (.error failure, s') := by
  change perform (ExceptT.bind action next) s = _
  simp only [perform, ExceptT.bind, ExceptT.run, ExceptT.mk,
    StateT.run, bind, StateT.bind]
  cases action s with
  | mk outcome s' =>
      cases outcome <;> rfl

/- A failure of the first action is that of both. -/
theorem perform_bind_of_error
    {action : Action α}
    {next : α → Action β}
    {s s' : Session}
    {failure : Failure}
    (hFailed : perform action s = (.error failure, s')) :
    perform (action >>= next) s = (.error failure, s') := by
  rw [perform_bind, hFailed]

theorem perform_bind_of_ok
    {action : Action α}
    {next : α → Action β}
    {s s' : Session}
    {a : α}
    (hDone : perform action s = (.ok a, s')) :
    perform (action >>= next) s = perform (next a) s' := by
  rw [perform_bind, hDone]

@[simp]
theorem mapError_ok
    (wrap : ε → α)
    (b : β) :
    (Except.ok b : Except ε β).mapError wrap = .ok b := by
  rfl

/- A step of linking leaves the session as it is. -/
theorem perform_linkStep
    (wrap : ε → LinkError)
    (outcome : Except ε α)
    (s : Session) :
    perform (linkStep wrap outcome) s =
      (outcome.mapError fun e => .linking (wrap e), s) := by
  cases outcome <;> rfl

theorem perform_versionOf
    (options : Options)
    (r : Report)
    (s : Session) :
    perform (versionOf options r) s =
      (projectVersion options r, s) := by
  rw [versionOf, projectVersion]
  cases options.solcVersion.or r.version with
  | none => rfl
  | some text => exact perform_linkStep _ _ s

------------------------------------------------------------
-- Taking The Options And Reading
------------------------------------------------------------

/- The host of a run which has read its input. -/
def Host.readBy
    (options : Options)
    (host : Host) :
    Host :=
  if options.fromStdin then { host with stdin := [] } else host

@[simp]
theorem Host.readBy_stdout
    (options : Options)
    (host : Host) :
    (host.readBy options).stdout = host.stdout := by
  rw [readBy]
  split <;> rfl

@[simp]
theorem Host.readBy_stderr
    (options : Options)
    (host : Host) :
    (host.readBy options).stderr = host.stderr := by
  rw [readBy]
  split <;> rfl

@[simp]
theorem Host.readBy_files
    (options : Options)
    (host : Host) :
    (host.readBy options).files = host.files := by
  rw [readBy]
  split <;> rfl

/- A host with some more text on the standard error. -/
def Host.tell
    (host : Host)
    (text : Text) :
    Host :=
  { host with stderr := host.stderr ++ text }

@[simp]
theorem Host.tell_nil
    (host : Host) :
    host.tell [] = host := by
  simp [tell]

@[simp]
theorem Host.tell_stdout
    (host : Host)
    (text : Text) :
    (host.tell text).stdout = host.stdout := by
  rfl

@[simp]
theorem Host.tell_stderr
    (host : Host)
    (text : Text) :
    (host.tell text).stderr = host.stderr ++ text := by
  rfl

@[simp]
theorem Host.tell_files
    (host : Host)
    (text : Text) :
    (host.tell text).files = host.files := by
  rfl

/- A session which has read the input of some options. -/
def Session.reading
    (options : Options)
    (input : Text)
    (host : Host) :
    Session where
  options := options
  reportInput := some input
  hasOutput := false
  host := host.readBy options

/- Nobody at a keyboard: the options are those of the arguments. -/
theorem perform_parseArgumentsBy
    {host : Host}
    (hStdin : host.interactive = false)
    (reader : ArgumentReader)
    (arguments : List Text) :
    perform (parseArgumentsBy reader arguments) (.start host) =
      match Options.parseBy reader arguments with
      | .error e => (.error (.option e), .start host)
      | .ok options =>
          (.ok true, { Session.start host with options := options }) := by
  rw [parseArgumentsBy, perform_bind_of_ok (perform_get _)]
  simp only [Session.start, hStdin, Bool.false_and, Bool.false_eq_true,
    if_false]
  cases Options.parseBy reader arguments <;> rfl

theorem perform_readInput
    {options : Options}
    (hLink : options.mode = .link)
    (host : Host) :
    perform readInput { Session.start host with options := options } =
      match inputOf options host with
      | .error e =>
          (.error (.file e),
            { Session.start host with options := options })
      | .ok input => (.ok (), .reading options input host) := by
  rw [readInput, perform_bind_of_ok (perform_get _), inputOf]
  simp only [Session.start, Option.isSome_none, Bool.false_eq_true,
    if_false, hLink, bne_self_eq_false]
  by_cases hFrom : options.fromStdin = true
  · simp only [hFrom, if_true, perform_set, Session.reading, Host.readBy]
  · rw [Bool.not_eq_true] at hFrom
    simp only [hFrom, Bool.false_eq_true, if_false]
    cases host.files.read options.path with
    | error e => rfl
    | ok input =>
        simp only [perform_set, Session.reading, Host.readBy, hFrom,
          Bool.false_eq_true, if_false]

/- Help and version read nothing. -/
theorem perform_readInput_of_ne_link
    {options : Options}
    (hMode : options.mode ≠ .link)
    (host : Host) :
    perform readInput { Session.start host with options := options } =
      (.ok (), { Session.start host with options := options }) := by
  rw [readInput, perform_bind_of_ok (perform_get _)]
  simp [Session.start, hMode]

------------------------------------------------------------
-- Linking
------------------------------------------------------------

/- The report that was read is decoded once. -/
theorem perform_decodeReport
    {s : Session}
    {input : Text}
    (hInput : s.reportInput = some input) :
    perform decodeReport s =
      match Report.read input with
      | .error e => (.error (.linking (.decoding e)), s)
      | .ok r => (.ok r, { s with reportInput := none }) := by
  rw [decodeReport, perform_bind_of_ok (perform_get s)]
  simp only [hInput]
  rw [perform_bind, perform_linkStep]
  cases Report.read input with
  | error e => rfl
  | ok r =>
      exact perform_bind_of_ok (perform_modify _ s)

/- The messages are appended to the standard error. -/
theorem printDiagnostics_host
    (r : Report)
    (s : Session) :
    (printDiagnostics r s).host = s.host.tell r.messages := by
  rw [printDiagnostics, Report.messages]
  induction r.diagnostics.getD [] generalizing s with
  | nil =>
      simp
  | cons d rest ih =>
      rw [List.foldl_cons, ih, List.flatMap_cons]
      simp only [Session.printError, Host.tell, List.append_assoc]

theorem printDiagnostics_options
    (r : Report)
    (s : Session) :
    (printDiagnostics r s).options = s.options := by
  rw [printDiagnostics]
  induction r.diagnostics.getD [] generalizing s with
  | nil => rfl
  | cons d rest ih => exact ih _

/- A session which has printed the messages of its report. -/
def Session.told
    (r : Report)
    (s : Session) :
    Session :=
  printDiagnostics r { s with reportInput := none }

/-
  A report which cannot be decoded or analysed ends linking,
  and nothing is printed. Otherwise its messages are printed
  first; an error among them is the end, and what is next is
  begun without one only.
-/
theorem perform_linkWith
    {s : Session}
    {input : Text}
    (hInput : s.reportInput = some input)
    (finish : Report → Action Unit) :
    ∃ kept,
      perform (linkWith finish) s =
        match analysedReport input with
        | .error e =>
            (.error (.linking e), { s with reportInput := kept })
        | .ok r =>
            if r.hasErrors then
              (.error .reported, s.told r)
            else
              perform (finish r) (s.told r) := by
  have hDecode := perform_decodeReport hInput
  rw [linkWith, analysedReport]
  cases hRead : Report.read input with
  | error e =>
      rw [hRead] at hDecode
      exact ⟨s.reportInput, perform_bind_of_error hDecode⟩
  | ok decoded =>
      rw [hRead] at hDecode
      refine ⟨none, ?_⟩
      have hStep := perform_linkStep .analysis
        (decoded.mergeDiagnostics Ast.diagnostics)
        { s with reportInput := none }
      rw [perform_bind_of_ok hDecode]
      simp only [mapError_ok, bind, Except.bind]
      cases hMerge : decoded.mergeDiagnostics Ast.diagnostics with
      | error e =>
          rw [hMerge] at hStep
          exact perform_bind_of_error hStep
      | ok r =>
          rw [hMerge] at hStep
          refine (perform_bind_of_ok hStep).trans ?_
          refine (perform_bind_of_ok (perform_modify _ _)).trans ?_
          simp only [mapError_ok]
          split <;> rfl

/- The project of a report is printed whole or not at all. -/
theorem perform_printProject
    (r : Report)
    (s : Session) :
    perform (printProject r) s =
      match projectOf s.options s.host.files r with
      | .error failure =>
          (.error failure,
            s.setFiles (filesOf s.options s.host.files r))
      | .ok project =>
          (.ok (),
            (s.setFiles (filesOf s.options s.host.files r)).print
              (project.toJson.render s.options.format ++
                [Text.newline])) := by
  rw [printProject, perform_bind_of_ok (perform_get s), perform_bind,
    perform_versionOf, projectOf, filesOf]
  cases projectVersion s.options r with
  | error failure => rfl
  | ok version =>
      simp only [perform_bind, perform_linkStep]
      cases Libraries.parse s.options.libraries with
      | error e => rfl
      | ok libraries =>
          simp only [mapError_ok, perform_get, perform_modify,
            bind, Except.bind]
          cases (r.assemble s.options.pipeline libraries version
            s.options.debugOutputDir s.host.files).project <;> rfl

------------------------------------------------------------
-- Failures
------------------------------------------------------------

/- The line which tells a user about a failure, if any. -/
def Failure.line (failure : Failure) : Text :=
  if (failure.message.takeWhile (· != 0)).isEmpty then
    []
  else
    ascii "Error: " ++ failure.message.takeWhile (· != 0) ++
      [Text.newline]

/- A failure is told on the standard error and nowhere else. -/
theorem report_host
    (failure : Failure)
    (s : Session) :
    (report failure s).host = s.host.tell failure.line := by
  rw [report, Failure.line]
  split
  · exact (Host.tell_nil s.host).symm
  · rfl

/- After the messages of a report there is no such line. -/
theorem line_reported :
    Failure.line .reported = [] := by
  rfl

theorem settle_of_error
    {failure : Failure}
    (hExternal : failure.isInternal = false)
    (s : Session) :
    settle (.error failure, s) = (.ok false, report failure s) := by
  rw [settle, hExternal]
  rfl

/- A result which is no failure of the actions' order. -/
def External (x : Except Failure α) : Prop :=
  ∀ failure, x = .error failure → failure.isInternal = false

theorem external_mapError
    {wrap : ε → Failure}
    (hWrap : ∀ e, (wrap e).isInternal = false)
    (x : Except ε α) :
    External (x.mapError wrap) := by
  intro failure hFailed
  cases x with
  | error e =>
      cases hFailed
      exact hWrap e
  | ok a =>
      cases hFailed

theorem external_bind
    {x : Except Failure α}
    {next : α → Except Failure β}
    (hFirst : External x)
    (hNext : ∀ a, External (next a)) :
    External (x >>= next) := by
  intro failure hFailed
  cases x with
  | error e =>
      cases hFailed
      exact hFirst failure rfl
  | ok a =>
      exact hNext a failure hFailed

theorem external_projectVersion
    (options : Options)
    (r : Report) :
    External (projectVersion options r) := by
  rw [projectVersion]
  cases options.solcVersion.or r.version with
  | none =>
      intro failure hFailed
      cases hFailed
      rfl
  | some text =>
      exact external_mapError (fun _ => rfl) _

theorem external_projectOf
    (options : Options)
    (files : FileTree)
    (r : Report) :
    External (projectOf options files r) := by
  apply external_bind
  · exact external_projectVersion options r
  · intro version
    apply external_bind
    · exact external_mapError (fun _ => rfl) _
    · intro libraries
      exact external_mapError (fun _ => rfl) _

------------------------------------------------------------
-- Runs Which Link
------------------------------------------------------------

/-
  A session which has printed the messages of the report it
  read and has done nothing else.
-/
def Session.informed
    (options : Options)
    (r : Report)
    (host : Host) :
    Session :=
  printDiagnostics r
    { options := options
      reportInput := none
      hasOutput := false
      host := host.readBy options }

@[simp]
theorem informed_host
    (options : Options)
    (r : Report)
    (host : Host) :
    (Session.informed options r host).host =
      (host.readBy options).tell r.messages := by
  exact printDiagnostics_host _ _

@[simp]
theorem informed_options
    (options : Options)
    (r : Report)
    (host : Host) :
    (Session.informed options r host).options = options := by
  exact printDiagnostics_options _ _

theorem perform_processWith
    {s : Session}
    (hLink : s.options.mode = .link)
    (finish : Report → Action Unit) :
    perform (processWith finish) s = perform (linkWith finish) s := by
  rw [processWith, perform_bind_of_ok (perform_get s), hLink]

/- A file which cannot be read is not the standard input. -/
theorem Host.readBy_of_inputOf_error
    {options : Options}
    {host : Host}
    {e : FileError}
    (hInput : inputOf options host = .error e) :
    host.readBy options = host := by
  by_cases hFrom : options.fromStdin = true
  · simp [inputOf, hFrom] at hInput
  · simp [readBy, hFrom]

section Linking

variable {reader : ArgumentReader}
variable {arguments : List Text}
variable {host : Host}
variable {options : Options}
variable (hStdin : host.interactive = false)
variable (hParse : Options.parseBy reader arguments = .ok options)
variable (hLink : options.mode = .link)

include hStdin hParse hLink

theorem runWith_of_link
    (finish : Report → Action Unit) :
    ∃ failed : Session,
      failed.host = host.readBy options ∧
      runWith reader finish arguments (.start host) =
        match reportOf options host with
        | .error failure => (.ok false, report failure failed)
        | .ok r =>
            if r.hasErrors then
              (.ok false, report .reported (.informed options r host))
            else
              settle
                (perform (do finish r; return true)
                  (.informed options r host)) := by
  have hOptions := perform_parseArgumentsBy hStdin reader arguments
  have hReadInput := perform_readInput hLink host
  rw [hParse] at hOptions
  rw [runWith, runActionsWith, perform_bind_of_ok hOptions]
  simp only [if_true]
  cases hInput : inputOf options host with
  | error e =>
      have hReport : reportOf options host = .error (.file e) := by
        rw [reportOf, hInput]
        rfl
      rw [hInput] at hReadInput
      refine ⟨{ Session.start host with options := options },
        (Host.readBy_of_inputOf_error hInput).symm, ?_⟩
      rw [perform_bind_of_error hReadInput, hReport]
      rfl
  | ok input =>
      have hReport :
          reportOf options host =
            (analysedReport input).mapError .linking := by
        rw [reportOf, hInput]
        rfl
      rw [hInput] at hReadInput
      obtain ⟨kept, hLinked⟩ :=
        perform_linkWith (s := .reading options input host) rfl finish
      refine ⟨{ Session.reading options input host with
        reportInput := kept }, rfl, ?_⟩
      rw [perform_bind_of_ok hReadInput, perform_bind,
        perform_processWith hLink, hLinked, hReport]
      cases analysedReport input with
      | error e => rfl
      | ok r =>
          rw [mapError_ok]
          dsimp only
          by_cases hErrors : r.hasErrors = true
          · simp only [hErrors, if_true]
            rfl
          · simp only [hErrors]
            exact congrArg settle (perform_bind _ _ _).symm

/- Without a report a run tells why, and does nothing else. -/
theorem runWith_of_reportOf_error
    {failure : Failure}
    (hFailed : reportOf options host = .error failure)
    (finish : Report → Action Unit) :
    ∃ s : Session,
      s.host = (host.readBy options).tell failure.line ∧
      runWith reader finish arguments (.start host) =
        (.ok false, s) := by
  obtain ⟨failed, hHost, hRun⟩ :=
    runWith_of_link hStdin hParse hLink finish
  rw [hFailed] at hRun
  refine ⟨report failure failed, ?_, hRun⟩
  rw [report_host, hHost]

/- An error among the messages is the end of a run. -/
theorem runWith_of_hasErrors
    {r : Report}
    (hReport : reportOf options host = .ok r)
    (hErrors : r.hasErrors = true)
    (finish : Report → Action Unit) :
    runWith reader finish arguments (.start host) =
      (.ok false, report .reported (.informed options r host)) := by
  obtain ⟨_, _, hRun⟩ := runWith_of_link hStdin hParse hLink finish
  rw [hReport] at hRun
  simpa only [hErrors, if_true] using hRun

/-
  Without an error among the messages the project is made,
  and printed unless something goes wrong on the way.
-/
theorem run_of_not_hasErrors
    {r : Report}
    (hReport : reportOf options host = .ok r)
    (hErrors : r.hasErrors = false) :
    runBy reader arguments (.start host) =
      let s :=
        (Session.informed options r host).setFiles
          (filesOf options host.files r)
      match projectOf options host.files r with
      | .error failure => (.ok false, report failure s)
      | .ok project =>
          (.ok true,
            s.print
              (project.toJson.render options.format ++
                [Text.newline])) := by
  obtain ⟨_, _, hRun⟩ :=
    runWith_of_link hStdin hParse hLink printProject
  have hPrint := perform_printProject r (.informed options r host)
  rw [informed_options, informed_host, Host.tell_files,
    Host.readBy_files] at hPrint
  rw [hReport] at hRun
  simp only [hErrors, Bool.false_eq_true, if_false] at hRun
  rw [← runWith_printProject, hRun]
  cases hProject : projectOf options host.files r with
  | error failure =>
      rw [hProject] at hPrint
      rw [perform_bind_of_error hPrint]
      exact settle_of_error
        (external_projectOf options host.files r failure hProject) _
  | ok project =>
      rw [hProject] at hPrint
      rw [perform_bind_of_ok hPrint]
      rfl

end Linking

------------------------------------------------------------
-- Outcomes
------------------------------------------------------------

/-
  What a run with some options tells behind the messages of
  its report: nothing if an error is among them or the project
  is made, and else why it is not.
-/
def complaint
    (options : Options)
    (files : FileTree)
    (r : Report) :
    Text :=
  if r.hasErrors then
    []
  else
    match projectOf options files r with
    | .error failure => failure.line
    | .ok _ => []

/-
  What a run which links has done. It succeeds if there is a
  report, no error is among its messages and a project can be
  made of it; then it has printed the project, and nothing
  else, on the standard output. Without a report it has told
  why and changed nothing else, but for an input which is
  read. Once there is a report its messages come first on the
  standard error, and behind them stands why there is no
  project. If one of them is an error, there is nothing but
  them, the files are as before, and the run is the same
  whatever should have been done with the report.
-/
structure LinkOutcome
    (reader : ArgumentReader)
    (arguments : List Text)
    (host : Host)
    (options : Options)
    (returned : Bool)
    (s : Session) :
    Prop where
  succeeds_iff :
    returned = true ↔
      ∃ r project,
        reportOf options host = .ok r ∧
        r.hasErrors = false ∧
        projectOf options host.files r = .ok project
  printed :
    returned = true →
      ∃ r project,
        reportOf options host = .ok r ∧
        projectOf options host.files r = .ok project ∧
        s.host.stdout =
          host.stdout ++
            (project.toJson.render options.format ++ [Text.newline])
  unread :
    ∀ failure, reportOf options host = .error failure →
      s.host = (host.readBy options).tell failure.line
  informed :
    ∀ r, reportOf options host = .ok r →
      s.host.stderr =
        host.stderr ++ r.messages ++ complaint options host.files r
  stopped :
    ∀ r, reportOf options host = .ok r →
      (∃ d ∈ r.diagnostics.getD [], d.severity = ascii "error") →
        returned = false ∧
        s.host.stderr = host.stderr ++ r.messages ∧
        s.host.files = host.files ∧
        ∀ finish,
          runWith reader finish arguments (.start host) =
            (.ok false, s)

/-
  What a run has done. If it does not succeed, nothing was
  printed on the standard output. Arguments which are refused
  leave all as it is but for the line which says so. A run
  which links has the outcome above, and every other succeeds
  with some text on the standard output.
-/
structure Outcome
    (reader : ArgumentReader)
    (arguments : List Text)
    (host : Host)
    (returned : Bool)
    (s : Session) :
    Prop where
  quiet :
    returned = false → s.host.stdout = host.stdout
  refused :
    ∀ e, Options.parseBy reader arguments = .error e →
      returned = false ∧ s.host = host.tell (Failure.option e).line
  shown :
    ∀ options, Options.parseBy reader arguments = .ok options →
      options.mode ≠ .link →
        returned = true ∧
        ∃ text,
          (options.mode = .version → text = versionText) ∧
          s.host = { host with stdout := host.stdout ++ text }
  linked :
    ∀ options, Options.parseBy reader arguments = .ok options →
      options.mode = .link →
        LinkOutcome reader arguments host options returned s

theorem hasErrors_iff
    {r : Report} :
    r.hasErrors = true ↔
      ∃ d ∈ r.diagnostics.getD [], d.severity = ascii "error" := by
  simp only [Report.hasErrors, List.any_eq_true, Diagnostic.isError,
    decide_eq_true_eq]

section LinkOutcomes

variable {reader : ArgumentReader}
variable {arguments : List Text}
variable {host : Host}
variable {options : Options}

/- A run without a report does nothing but tell why. -/
theorem LinkOutcome.of_reportOf_error
    {failure : Failure}
    (hFailed : reportOf options host = .error failure)
    {s : Session}
    (hHost : s.host = (host.readBy options).tell failure.line) :
    LinkOutcome reader arguments host options false s where
  succeeds_iff := by
    simp [hFailed]
  printed := by
    intro hReturned
    cases hReturned
  unread := by
    intro failure' hFailed'
    cases hFailed.symm.trans hFailed'
    exact hHost
  informed := by
    intro r hReport
    cases hFailed.symm.trans hReport
  stopped := by
    intro r hReport
    cases hFailed.symm.trans hReport

/- There is one report only to which the law is to be applied. -/
theorem LinkOutcome.of_reportOf_ok
    {r : Report}
    (hReport : reportOf options host = .ok r)
    {returned : Bool}
    {s : Session}
    (hReturned :
      returned = true ↔
        r.hasErrors = false ∧
        ∃ project, projectOf options host.files r = .ok project)
    (hPrinted :
      returned = true →
        ∃ project,
          projectOf options host.files r = .ok project ∧
          s.host.stdout =
            host.stdout ++
              (project.toJson.render options.format ++
                [Text.newline]))
    (hStderr :
      s.host.stderr =
        host.stderr ++ r.messages ++ complaint options host.files r)
    (hStopped :
      r.hasErrors = true →
        s.host.files = host.files ∧
        ∀ finish,
          runWith reader finish arguments (.start host) =
            (.ok false, s)) :
    LinkOutcome reader arguments host options returned s where
  succeeds_iff := by
    simp [hReturned, hReport]
  printed := by
    intro hTrue
    obtain ⟨project, hProject, hStdout⟩ := hPrinted hTrue
    exact ⟨r, project, hReport, hProject, hStdout⟩
  unread := by
    intro failure hFailed
    cases hReport.symm.trans hFailed
  informed := by
    intro r' hReport'
    cases hReport.symm.trans hReport'
    exact hStderr
  stopped := by
    intro r' hReport' hError
    cases hReport.symm.trans hReport'
    have hErrors : r.hasErrors = true := hasErrors_iff.mpr hError
    obtain ⟨hFiles, hRun⟩ := hStopped hErrors
    refine ⟨?_, ?_, hFiles, hRun⟩
    · simpa [hErrors] using hReturned
    · simpa [complaint, hErrors] using hStderr

end LinkOutcomes

/- A run which links comes to an end of its own. -/
theorem run_of_link
    {reader : ArgumentReader}
    {arguments : List Text}
    {host : Host}
    (hStdin : host.interactive = false)
    {options : Options}
    (hParse : Options.parseBy reader arguments = .ok options)
    (hLink : options.mode = .link) :
    ∃ returned s,
      runBy reader arguments (.start host) = (.ok returned, s) ∧
      (returned = false → s.host.stdout = host.stdout) ∧
      LinkOutcome reader arguments host options returned s := by
  cases hReport : reportOf options host with
  | error failure =>
      obtain ⟨s, hHost, hRun⟩ :=
        runWith_of_reportOf_error hStdin hParse hLink hReport
          printProject
      refine ⟨false, s, hRun, ?_, .of_reportOf_error hReport hHost⟩
      intro _
      simp [hHost]
  | ok r =>
      cases hErrors : r.hasErrors with
      | true =>
          have hRun :=
            runWith_of_hasErrors hStdin hParse hLink hReport hErrors
          refine ⟨false, _, hRun printProject, ?_,
            .of_reportOf_ok hReport ?_ ?_ ?_ ?_⟩
          · simp [report_host]
          · simp [hErrors]
          · simp
          · simp [report_host, line_reported, complaint, hErrors]
          · intro _
            exact ⟨by simp [report_host], hRun⟩
      | false =>
          have hRun :=
            run_of_not_hasErrors hStdin hParse hLink hReport hErrors
          cases hProject : projectOf options host.files r with
          | error failure =>
              rw [hProject] at hRun
              refine ⟨false, _, hRun, ?_,
                .of_reportOf_ok hReport ?_ ?_ ?_ ?_⟩
              · simp [report_host, Session.setFiles]
              · simp [hProject]
              · simp
              · simp [report_host, Session.setFiles, complaint,
                  hErrors, hProject]
              · simp [hErrors]
          | ok project =>
              rw [hProject] at hRun
              refine ⟨true, _, hRun, ?_,
                .of_reportOf_ok hReport ?_ ?_ ?_ ?_⟩
              · simp
              · simp [hErrors, hProject]
              · intro _
                refine ⟨project, hProject, ?_⟩
                simp [Session.setFiles, Session.print]
              · simp [Session.setFiles, Session.print, complaint,
                  hErrors, hProject]
              · simp [hErrors]

/- A run which is to show the help or the version does so. -/
theorem run_of_ne_link
    {reader : ArgumentReader}
    {arguments : List Text}
    {host : Host}
    (hStdin : host.interactive = false)
    {options : Options}
    (hParse : Options.parseBy reader arguments = .ok options)
    (hMode : options.mode ≠ .link) :
    ∃ text s,
      runBy reader arguments (.start host) = (.ok true, s) ∧
      (options.mode = .version → text = versionText) ∧
      s.host = { host with stdout := host.stdout ++ text } := by
  have hOptions := perform_parseArgumentsBy hStdin reader arguments
  have hReadInput := perform_readInput_of_ne_link hMode host
  rw [hParse] at hOptions
  rw [← runWith_printProject, runWith, runActionsWith,
    perform_bind_of_ok hOptions]
  simp only [if_true]
  rw [perform_bind_of_ok hReadInput, perform_bind, processWith,
    perform_bind_of_ok (perform_get _)]
  cases hShown : options.mode with
  | help => exact ⟨helpText, _, rfl, by simp, rfl⟩
  | version => exact ⟨versionText, _, rfl, fun _ => rfl, rfl⟩
  | link => exact absurd hShown hMode

/- Arguments which are refused are the end of a run. -/
theorem run_of_parseBy_error
    {reader : ArgumentReader}
    {arguments : List Text}
    {host : Host}
    (hStdin : host.interactive = false)
    {e : OptionError}
    (hParse : Options.parseBy reader arguments = .error e) :
    runBy reader arguments (.start host) =
      (.ok false, report (.option e) (.start host)) := by
  have hOptions := perform_parseArgumentsBy hStdin reader arguments
  rw [hParse] at hOptions
  rw [← runWith_printProject, runWith, runActionsWith,
    perform_bind_of_error hOptions]
  exact settle_of_error rfl _

/-
  Whatever library reads the arguments, a run never lets a
  failure escape, and none of the actions' order comes up.
-/
theorem run_outcome
    (reader : ArgumentReader)
    (arguments : List Text)
    (host : Host)
    (hStdin : host.interactive = false) :
    ∃ returned s,
      runBy reader arguments (.start host) = (.ok returned, s) ∧
      Outcome reader arguments host returned s := by
  cases hParse : Options.parseBy reader arguments with
  | error e =>
      have hRun := run_of_parseBy_error hStdin hParse
      have hHost :
          (report (.option e) (.start host)).host =
            host.tell (Failure.option e).line :=
        report_host _ _
      refine ⟨false, _, hRun, ?_, ?_, ?_, ?_⟩
      · intro _
        rw [hHost, Host.tell_stdout]
      · intro e' hParse'
        cases hParse.symm.trans hParse'
        exact ⟨rfl, hHost⟩
      · simp [hParse]
      · simp [hParse]
  | ok options =>
      by_cases hLink : options.mode = .link
      · obtain ⟨returned, s, hRun, hQuiet, hOutcome⟩ :=
          run_of_link hStdin hParse hLink
        refine ⟨returned, s, hRun, hQuiet, ?_, ?_, ?_⟩
        · simp [hParse]
        · intro options' hParse' hMode
          cases hParse.symm.trans hParse'
          exact absurd hLink hMode
        · intro options' hParse' _
          cases hParse.symm.trans hParse'
          exact hOutcome
      · obtain ⟨text, s, hRun, hText, hHost⟩ :=
          run_of_ne_link hStdin hParse hLink
        refine ⟨true, s, hRun, ?_, ?_, ?_, ?_⟩
        · simp
        · simp [hParse]
        · intro options' hParse' _
          cases hParse.symm.trans hParse'
          exact ⟨rfl, text, hText, hHost⟩
        · intro options' hParse' hLink'
          cases hParse.symm.trans hParse'
          exact absurd hLink' hLink

/- A host with a report on its input which has an error. -/
def stoppingHost : Host where
  interactive := false
  stdin :=
    ascii
      ("\x7b\"errors\":[\x7b\"component\":\"general\"," ++
        "\"formattedMessage\":\"Stop.\",\"message\":\"\"," ++
        "\"severity\":\"error\",\"type\":\"\"\x7d]\x7d")
  stdout := []
  stderr := []
  files := .empty []

/- Options with a version which is none. -/
def stoppingOptions : Options :=
  { Options.plain .link with
    fromStdin := true
    solcVersion := some (ascii "none") }

/- The report of that host is read and has an error. -/
theorem exists_reportOf_stoppingHost :
    ∃ r,
      reportOf stoppingOptions stoppingHost = .ok r ∧
      r.hasErrors = true ∧
      r.messages = ascii "Stop." := by
  have hCheck :
      ((reportOf stoppingOptions stoppingHost).toOption.map fun r =>
        (r.hasErrors, r.messages)) =
          some (true, ascii "Stop.") := by
    decide +kernel
  cases hReport : reportOf stoppingOptions stoppingHost with
  | error failure =>
      rw [hReport] at hCheck
      cases hCheck
  | ok r =>
      rw [hReport] at hCheck
      simp only [Except.toOption, Option.map_some, Option.some.injEq,
        Prod.mk.injEq] at hCheck
      exact ⟨r, rfl, hCheck⟩

/-
  The version of the options is of no account there. Two modes
  at once are refused before the report is read.
-/
theorem run_stoppingHost :
    stoppingHost.interactive = false ∧
      (∃ s,
        run [ascii "--solc-version=none"] (.start stoppingHost) =
          (.ok false, s) ∧
        s.host.stdout = [] ∧
        s.host.stderr = ascii "Stop.") ∧
      ∃ s,
        run [ascii "-h", ascii "-v"] (.start stoppingHost) =
          (.ok false, s) ∧
        s.host =
          { stoppingHost with
            stderr :=
              ascii
                ("Error: The following options are mutually " ++
                  "exclusive: --help, --version. " ++
                  "Select at most one.\n") } := by
  refine ⟨rfl, ?_, ?_⟩
  · obtain ⟨returned, s, hRun, hOutcome⟩ :=
      run_outcome plainReader [ascii "--solc-version=none"]
        stoppingHost rfl
    obtain ⟨r, hReport, hErrors, hMessages⟩ :=
      exists_reportOf_stoppingHost
    have hParse :
        Options.parseBy plainReader [ascii "--solc-version=none"] =
          .ok stoppingOptions := by
      rfl
    obtain ⟨hReturned, hStderr, -, -⟩ :=
      (hOutcome.linked stoppingOptions hParse rfl).stopped r hReport
        (hasErrors_iff.mp hErrors)
    subst hReturned
    refine ⟨s, hRun, hOutcome.quiet rfl, ?_⟩
    rw [hStderr, hMessages]
    rfl
  · obtain ⟨returned, s, hRun, hOutcome⟩ :=
      run_outcome plainReader [ascii "-h", ascii "-v"]
        stoppingHost rfl
    have hParse :
        Options.parseBy plainReader [ascii "-h", ascii "-v"] =
          .error .helpAndVersion := by
      rfl
    obtain ⟨hReturned, hHost⟩ := hOutcome.refused _ hParse
    subst hReturned
    have hLine :
        (Failure.option .helpAndVersion).line =
          ascii
            ("Error: The following options are mutually " ++
              "exclusive: --help, --version. " ++
              "Select at most one.\n") := by
      decide +kernel
    refine ⟨s, hRun, ?_⟩
    rw [hHost, hLine]
    rfl

end CommandLine

end ContractLinker
