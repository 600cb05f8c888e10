import ContractLinker.Project.Assembling
import ContractLinker.Proofs.Report.Resolution
import ContractLinker.Proofs.Report.Schema

/-
  Projects from intermediate code. The code is taken out of
  the contracts one by one, by file and then by name. If the
  parser accepts all of it, the project holds each contract
  which had code, under its full path and with the members it
  passes through; of several with one full path the last
  counts. Otherwise assembling stops at
  the first contract whose code is refused, and the contracts
  behind that one keep theirs.

  Key definitions include:
    * `Contract.code?`
    * `Contract.CodeAccepted`
    * `Contract.PassesThrough`
    * `Report.withoutCode`
    * `Report.LastWithCode`
    * `AssembledCode`
    * `RefusedCode`

  Main statements:
    * `Contract.passesThrough_iff`
    * `Assembling.yulStep_eq`
    * `Assembling.yul_eq`
    * `Assembling.get?_yulContracts`
    * `Report.assemble_yul`
-/

------------------------------------------------------------
-- Intermediate Code Of Contracts
------------------------------------------------------------

namespace ContractLinker

namespace Contract

/- The code of a contract which is neither missing nor empty. -/
def code? (c : Contract) : Option Text :=
  c.irOptimized.filter fun text => text ≠ []

/- A contract after its code has been taken out. -/
def withoutCode (c : Contract) : Contract :=
  { c with irOptimized := none }

/- The code of a contract is missing, empty or accepted. -/
def CodeAccepted (c : Contract) : Prop :=
  c.irOptimized = none ∨ c.irOptimized = some [] ∨
    ∃ text object, c.irOptimized = some text ∧
      Yul.Object.parse text = .ok object

theorem code?_eq_some_iff
    {c : Contract}
    {text : Text} :
    c.code? = some text ↔ c.irOptimized = some text ∧ text ≠ [] := by
  unfold code?
  rw [Option.filter_eq_some_iff, decide_eq_true_eq]

theorem code?_eq_none_iff
    {c : Contract} :
    c.code? = none ↔
      c.irOptimized = none ∨ c.irOptimized = some [] := by
  unfold code?
  cases c.irOptimized with
  | none => simp
  | some text => simp

------------------------------------------------------------
-- Members Which Pass Through
------------------------------------------------------------

/-
  What a project takes over of a contract: an object with
  these six members, each just as the contract has it and
  missing if the contract lacks it, and with no others.
-/
structure PassesThrough (c : Contract) (j : Json) : Prop where
  object :
    ∃ members, j = .obj members ∧ Dictionary.Ordered members
  abi : j.member? (ascii "abi") = c.abi
  devdoc : j.member? (ascii "devdoc") = c.devdoc
  metadata : j.member? (ascii "metadata") = c.metadata
  methodIdentifiers :
    j.member? (ascii "methodIdentifiers") =
      c.evm.bind MachineOutput.methodIdentifiers
  storageLayout :
    j.member? (ascii "storageLayout") = c.storageLayout
  userdoc : j.member? (ascii "userdoc") = c.userdoc
  others : ∀ name,
    name ∉ [ascii "abi", ascii "devdoc", ascii "metadata",
        ascii "methodIdentifiers", ascii "storageLayout",
        ascii "userdoc"] →
      j.member? name = none

theorem member?_passThroughMetadata
    (c : Contract)
    (name : Text) :
    c.passThroughMetadata.member? name =
      (Dictionary.get? name
        [ (ascii "abi", c.abi),
          (ascii "devdoc", c.devdoc),
          (ascii "metadata", c.metadata),
          (ascii "methodIdentifiers",
            c.evm.bind MachineOutput.methodIdentifiers),
          (ascii "storageLayout", c.storageLayout),
          (ascii "userdoc", c.userdoc) ]).join := by
  apply Json.member?_object
  exact (by decide :
    [ascii "abi", ascii "devdoc", ascii "metadata",
      ascii "methodIdentifiers", ascii "storageLayout",
      ascii "userdoc"].Nodup)

theorem passesThrough_passThroughMetadata
    (c : Contract) :
    c.PassesThrough c.passThroughMetadata where
  object := by
    refine ⟨_, rfl, Json.ordered_of_object_eq ?_ rfl⟩
    have hKeys :
        List.Pairwise (· < ·)
          [ascii "abi", ascii "devdoc", ascii "metadata",
            ascii "methodIdentifiers", ascii "storageLayout",
            ascii "userdoc"] := by
      decide
    exact List.pairwise_map.mp hKeys
  abi := (member?_passThroughMetadata c _).trans Option.join_some
  devdoc := (member?_passThroughMetadata c _).trans Option.join_some
  metadata :=
    (member?_passThroughMetadata c _).trans Option.join_some
  methodIdentifiers :=
    (member?_passThroughMetadata c _).trans Option.join_some
  storageLayout :=
    (member?_passThroughMetadata c _).trans Option.join_some
  userdoc := (member?_passThroughMetadata c _).trans Option.join_some
  others := by
    intro name hOther
    rw [member?_passThroughMetadata, Dictionary.get?_eq_none_iff.mpr]
    · rfl
    · intro value hMember
      exact hOther (List.mem_map_of_mem (f := Prod.fst) hMember)

/- There is one object only which fits a contract. -/
theorem PassesThrough.eq
    {c : Contract}
    {j j' : Json}
    (hFits : c.PassesThrough j)
    (hFits' : c.PassesThrough j') :
    j = j' := by
  obtain ⟨members, hMembers, hOrdered⟩ := hFits.object
  obtain ⟨members', hMembers', hOrdered'⟩ := hFits'.object
  have hFound : ∀ name, j.member? name = j'.member? name := by
    intro name
    by_cases hKnown :
        name ∈ [ascii "abi", ascii "devdoc", ascii "metadata",
          ascii "methodIdentifiers", ascii "storageLayout",
          ascii "userdoc"]
    · simp only [List.mem_cons, List.not_mem_nil, or_false] at hKnown
      rcases hKnown with rfl | rfl | rfl | rfl | rfl | rfl
      · exact hFits.abi.trans hFits'.abi.symm
      · exact hFits.devdoc.trans hFits'.devdoc.symm
      · exact hFits.metadata.trans hFits'.metadata.symm
      · exact hFits.methodIdentifiers.trans
          hFits'.methodIdentifiers.symm
      · exact hFits.storageLayout.trans hFits'.storageLayout.symm
      · exact hFits.userdoc.trans hFits'.userdoc.symm
    · exact (hFits.others name hKnown).trans
        (hFits'.others name hKnown).symm
  subst hMembers hMembers'
  exact congrArg Json.obj
    (Dictionary.ext_get? hOrdered hOrdered' hFound)

theorem passesThrough_iff
    {c : Contract}
    {j : Json} :
    c.PassesThrough j ↔ j = c.passThroughMetadata := by
  have hFits := passesThrough_passThroughMetadata c
  constructor
  · intro hFits'
    exact hFits'.eq hFits
  · intro hEq
    exact hEq ▸ hFits

end Contract

namespace Report

/- A report after the code of all contracts has been taken out. -/
def withoutCode (r : Report) : Report :=
  r.mapContracts fun _ _ c => c.withoutCode

/- The last of the contracts with code that have a full path. -/
structure LastWithCode (r : Report) (path file name : Text)
    (c : Contract) (text : Text) : Prop where
  contract : r.contract? file name = some c
  code : c.code? = some text
  path_eq : fullContractPath file name = path
  last : ∀ file' name' c' text',
    r.contract? file' name' = some c' → c'.code? = some text' →
      fullContractPath file' name' = path →
        ¬ ContractTable.Before file name file' name'

end Report

------------------------------------------------------------
-- Outcomes
------------------------------------------------------------

/-
  A project from the intermediate code of a report, and the
  report afterwards, from which nothing more is assembled.
-/
structure AssembledCode (r : Report) (libraries : Libraries)
    (version : Version) (files : FileTree)
    (o : Assembling.Outcome) (p : Project) : Prop where
  version_eq : p.version = version
  libraries_eq : p.libraries = libraries
  ordered : p.contracts.Ordered
  keys : ∀ path, (p.contract? path).isSome ↔
    ∃ file name c text, r.contract? file name = some c ∧
      c.code? = some text ∧ fullContractPath file name = path
  contracts : ∀ path contract,
    p.contract? path = some contract ↔
      ∃ file name c text object,
        r.LastWithCode path file name c text ∧
        Yul.Object.parse text = .ok object ∧
        contract.path = path ∧
        contract.source = .yul text object ∧
        c.PassesThrough contract.metadata
  report : o.report = r.withoutCode
  files_eq : o.files = files
  again : ∀ libraries' version' directory files',
    o.report.assemble .yul libraries' version' directory files' =
      { report := o.report
        files := files'
        project :=
          .ok
            { version := version'
              contracts := []
              libraries := libraries' } }

/-
  A failure at the first contract whose code is refused. The
  code of the contracts up to that one has been taken out.
-/
structure RefusedCode (r : Report) (files : FileTree)
    (o : Assembling.Outcome) (file name : Text) (c : Contract)
    (text : Text) (refusal : Yul.ParseError) : Prop where
  contract : r.contract? file name = some c
  code : c.code? = some text
  refused : Yul.Object.parse text = .error refusal
  first : ∀ file' name' c',
    r.contract? file' name' = some c' →
      ContractTable.Before file' name' file name → c'.CodeAccepted
  error :
    o.project =
      .error (.parsing (fullContractPath file name) refusal)
  message :
    (AssemblingError.parsing (fullContractPath file name)
        refusal).message =
      ascii "Contract `" ++ fullContractPath file name ++
        ascii "` parsing error: " ++ refusal.message
  report :
    o.report =
      r.mapContracts fun file' name' c' =>
        if ContractTable.Before file name file' name' then c'
        else c'.withoutCode
  files_eq : o.files = files

------------------------------------------------------------
-- One Contract
------------------------------------------------------------

namespace Assembling

/- The contract of a project for a contract whose code is accepted. -/
def yulContract? (path : Text) (c : Contract) :
    Option ProjectContract :=
  c.code?.bind fun text =>
    match Yul.Object.parse text with
    | .error _ => none
    | .ok object =>
        some
          { path := path
            source := .yul text object
            metadata := c.passThroughMetadata }

/- A contract of a project, told by its parts. -/
theorem projectContract_eq_iff
    {path : Text}
    {source : ContractSource}
    {c : Contract}
    {contract : ProjectContract} :
    contract =
        { path := path
          source := source
          metadata := c.passThroughMetadata } ↔
      contract.path = path ∧
        contract.source = source ∧
        c.PassesThrough contract.metadata := by
  rw [Contract.passesThrough_iff]
  cases contract with
  | mk path' source' metadata' =>
      simp

/- Why the code of a contract is refused. -/
def yulFailure? (path : Text) (c : Contract) :
    Option AssemblingError :=
  c.code?.bind fun text =>
    match Yul.Object.parse text with
    | .error e => some (.parsing path e)
    | .ok _ => none

/- The project contracts after one more of them, if there is one. -/
def addContract (path : Text) (contract : Option ProjectContract)
    (contracts : Dictionary ProjectContract) :
    Dictionary ProjectContract :=
  match contract with
  | none => contracts
  | some contract => contracts.insert path contract

/- What is assembled of a contract, and why it may fail. -/
theorem yulStep_eq
    (path : Text)
    (c : Contract)
    (s : Progress) :
    yulStep none path c s =
      (c.withoutCode,
        { s with
          contracts :=
            addContract path (yulContract? path c) s.contracts },
        yulFailure? path c) := by
  unfold yulStep yulContract? yulFailure?
  cases hCode : c.code? with
  | none =>
      rcases Contract.code?_eq_none_iff.mp hCode with hNone | hEmpty
      · rw [hNone]
        rfl
      · rw [hEmpty]
        rfl
  | some text =>
      rcases Contract.code?_eq_some_iff.mp hCode with ⟨hText, hNe⟩
      rw [hText, Option.bind_some, Option.bind_some]
      cases text with
      | nil =>
          exact absurd rfl hNe
      | cons b text =>
          dsimp only [dump]
          cases Yul.Object.parse (b :: text) with
          | error e => rfl
          | ok object => rfl

theorem yulFailure?_eq_none_iff
    {path : Text}
    {c : Contract} :
    yulFailure? path c = none ↔ c.CodeAccepted := by
  unfold yulFailure? Contract.CodeAccepted
  cases hCode : c.code? with
  | none =>
      rcases Contract.code?_eq_none_iff.mp hCode with hNone | hEmpty
      · simp [hNone]
      · simp [hEmpty]
  | some text =>
      rcases Contract.code?_eq_some_iff.mp hCode with ⟨hText, hNe⟩
      rw [Option.bind_some, hText]
      cases hParse : Yul.Object.parse text with
      | error e => simp [hNe, hParse]
      | ok object => simp [hParse]

theorem yulFailure?_eq_some_iff
    {path : Text}
    {c : Contract}
    {e : AssemblingError} :
    yulFailure? path c = some e ↔
      ∃ text refusal, c.code? = some text ∧
        Yul.Object.parse text = .error refusal ∧
        e = .parsing path refusal := by
  unfold yulFailure?
  rw [Option.bind_eq_some_iff]
  constructor
  · rintro ⟨text, hCode, hFailure⟩
    cases hParse : Yul.Object.parse text with
    | error refusal =>
        rw [hParse] at hFailure
        cases hFailure
        exact ⟨text, refusal, hCode, hParse, rfl⟩
    | ok object =>
        rw [hParse] at hFailure
        cases hFailure
  · rintro ⟨text, refusal, hCode, hParse, rfl⟩
    refine ⟨text, hCode, ?_⟩
    rw [hParse]

theorem yulContract?_eq_some_iff
    {path : Text}
    {c : Contract}
    {contract : ProjectContract} :
    yulContract? path c = some contract ↔
      ∃ text object, c.code? = some text ∧
        Yul.Object.parse text = .ok object ∧
        contract =
          { path := path
            source := .yul text object
            metadata := c.passThroughMetadata } := by
  unfold yulContract?
  rw [Option.bind_eq_some_iff]
  constructor
  · rintro ⟨text, hCode, hContract⟩
    cases hParse : Yul.Object.parse text with
    | error refusal =>
        rw [hParse] at hContract
        cases hContract
    | ok object =>
        rw [hParse] at hContract
        cases hContract
        exact ⟨text, object, hCode, hParse, rfl⟩
  · rintro ⟨text, object, hCode, hParse, rfl⟩
    refine ⟨text, hCode, ?_⟩
    rw [hParse]

------------------------------------------------------------
-- All Contracts
------------------------------------------------------------

/- One turn of the loop, as far as the report is concerned. -/
def codeStep (path : Text) (c : Contract) (_ : Unit) :
    Contract × Unit × Option AssemblingError :=
  (c.withoutCode, (), yulFailure? path c)

/- The contracts of a project for the code in a table. -/
def yulContracts (table : ContractTable) :
    Dictionary ProjectContract :=
  Dictionary.ofList
    (table.toList.filterMap fun entry =>
      (yulContract? entry.1 entry.2).map (Prod.mk entry.1))

theorem contracts_of_yulStep
    (entries : List (Text × Contract))
    (s : Progress) :
    (entries.foldl
        (fun s entry => (yulStep none entry.1 entry.2 s).2.1)
        s).contracts =
      (entries.filterMap fun entry =>
          (yulContract? entry.1 entry.2).map (Prod.mk entry.1)).foldl
        (fun d entry => d.insert entry.1 entry.2) s.contracts := by
  induction entries generalizing s with
  | nil =>
      rfl
  | cons first entries ih =>
      rw [List.foldl_cons, ih, yulStep_eq, List.filterMap_cons]
      cases yulContract? first.1 first.2 with
      | none => rfl
      | some contract => rfl

/- Without a directory for dumps no file is touched. -/
theorem files_of_yulStep
    (table : ContractTable)
    (files : FileTree) :
    (table.advance (yulStep none) ⟨[], files⟩).2.1.files = files := by
  have hStep :
      ∀ path c (s : Progress), s.files = files →
        (yulStep none path c s).2.1.files = files := by
    intro path c s hBefore
    rw [yulStep_eq]
    exact hBefore
  exact ContractTable.advance_invariant hStep table rfl

/- What assembling comes to, without the state of the loop. -/
theorem yul_eq
    (r : Report)
    {table : ContractTable}
    (hContracts : r.contracts = some table)
    (libraries : Libraries)
    (version : Version)
    (files : FileTree) :
    yul r libraries version none files =
      { report :=
          { r with contracts := some (table.advance codeStep ()).1 }
        files := files
        project :=
          match (table.advance codeStep ()).2.2 with
          | some e => .error e
          | none =>
              .ok
                { version
                  contracts := yulContracts table
                  libraries } } := by
  have hStateless :
      ∀ path c s,
        (yulStep none path c s).1 = (codeStep path c ()).1 ∧
          (yulStep none path c s).2.2 = (codeStep path c ()).2.2 := by
    intro path c s
    rw [yulStep_eq]
    exact ⟨rfl, rfl⟩
  have hFiles := files_of_yulStep table files
  have hState :
      (table.advance (yulStep none) ⟨[], files⟩).2.2 = none → _ :=
    ContractTable.state_of_advance (yulStep none)
  rcases ContractTable.advance_stateless hStateless table
      ⟨[], files⟩ with
    ⟨hTable, hStop⟩
  unfold yul
  rw [hContracts, ← hTable, ← hStop]
  dsimp only
  generalize table.advance (yulStep none) ⟨[], files⟩ = outcome
    at hFiles hState ⊢
  rcases outcome with ⟨table', s, stop⟩
  dsimp only at hFiles hState ⊢
  rw [hFiles]
  cases stop with
  | some e =>
      rfl
  | none =>
      rw [hState rfl, contracts_of_yulStep]
      rfl

/- Code which does not stop assembling is an object. -/
theorem exists_object
    {c : Contract}
    (hAccepted : c.CodeAccepted)
    {text : Text}
    (hCode : c.code? = some text) :
    ∃ object, Yul.Object.parse text = .ok object := by
  rcases Contract.code?_eq_some_iff.mp hCode with ⟨hText, hNe⟩
  rcases hAccepted with hNone | hEmpty | ⟨text', object, hText', hParse⟩
  · rw [hText] at hNone
    cases hNone
  · rw [hText] at hEmpty
    exact absurd (Option.some.inj hEmpty) hNe
  · rw [hText] at hText'
    cases hText'
    exact ⟨object, hParse⟩

theorem made_iff
    {path key : Text}
    {c : Contract}
    {contract : ProjectContract} :
    (yulContract? path c).map (Prod.mk path) = some (key, contract) ↔
      path = key ∧ yulContract? key c = some contract := by
  rw [Option.map_eq_some_iff]
  constructor
  · rintro ⟨made, hMade, hEq⟩
    cases hEq
    exact ⟨rfl, hMade⟩
  · rintro ⟨rfl, hMade⟩
    exact ⟨contract, hMade, rfl⟩

/- A project contract is that of the last contract with its path. -/
theorem get?_yulContracts
    {r : Report}
    (hOrdered : ContractTable.Ordered (r.contracts.getD []))
    (hAccepted : ∀ file name c,
      r.contract? file name = some c → c.CodeAccepted)
    {path : Text}
    {contract : ProjectContract} :
    (yulContracts (r.contracts.getD [])).get? path = some contract ↔
      ∃ file name c text object,
        r.LastWithCode path file name c text ∧
        Yul.Object.parse text = .ok object ∧
        contract =
          { path := path
            source := .yul text object
            metadata := c.passThroughMetadata } := by
  unfold yulContracts
  rw [ContractTable.get?_ofList_toList hOrdered
    fun path c => (yulContract? path c).map (Prod.mk path)]
  simp only [made_iff, yulContract?_eq_some_iff]
  constructor
  · rintro ⟨file, name, c, hContract,
      ⟨hPath, text, object, hCode, hParse, hEq⟩, hLast⟩
    refine ⟨file, name, c, text, object,
      ⟨hContract, hCode, hPath, ?_⟩, hParse, hEq⟩
    intro file' name' c' text' hContract' hCode' hPath'
    rcases exists_object (hAccepted file' name' c' hContract') hCode'
      with ⟨object', hParse'⟩
    exact hLast file' name' c' _ hContract'
      ⟨hPath', text', object', hCode', hParse', rfl⟩
  · rintro ⟨file, name, c, text, object, hLast, hParse, hEq⟩
    refine ⟨file, name, c, hLast.contract,
      ⟨hLast.path_eq, text, object, hLast.code, hParse, hEq⟩, ?_⟩
    rintro file' name' c' _ hContract'
      ⟨hPath', text', object', hCode', -, -⟩
    exact hLast.last file' name' c' text' hContract' hCode' hPath'

/- The keys of a project are the full paths of contracts with code. -/
theorem isSome_get?_yulContracts
    {r : Report}
    (hOrdered : ContractTable.Ordered (r.contracts.getD []))
    (hAccepted : ∀ file name c,
      r.contract? file name = some c → c.CodeAccepted)
    {path : Text} :
    ((yulContracts (r.contracts.getD [])).get? path).isSome ↔
      ∃ file name c text, r.contract? file name = some c ∧
        c.code? = some text ∧ fullContractPath file name = path := by
  unfold yulContracts
  rw [ContractTable.isSome_get?_ofList_toList hOrdered
    fun path c => (yulContract? path c).map (Prod.mk path)]
  simp only [made_iff, yulContract?_eq_some_iff]
  constructor
  · rintro ⟨file, name, c, _, hContract,
      hPath, text, _, hCode, -, -⟩
    exact ⟨file, name, c, text, hContract, hCode, hPath⟩
  · rintro ⟨file, name, c, text, hContract, hCode, hPath⟩
    rcases exists_object (hAccepted file name c hContract) hCode with
      ⟨object, hParse⟩
    exact ⟨file, name, c, _, hContract, hPath, text, object,
      hCode, hParse, rfl⟩

------------------------------------------------------------
-- Success And Failure
------------------------------------------------------------

/- Nothing is assembled of contracts without code. -/
theorem yulStep_withoutCode
    (directory : Option Text)
    (path : Text)
    (c : Contract)
    (s : Progress) :
    yulStep directory path c.withoutCode s =
      (c.withoutCode, s, none) := by
  rfl

theorem assemble_withoutCode
    {r : Report}
    (hSome : r.contracts.isSome)
    (libraries : Libraries)
    (version : Version)
    (directory : Option Text)
    (files : FileTree) :
    r.withoutCode.assemble .yul libraries version directory files =
      { report := r.withoutCode
        files := files
        project :=
          .ok { version := version, contracts := [],
                libraries := libraries } } := by
  rcases Option.isSome_iff_exists.mp hSome with ⟨table, hTable⟩
  have hStripped :
      r.withoutCode.contracts =
        some (table.mapContracts fun _ _ c => c.withoutCode) := by
    unfold Report.withoutCode Report.mapContracts
    rw [hTable, Option.map_some]
  have hIdle :
      ContractTable.advance (yulStep directory)
          (table.mapContracts fun _ _ c => c.withoutCode)
          ⟨[], files⟩ =
        (table.mapContracts fun _ _ c => c.withoutCode,
          ⟨[], files⟩, none) := by
    apply ContractTable.advance_idle
    intro file contracts hFile name c hName s
    rcases List.mem_map.mp hFile with ⟨⟨_, before⟩, -, hEq⟩
    cases hEq
    rcases List.mem_map.mp hName with ⟨⟨_, c'⟩, -, hEq⟩
    cases hEq
    exact yulStep_withoutCode directory _ c' s
  unfold Report.assemble yul
  dsimp only
  rw [hStripped]
  dsimp only
  rw [hIdle, ← hStripped]

/- What assembling comes to for a report with contracts. -/
theorem assemble_yul_eq
    {r : Report}
    (hSome : r.contracts.isSome)
    (libraries : Libraries)
    (version : Version)
    (files : FileTree) :
    r.assemble .yul libraries version none files =
      { report :=
          { r with
            contracts :=
              r.contracts.map fun table =>
                (table.advance codeStep ()).1 }
        files := files
        project :=
          match (ContractTable.advance codeStep
              (r.contracts.getD []) ()).2.2 with
          | some e => .error e
          | none =>
              .ok
                { version
                  contracts := yulContracts (r.contracts.getD [])
                  libraries } } := by
  rcases Option.isSome_iff_exists.mp hSome with ⟨table, hTable⟩
  unfold Report.assemble
  dsimp only
  rw [yul_eq r hTable, hTable]
  rfl

/- What the loop makes of the table, it makes of the report. -/
theorem report_eq
    {r : Report}
    {f : Text → Text → Contract → Contract}
    (hLoop :
      (ContractTable.advance codeStep (r.contracts.getD []) ()).1 =
        ContractTable.mapContracts f (r.contracts.getD [])) :
    { r with
      contracts :=
        r.contracts.map fun table =>
          (table.advance codeStep ()).1 } =
      r.mapContracts f := by
  unfold Report.mapContracts
  cases hContracts : r.contracts with
  | none =>
      rfl
  | some table =>
      rw [hContracts] at hLoop
      exact congrArg (fun t => { r with contracts := some t }) hLoop

theorem assembledCode_of_passes
    {r : Report}
    (hSome : r.contracts.isSome)
    (hOrdered : ContractTable.Ordered (r.contracts.getD []))
    (libraries : Libraries)
    (version : Version)
    (files : FileTree)
    (hNone :
      (ContractTable.advance codeStep (r.contracts.getD []) ()).2.2 =
        none) :
    (∀ file name c, r.contract? file name = some c →
        c.CodeAccepted) ∧
      ∃ p,
        (r.assemble .yul libraries version none files).project =
          .ok p ∧
        AssembledCode r libraries version files
          (r.assemble .yul libraries version none files) p := by
  rcases ContractTable.passes_of_advance codeStep hOrdered hNone with
    ⟨hPasses, hLoop⟩
  have hAccepted :
      ∀ file name c, r.contract? file name = some c →
        c.CodeAccepted :=
    fun file name c hContract =>
      yulFailure?_eq_none_iff.mp (hPasses file name c hContract)
  have hReport := report_eq hLoop
  rw [assemble_yul_eq hSome, hNone, hReport]
  refine ⟨hAccepted, _, rfl, ?_⟩
  constructor
  · rfl
  · rfl
  · exact Dictionary.ordered_ofList _
  · intro path
    exact isSome_get?_yulContracts hOrdered hAccepted
  · intro path contract
    simp only [← projectContract_eq_iff]
    exact get?_yulContracts hOrdered hAccepted
  · rfl
  · rfl
  · exact assemble_withoutCode hSome

theorem refusedCode_of_fails
    {r : Report}
    (hSome : r.contracts.isSome)
    (hOrdered : ContractTable.Ordered (r.contracts.getD []))
    (libraries : Libraries)
    (version : Version)
    (files : FileTree)
    {e : AssemblingError}
    (hStop :
      (ContractTable.advance codeStep (r.contracts.getD []) ()).2.2 =
        some e) :
    ∃ file name c text refusal,
      RefusedCode r files
        (r.assemble .yul libraries version none files)
        file name c text refusal := by
  rcases ContractTable.fails_of_advance codeStep hOrdered hStop with
    ⟨file, name, c, hContract, hFails, hFirst, hLoop⟩
  rcases yulFailure?_eq_some_iff.mp hFails with
    ⟨text, refusal, hCode, hParse, rfl⟩
  have hReport := report_eq hLoop
  refine ⟨file, name, c, text, refusal, ?_⟩
  rw [assemble_yul_eq hSome, hStop, hReport]
  constructor
  · exact hContract
  · exact hCode
  · exact hParse
  · intro file' name' c' hContract' hBefore
    exact yulFailure?_eq_none_iff.mp
      (hFirst file' name' c' hContract' hBefore)
  · rfl
  · rfl
  · rfl
  · rfl

end Assembling

/-
  A project is assembled if the code of every contract is
  missing, empty or accepted by the parser; if not, the first
  contract whose code is refused is to blame.
-/
theorem Report.assemble_yul
    {r : Report}
    (hSome : r.contracts.isSome)
    (hOrdered : ContractTable.Ordered (r.contracts.getD []))
    (libraries : Libraries)
    (version : Version)
    (files : FileTree) :
    let o := r.assemble .yul libraries version none files
    ((∃ p, o.project = .ok p) ↔
        ∀ file name c, r.contract? file name = some c →
          c.CodeAccepted) ∧
      (∀ p, o.project = .ok p →
        AssembledCode r libraries version files o p) ∧
      ∀ e, o.project = .error e →
        ∃ file name c text refusal,
          RefusedCode r files o file name c text refusal := by
  intro o
  cases hStop : (ContractTable.advance Assembling.codeStep
      (r.contracts.getD []) ()).2.2 with
  | none =>
      rcases Assembling.assembledCode_of_passes hSome hOrdered
          libraries version files hStop with
        ⟨hAccepted, p, hProject, hAssembled⟩
      refine ⟨⟨fun _ => hAccepted, fun _ => ⟨p, hProject⟩⟩, ?_, ?_⟩
      · intro p' hProject'
        cases hProject.symm.trans hProject'
        exact hAssembled
      · intro e hError
        cases hProject.symm.trans hError
  | some e =>
      rcases Assembling.refusedCode_of_fails hSome hOrdered
          libraries version files hStop with
        ⟨file, name, c, text, refusal, hRefused⟩
      refine ⟨⟨?_, ?_⟩, ?_, ?_⟩
      · rintro ⟨p, hProject⟩
        cases hRefused.error.symm.trans hProject
      · intro hAccepted
        rcases Assembling.exists_object
            (hAccepted file name c hRefused.contract)
            hRefused.code with
          ⟨object, hParse⟩
        cases hRefused.refused.symm.trans hParse
      · intro p hProject
        cases hRefused.error.symm.trans hProject
      · intro e' _
        exact ⟨file, name, c, text, refusal, hRefused⟩

/- The code of an object in which nothing happens. -/
def idleSource : Text :=
  ascii "object \"A\" \x7b code \x7b\x7d \x7d"

/- A contract of which a report holds nothing but code. -/
def coded (code : Text) : Contract where
  abi := none
  metadata := none
  devdoc := none
  userdoc := none
  storageLayout := none
  evm := none
  irOptimized := some code
  hash := none
  factoryDependencies := none

/-
  A contract with code and with all members which a project
  takes over, and some which it does not.
-/
def annotated (code : Text) : Contract where
  abi := some (.arr [])
  metadata := some (.str (ascii "m"))
  devdoc := some .null
  userdoc := some (.obj [])
  storageLayout := some (.bool true)
  evm :=
    some
      { assembly := none
        assemblyText := some (ascii "stop")
        methodIdentifiers :=
          some (.obj [(ascii "f()", .str (ascii "26121ff0"))])
        bytecode := some .null
        deployedBytecode := none }
  irOptimized := some code
  hash := some (ascii "h")
  factoryDependencies := none

/- A report of two contracts, the second one with some code. -/
def draft (code : Text) : Report where
  contracts :=
    some
      [ (ascii "a.sol",
          [ (ascii "A", annotated idleSource),
            (ascii "B", coded code) ]) ]
  sources := none
  diagnostics := none
  version := none
  longVersion := none
  zkVersion := none

theorem ordered_draft
    (code : Text) :
    ContractTable.Ordered ((draft code).contracts.getD []) := by
  refine ⟨by simp [draft, Dictionary.Ordered], ?_⟩
  intro file contracts hFile
  cases List.mem_singleton.mp hFile
  have hNames : ascii "A" < ascii "B" := by
    decide
  simpa [Dictionary.Ordered] using hNames

theorem contract?_draft
    {code file name : Text}
    {c : Contract}
    (hContract : (draft code).contract? file name = some c) :
    file = ascii "a.sol" ∧
      (name = ascii "A" ∧ c = annotated idleSource ∨
        name = ascii "B" ∧ c = coded code) := by
  obtain ⟨contracts, hFile, hName⟩ :=
    (ContractTable.contract?_eq_some_iff (ordered_draft code)).mp
      hContract
  cases List.mem_singleton.mp hFile
  refine ⟨rfl, ?_⟩
  simpa using hName

/-
  A contract of a project shows what it passes through. The
  second contract has no code to be assembled in the first
  case, and code which is refused in the other.
-/
theorem assemble_yul_draft :
    let assembled (code : Text) :=
      (draft code).assemble .yul [] ⟨0, 8, 20, [], []⟩ none ⟨[], []⟩
    (∀ code, (draft code).contracts.isSome ∧
        ContractTable.Ordered ((draft code).contracts.getD [])) ∧
      (∃ p contract,
        AssembledCode (draft []) [] ⟨0, 8, 20, [], []⟩ ⟨[], []⟩
          (assembled []) p ∧
        p.contract? (ascii "a.sol:A") = some contract ∧
        contract.metadata =
          .obj
            [ (ascii "abi", .arr []),
              (ascii "devdoc", .null),
              (ascii "metadata", .str (ascii "m")),
              (ascii "methodIdentifiers",
                .obj [(ascii "f()", .str (ascii "26121ff0"))]),
              (ascii "storageLayout", .bool true),
              (ascii "userdoc", .obj []) ] ∧
        p.contract? (ascii "a.sol:B") = none) ∧
      ∃ file name c text refusal,
        RefusedCode (draft (ascii "code")) ⟨[], []⟩
          (assembled (ascii "code")) file name c text refusal := by
  intro assembled
  have hReport :
      ∀ code, (draft code).contracts.isSome ∧
        ContractTable.Ordered ((draft code).contracts.getD []) :=
    fun code => ⟨rfl, ordered_draft code⟩
  have hLaw :=
    fun code => Report.assemble_yul (hReport code).1 (hReport code).2
      [] ⟨0, 8, 20, [], []⟩ ⟨[], []⟩
  have hParse :
      (Yul.Object.parse idleSource).toOption.isSome = true ∧
        (Yul.Object.parse (ascii "code")).toOption.isSome = false := by
    decide +kernel
  refine ⟨hReport, ?_, ?_⟩
  · rcases hLaw [] with ⟨hAccepted, hAssembled, -⟩
    have hAll :
        ∀ file name c, (draft []).contract? file name = some c →
          c.CodeAccepted := by
      intro file name c hContract
      rcases contract?_draft hContract with
        ⟨-, ⟨-, rfl⟩ | ⟨-, rfl⟩⟩
      · cases hIdle : Yul.Object.parse idleSource with
        | error e =>
            rw [hIdle] at hParse
            cases hParse.1
        | ok object =>
            exact Or.inr (Or.inr ⟨idleSource, object, rfl, hIdle⟩)
      · exact Or.inr (Or.inl rfl)
    obtain ⟨p, hProject⟩ := hAccepted.mpr hAll
    have hCode := hAssembled p hProject
    have hKey : (p.contract? (ascii "a.sol:A")).isSome :=
      (hCode.keys _).mpr
        ⟨ascii "a.sol", ascii "A", annotated idleSource, idleSource,
          rfl, rfl, rfl⟩
    obtain ⟨contract, hContract⟩ := Option.isSome_iff_exists.mp hKey
    obtain ⟨file, name, c, text, object, hLast, -, -, -, hMetadata⟩ :=
      (hCode.contracts _ contract).mp hContract
    refine ⟨p, contract, hCode, hContract, ?_, ?_⟩
    · rcases contract?_draft hLast.contract with
        ⟨rfl, ⟨rfl, rfl⟩ | ⟨rfl, rfl⟩⟩
      · exact Contract.passesThrough_iff.mp hMetadata
      · cases hLast.code
    · rw [← Option.not_isSome_iff_eq_none, hCode.keys]
      rintro ⟨file', name', c', text', hContract', hCode', hPath⟩
      rcases contract?_draft hContract' with
        ⟨rfl, ⟨rfl, rfl⟩ | ⟨rfl, rfl⟩⟩
      · exact absurd hPath (by decide)
      · cases hCode'
  · rcases hLaw (ascii "code") with ⟨hAccepted, -, hRefused⟩
    cases hProject : (assembled (ascii "code")).project with
    | error e =>
        exact hRefused e hProject
    | ok p =>
        have hFound :
            (draft (ascii "code")).contract? (ascii "a.sol")
                (ascii "B") =
              some (coded (ascii "code")) := by
          rfl
        rcases Assembling.exists_object
            (hAccepted.mp ⟨p, hProject⟩ _ _ _ hFound)
            (Contract.code?_eq_some_iff.mpr ⟨rfl, by decide⟩) with
          ⟨object, hObject⟩
        rw [hObject] at hParse
        cases hParse.2

end ContractLinker
