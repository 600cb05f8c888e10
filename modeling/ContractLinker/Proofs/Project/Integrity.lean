import ContractLinker.Project.Assembling
import ContractLinker.Proofs.Assembly.Paths
import ContractLinker.Proofs.Report.Resolution
import ContractLinker.Proofs.Text.Cutting

/-
  Referential integrity of linked projects. If no contract
  has a colon in its name, full paths tell contracts apart,
  and the project of a report holds just the contracts that
  have an assembly. No path that linking puts in dangles, and
  each leads to a contract with the content it stands for.

  Key definitions include:
    * `Report.HasAssembly`
    * `IntactContract`

  Main statements:
    * `fullContractPath_inj`
    * `Assembling.evmla_eq_ok_iff`
    * `integrity_of_assemble`
-/

------------------------------------------------------------
-- Full Paths
------------------------------------------------------------

namespace ContractLinker

/- A full path ends with the name behind its last colon. -/
theorem fullContractPath_inj
    {file name file' name' : Text}
    (hName : ':'.toUInt8 ∉ name)
    (hName' : ':'.toUInt8 ∉ name')
    (hPath : fullContractPath file name = fullContractPath file' name') :
    file = file' ∧ name = name' := by
  have hCut :
      (fullContractPath file name).cutLast ':'.toUInt8 =
        some (file, name) :=
    Text.cutLast_eq_some_iff.mpr ⟨rfl, hName⟩
  have hCut' :
      (fullContractPath file name).cutLast ':'.toUInt8 =
        some (file', name') :=
    Text.cutLast_eq_some_iff.mpr ⟨hPath, hName'⟩
  rw [hCut] at hCut'
  cases hCut'
  exact ⟨rfl, rfl⟩

namespace Report

/- No contract has a colon in its name. -/
def NamesPlain (r : Report) : Prop :=
  ∀ file name c, r.contract? file name = some c →
    ':'.toUInt8 ∉ name

/- A full path is the one of a contract with an assembly. -/
def HasAssembly (r : Report) (path : Text) (a : Assembly) : Prop :=
  ∃ file name, r.assembly? file name = some a ∧
    path = fullContractPath file name

theorem NamesPlain.of_linked
    {r s : Report}
    (hNames : r.NamesPlain)
    (hLinked : LinkedReport r s) :
    s.NamesPlain := by
  intro file name c' hContract
  rcases hLinked.exists_contract hContract with ⟨c, hBefore⟩
  exact hNames file name c hBefore

/- A full path leads to one assembly at most. -/
theorem HasAssembly.unique
    {r : Report}
    (hNames : r.NamesPlain)
    {path : Text}
    {a b : Assembly}
    (hFirst : r.HasAssembly path a)
    (hSecond : r.HasAssembly path b) :
    a = b := by
  rcases hFirst with ⟨file, name, hAssembly, rfl⟩
  rcases hSecond with ⟨file', name', hAssembly', hPath⟩
  rcases Option.bind_eq_some_iff.mp hAssembly with ⟨c, hContract, -⟩
  rcases Option.bind_eq_some_iff.mp hAssembly' with
    ⟨c', hContract', -⟩
  rcases fullContractPath_inj (hNames file name c hContract)
      (hNames file' name' c' hContract') hPath with
    ⟨rfl, rfl⟩
  exact Option.some.inj (hAssembly.symm.trans hAssembly')

end Report

------------------------------------------------------------
-- Intact Contracts
------------------------------------------------------------

/-
  An instruction before and after linking, with the entries
  of its section. An operand which is written is the path of
  a contract of the project.
-/
inductive IntactInstruction (p : Project)
    (hashes : Dictionary Text) (entries : List (Text × DataEntry)) :
    Instruction → Instruction → Prop where
  | written {i : Instruction} {path : Text}
      (hRefers : RefersTo hashes entries i path)
      (hFound : (p.contract? path).isSome) :
      IntactInstruction p hashes entries i { i with value := some path }
  | kept {i : Instruction}
      (hNone : ∀ path, ¬ RefersTo hashes entries i path) :
      IntactInstruction p hashes entries i i

/-
  A contract of a project with its assembly before and after
  linking: no path dangles, and each path leads to a contract
  of the content it took the place of.
-/
structure IntactContract (r : Report) (p : Project)
    (a b : Assembly) (c : ProjectContract) : Prop where
  source : c.source = .evmla b
  paths : ∀ path, b.HasPath path → (p.contract? path).isSome
  operands : ∀ s,
    Option.Rel
      (List.Forall₂
        (IntactInstruction p r.collectHashes (a.entries s)))
      (a.listing s) (b.listing s)
  nested : ∀ s key n path,
    (key, DataEntry.nested n) ∈ a.entries s →
      (key, DataEntry.path path) ∈ b.entries s →
        ∃ origin, r.HasAssembly path origin ∧
          origin.contentHash = n.contentHash
  texts : ∀ s key text path,
    (key, DataEntry.hash text) ∈ a.entries s →
      (key, DataEntry.path path) ∈ b.entries s →
        ∃ origin, r.HasAssembly path origin ∧
          origin.contentHash = text
  dependencies : ∀ path,
    path ∈ c.factoryDependencies ↔ b.HasPath path

------------------------------------------------------------
-- Contracts Of A Project
------------------------------------------------------------

namespace Assembling

/- A project contract is made of a contract with an assembly. -/
def MadeOf (r : Report) (path : Text) (c : ProjectContract) : Prop :=
  ∃ file name contract b,
    r.contract? file name = some contract ∧
    contract.assembly = some b ∧
    path = fullContractPath file name ∧
    c = { path := path, source := .evmla b
          metadata := contract.passThroughMetadata }

theorem mem_evmlaContracts_iff
    {r : Report}
    (hOrdered : ContractTable.Ordered (r.contracts.getD []))
    {path : Text}
    {c : ProjectContract} :
    (path, c) ∈
        (ContractTable.toList (r.contracts.getD [])).filterMap
          (fun (path, contract) => evmlaContract path contract) ↔
      MadeOf r path c := by
  rw [ContractTable.toList_eq_map_places, List.filterMap_map,
    List.mem_filterMap]
  constructor
  · intro hEntry
    rcases hEntry with ⟨⟨⟨file, name⟩, contract⟩, hPlace, hMade⟩
    rcases Option.map_eq_some_iff.mp hMade with ⟨b, hAssembly, hEq⟩
    cases hEq
    exact ⟨file, name, contract, b,
      (ContractTable.mem_places_iff hOrdered).mp hPlace,
      hAssembly, rfl, rfl⟩
  · intro hMade
    rcases hMade with
      ⟨file, name, contract, b, hContract, hAssembly, rfl, rfl⟩
    exact ⟨((file, name), contract),
      (ContractTable.mem_places_iff hOrdered).mpr hContract,
      Option.map_eq_some_iff.mpr ⟨b, hAssembly, rfl⟩⟩

/- A project contract is found under the path of its contract. -/
theorem get?_evmlaContracts
    {r : Report}
    (hOrdered : ContractTable.Ordered (r.contracts.getD []))
    (hNames : r.NamesPlain)
    {path : Text}
    {c : ProjectContract} :
    (evmlaContracts (r.contracts.getD [])).get? path = some c ↔
      MadeOf r path c := by
  unfold evmlaContracts
  rw [Dictionary.get?_ofList_eq_some_iff,
    mem_evmlaContracts_iff hOrdered]
  intro key x y hFirst hSecond
  rcases (mem_evmlaContracts_iff hOrdered).mp hFirst with
    ⟨file, name, contract, b, hContract, hAssembly, hPath, rfl⟩
  rcases (mem_evmlaContracts_iff hOrdered).mp hSecond with
    ⟨file', name', contract', b', hContract', hAssembly', hPath', rfl⟩
  rcases fullContractPath_inj (hNames file name contract hContract)
      (hNames file' name' contract' hContract')
      (hPath.symm.trans hPath') with
    ⟨rfl, rfl⟩
  cases hContract.symm.trans hContract'
  cases hAssembly.symm.trans hAssembly'
  rfl

/- A project is made of the report after its resolution. -/
theorem evmla_eq_ok_iff
    {r : Report}
    {libraries : Libraries}
    {version : Version}
    {files : FileTree}
    {p : Project} :
    (evmla r libraries version files).project = .ok p ↔
      r.resolve.2 = none ∧ r.resolve.1.contracts.isSome ∧
        p = { version
              contracts :=
                evmlaContracts (r.resolve.1.contracts.getD [])
              libraries } := by
  unfold evmla
  rcases r.resolve with ⟨s, e | e⟩
  · dsimp only
    cases hContracts : s.contracts with
    | none =>
        simp
    | some table =>
        simp [eq_comm]
  · simp

end Assembling

------------------------------------------------------------
-- Integrity
------------------------------------------------------------

/- A content hash stands for a contract which has that hash. -/
theorem Report.exists_hasAssembly
    {r : Report}
    (hOrdered : ContractTable.Ordered (r.contracts.getD []))
    {hash path : Text}
    (hFound : r.collectHashes.get? hash = some path) :
    ∃ origin, r.HasAssembly path origin ∧
      origin.contentHash = hash := by
  rcases (get?_collectHashes hOrdered).mp hFound with
    ⟨file, name, ⟨⟨a, hAssembly, hHash⟩, -⟩, hPath⟩
  exact ⟨a, ⟨file, name, hAssembly, hPath⟩, hHash⟩

/- A linked assembly is intact if every known path is a key. -/
theorem intactContract_of_linked
    {r : Report}
    (hOrdered : ContractTable.Ordered (r.contracts.getD []))
    {p : Project}
    (hKeys : ∀ path a, r.HasAssembly path a →
      (p.contract? path).isSome)
    {owner : Text}
    {a b : Assembly}
    (hDistinct : a.ReferencesDistinct)
    (hLinked : LinkedAssembly owner r.collectHashes a b)
    {c : ProjectContract}
    (hSource : c.source = .evmla b) :
    IntactContract r p a b c := by
  have hKnown :
      ∀ hash path, r.collectHashes.get? hash = some path →
        (p.contract? path).isSome := by
    intro hash path hFound
    rcases Report.exists_hasAssembly hOrdered hFound with
      ⟨origin, hOrigin, -⟩
    exact hKeys path origin hOrigin
  constructor
  · exact hSource
  · intro path hPath
    rcases hLinked.exists_hash_of_hasPath hPath with ⟨hash, hFound⟩
    exact hKnown hash path hFound
  · intro s
    have hListing := hLinked.linkedListing s
    generalize a.listing s = before at hListing ⊢
    generalize b.listing s = after at hListing ⊢
    cases hListing with
    | none =>
        exact Option.Rel.none
    | some hCode =>
        apply Option.Rel.some
        apply hCode.imp
        intro i i' hInstruction
        cases hInstruction with
        | @replaced path hRefers =>
            apply IntactInstruction.written hRefers
            rcases hRefers with ⟨-, -, -, entry, -, -, -, hEntry⟩
            rcases hEntry.exists_hash with ⟨hash, hFound⟩
            exact hKnown hash path hFound
        | kept hNone =>
            exact IntactInstruction.kept hNone
  · intro s key n path hBefore hAfter
    cases hLinked.linkedEntry_of_mem hDistinct hBefore hAfter with
    | nested hFound => exact Report.exists_hasAssembly hOrdered hFound
  · intro s key text path hBefore hAfter
    cases hLinked.linkedEntry_of_mem hDistinct hBefore hAfter with
    | known hFound => exact Report.exists_hasAssembly hOrdered hFound
  · intro path
    unfold ProjectContract.factoryDependencies
    rw [hSource]
    exact hLinked.dependencies path

/-
  The keys of a project are the full paths of the contracts
  with an assembly.
-/
theorem isSome_contract?_iff
    {r s : Report}
    (hLinked : LinkedReport r s)
    {p : Project}
    {path : Text}
    (hFound : ∀ c, p.contract? path = some c ↔
      Assembling.MadeOf s path c) :
    (p.contract? path).isSome ↔ ∃ a, r.HasAssembly path a := by
  rw [Option.isSome_iff_exists]
  constructor
  · intro hSome
    rcases hSome with ⟨c, hContract⟩
    rcases (hFound c).mp hContract with
      ⟨file, name, contract, b, hAfter, hCode, hPath, -⟩
    rcases hLinked.exists_before
        (Option.bind_eq_some_iff.mpr ⟨contract, hAfter, hCode⟩) with
      ⟨a, hAssembly, -⟩
    exact ⟨a, file, name, hAssembly, hPath⟩
  · intro hSome
    rcases hSome with ⟨a, file, name, hAssembly, hPath⟩
    rcases hLinked.exists_after hAssembly with ⟨b, hAfter, -⟩
    rcases Option.bind_eq_some_iff.mp hAfter with
      ⟨contract, hContract, hCode⟩
    exact ⟨_, (hFound _).mpr
      ⟨file, name, contract, b, hContract, hCode, hPath, rfl⟩⟩

/-
  The contracts of a linked project are those with an
  assembly in the report, and all of them are intact.
-/
theorem integrity_of_assemble
    {j : Json}
    {r : Report}
    {libraries : Libraries}
    {version : Version}
    {directory : Option Text}
    {files : FileTree}
    {p : Project}
    (hOrdered : j.isOrdered = true)
    (hRead : Report.ofJson j = .ok r)
    (hNames : r.NamesPlain)
    (hDistinct : r.ReferencesDistinct)
    (hProject :
      (r.assemble .evmla libraries version directory files).project =
        .ok p) :
    (∀ path, (p.contract? path).isSome ↔ ∃ a, r.HasAssembly path a) ∧
      ∀ path c, p.contract? path = some c →
        ∃ a b, r.HasAssembly path a ∧
          (∀ a', r.HasAssembly path a' → a' = a) ∧
          c.path = path ∧
          LinkedAssembly path r.collectHashes a b ∧
          IntactContract r p a b c := by
  have hTable := (Report.ordered_of_ofJson hOrdered hRead).contracts
  rcases Assembling.evmla_eq_ok_iff.mp hProject with ⟨hNone, -, rfl⟩
  have hLinked :=
    Report.linkedReport_of_passes hTable
      (fun _ _ _ => Report.unlinked_of_ofJson hRead) hDistinct hNone
  generalize r.resolve.1 = s at hLinked ⊢
  generalize hEq : Project.mk version
    (Assembling.evmlaContracts (s.contracts.getD [])) libraries = p
  have hFound :
      ∀ path c,
        p.contract? path = some c ↔ Assembling.MadeOf s path c := by
    intro path c
    rw [← hEq]
    exact Assembling.get?_evmlaContracts
      (hLinked.ordered_contracts hTable) (hNames.of_linked hLinked)
  have hKeys :
      ∀ path, (p.contract? path).isSome ↔
        ∃ a, r.HasAssembly path a :=
    fun path => isSome_contract?_iff hLinked (hFound path)
  refine ⟨hKeys, ?_⟩
  intro path c hContract
  rcases (hFound path c).mp hContract with
    ⟨file, name, contract, b, hAfter, hCode, hPath, hMade⟩
  rcases hLinked.exists_before
      (Option.bind_eq_some_iff.mpr ⟨contract, hAfter, hCode⟩) with
    ⟨a, hAssembly, hRelated⟩
  have hOrigin : r.HasAssembly path a :=
    ⟨file, name, hAssembly, hPath⟩
  rw [← hPath] at hRelated
  refine ⟨a, b, hOrigin, ?_, ?_, hRelated, ?_⟩
  · intro a' hOther
    exact hOther.unique hNames hOrigin
  · rw [hMade]
  · apply intactContract_of_linked hTable _
      (hDistinct file name a hAssembly) hRelated
    · rw [hMade]
    · intro path' a' hOther
      exact (hKeys path').mpr ⟨a', hOther⟩

/- The project of the contract `A` and the contract it creates. -/
def creatorProject : Project where
  version := ⟨0, 8, 20, [], []⟩
  contracts :=
    Assembling.evmlaContracts
      (Report.creatorReport.resolve.1.contracts.getD [])
  libraries := []

theorem integrity_creatorProject :
    Report.creatorJson.isOrdered = true ∧
      Report.ofJson Report.creatorJson = .ok Report.creatorReport ∧
      Report.creatorReport.NamesPlain ∧
      Report.creatorReport.ReferencesDistinct ∧
      (Report.creatorReport.assemble .evmla [] ⟨0, 8, 20, [], []⟩
          none ⟨[], []⟩).project =
        .ok creatorProject ∧
      (creatorProject.contract? (ascii "a.sol:A")).isSome := by
  have hOrdered : Report.creatorJson.isOrdered = true := by
    decide +kernel
  have hNames : Report.creatorReport.NamesPlain := by
    intro file name c hContract
    rcases Option.bind_eq_some_iff.mp hContract with
      ⟨contracts, hFile, hName⟩
    cases List.mem_singleton.mp (Dictionary.mem_of_get? hFile)
    have hNamed := Dictionary.mem_of_get? hName
    rcases List.mem_cons.mp hNamed with hFirst | hRest
    · cases hFirst
      decide
    · cases List.mem_singleton.mp hRest
      decide
  have hProject :
      (Report.creatorReport.assemble .evmla [] ⟨0, 8, 20, [], []⟩
          none ⟨[], []⟩).project =
        .ok creatorProject := by
    unfold Report.assemble
    dsimp only
    rw [Assembling.evmla_eq_ok_iff]
    refine ⟨Report.resolve_creatorReport, ?_, ?_⟩
    · rw [Report.resolve_eq]
      rfl
    · unfold creatorProject
      rfl
  refine ⟨hOrdered, Report.ofJson_creatorJson, hNames,
    Report.referencesDistinct_creatorReport, hProject, ?_⟩
  have hIntegrity :=
    integrity_of_assemble hOrdered Report.ofJson_creatorJson hNames
      Report.referencesDistinct_creatorReport hProject
  have hAssembly :
      Report.creatorReport.assembly? (ascii "a.sol") (ascii "A") =
        some Report.creator := by
    rfl
  have hPath :
      ascii "a.sol:A" =
        fullContractPath (ascii "a.sol") (ascii "A") := by
    decide
  exact (hIntegrity.1 (ascii "a.sol:A")).mpr
    ⟨Report.creator, ascii "a.sol", ascii "A", hAssembly, hPath⟩

end ContractLinker
