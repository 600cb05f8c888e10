import ContractLinker.Proofs.Assembly.Relinking
import ContractLinker.Proofs.Report.Resolution

/-
  Resolving a second time. Resolution leaves no nested
  assembly but the runtime codes, so that a second one meets
  none which is unknown. It has no effect either, as long as
  the paths that are put in cannot be taken for references.

  Main statements:
    * `Report.flat_of_resolve`
    * `Report.resolve_fst_resolve`
    * `Report.resolve_again`
-/

------------------------------------------------------------
-- Reports Resolved Before
------------------------------------------------------------

namespace ContractLinker

/- Every contract path has the colon between its two parts. -/
theorem qualified_fullContractPath
    (file name : Text) :
    Qualified (fullContractPath file name) := by
  exact List.mem_append_right file List.mem_cons_self

namespace Report

variable {r : Report}

/- An assembly of a resolved report is a linked one. -/
theorem exists_linked_of_resolve
    (hOrdered : ContractTable.Ordered (r.contracts.getD []))
    (hNone : r.resolve.2 = none)
    {file name : Text}
    {b : Assembly}
    (hAfter : r.resolve.1.assembly? file name = some b) :
    ∃ a, r.assembly? file name = some a ∧
      Assembly.firstUnknown? r.collectHashes
        (a.entries .deploy ++ a.entries .runtime) = none ∧
      b = a.linked (fullContractPath file name) r.collectHashes := by
  rcases resolve_of_passes hOrdered hNone with ⟨hPasses, hResult⟩
  rcases Option.bind_eq_some_iff.mp hAfter with
    ⟨c', hContract', hCode'⟩
  rw [hResult, contract?_mapContracts] at hContract'
  rcases Option.map_eq_some_iff.mp hContract' with
    ⟨c, hContract, rfl⟩
  have hPass := hPasses file name c hContract
  cases hCode : c.assembly with
  | none =>
      rw [resolveContract_of_none _ _ hCode, hCode] at hCode'
      cases hCode'
  | some a =>
      have hKnown :=
        Assembly.firstUnknown?_eq_none_iff.mpr
          ((resolveContract_eq_none_iff hCode).mp hPass)
      refine ⟨a, Option.bind_eq_some_iff.mpr ⟨c, hContract, hCode⟩,
        hKnown, ?_⟩
      rw [resolveContract_of_some _ _ hCode, hKnown] at hCode'
      dsimp only at hCode'
      rw [Contract.assembly_setAssembly hCode] at hCode'
      exact (Option.some.inj hCode').symm

theorem flat_of_resolve
    (hOrdered : r.Ordered)
    (hNone : r.resolve.2 = none)
    {file name : Text}
    {b : Assembly}
    (hAfter : r.resolve.1.assembly? file name = some b) :
    b.Flat := by
  rcases exists_linked_of_resolve hOrdered.contracts hNone hAfter with
    ⟨a, hBefore, hKnown, rfl⟩
  rcases hOrdered.assemblies file name a hBefore with ⟨hData, -⟩
  exact Assembly.flat_linked hData.nodup hKnown

/- A second resolution meets no nested assembly. -/
theorem resolve_fst_resolve
    (hOrdered : ContractTable.Ordered (r.contracts.getD []))
    (hNone : r.resolve.2 = none) :
    r.resolve.1.resolve.2 = none := by
  have hAfter :
      ContractTable.Ordered (r.resolve.1.contracts.getD []) := by
    rw [(resolve_of_passes hOrdered hNone).2]
    exact ordered_mapContracts hOrdered _
  rw [resolve_eq_none_iff hAfter]
  intro file name b hAssembly
  rcases exists_linked_of_resolve hOrdered hNone hAssembly with
    ⟨a, -, hKnown, rfl⟩
  exact Assembly.firstUnknown?_eq_none_iff.mp
    (Assembly.firstUnknown?_entries_linked hKnown _)

/-
  After a resolution which succeeds, the assemblies are flat
  and a second resolution succeeds. It changes nothing in an
  assembly whose keys are numerals, if no path is one.
-/
theorem resolve_again :
    (∀ r : Report, r.Ordered → r.resolve.2 = none →
        (∀ file name b,
          r.resolve.1.assembly? file name = some b → b.Flat) ∧
          r.resolve.1.resolve.2 = none) ∧
      (∀ file name, Qualified (fullContractPath file name)) ∧
      ∀ owner hashes (a b : Assembly),
        a.SetsOrdered → a.PathsApart hashes →
          a.resolve owner hashes = .ok b →
            b.resolve owner hashes = .ok b := by
  refine ⟨?_, qualified_fullContractPath, ?_⟩
  · intro r hOrdered hNone
    constructor
    · intro file name b hAfter
      exact flat_of_resolve hOrdered hNone hAfter
    · exact resolve_fst_resolve hOrdered.contracts hNone
  · intro owner hashes a b hSets hPaths hResolve
    exact Assembly.resolve_resolve hSets hPaths hResolve

/-
  An assembly both codes of which create the contract with a
  certain hash, under keys which are spelled differently.
-/
def doubleCreator : Assembly where
  fullPath := none
  code := creator.code
  data :=
    some
      [ (Assembly.runtimeKey,
          .nested
            { fullPath := none
              code := creator.code
              data := some [(ascii "01", .hash (ascii "aa"))]
              auxdata := none
              factoryDependencies := [] }),
        (ascii "01", .hash (ascii "bb")),
        (ascii "1", .hash (ascii "aa")) ]
  auxdata := none
  factoryDependencies := []

theorem pathsApart_doubleCreator :
    doubleCreator.PathsApart Assembly.shadowingHashes := by
  constructor
  · intro s
    cases s with
    | deploy => decide +kernel
    | runtime => decide +kernel
  · decide +kernel
  · intro s key path hMember
    cases s with
    | deploy =>
        simp [doubleCreator, Assembly.entries] at hMember
    | runtime =>
        cases List.mem_singleton.mp hMember

theorem setsOrdered_doubleCreator :
    doubleCreator.SetsOrdered := by
  constructor
  · exact List.Pairwise.nil
  · intro r hRuntime
    cases hRuntime
    exact List.Pairwise.nil

theorem resolve_again_creatorReport :
    creatorReport.Ordered ∧
      creatorReport.resolve.2 = none ∧
      (∀ file name b,
        creatorReport.resolve.1.assembly? file name = some b →
          b.Flat) ∧
      creatorReport.resolve.1.resolve.2 = none ∧
      doubleCreator.SetsOrdered ∧
      doubleCreator.PathsApart Assembly.shadowingHashes ∧
      ∃ b, doubleCreator.resolve (ascii "a.sol:A")
            Assembly.shadowingHashes = .ok b ∧
        b.resolve (ascii "a.sol:A") Assembly.shadowingHashes =
          .ok b := by
  rcases resolve_again.1 creatorReport ordered_creatorReport
      resolve_creatorReport with
    ⟨hFlat, hAgain⟩
  refine ⟨ordered_creatorReport, resolve_creatorReport, hFlat, hAgain,
    setsOrdered_doubleCreator, pathsApart_doubleCreator, _, rfl, ?_⟩
  exact resolve_again.2.2 _ _ _ _ setsOrdered_doubleCreator
    pathsApart_doubleCreator rfl

/-
  An assembly with two paths which are keys themselves, each
  that of the other.
-/
def swapping : Assembly where
  fullPath := none
  code := creator.code
  data :=
    some
      [(ascii "1", .path (ascii "2")), (ascii "2", .path (ascii "1"))]
  auxdata := none
  factoryDependencies := []

/- Numerals for keys and qualified paths in the table are not enough. -/
theorem not_forall_resolve_again :
    ¬ ∀ owner hashes (a b : Assembly),
        a.SetsOrdered →
          (∀ s, ∀ entry ∈ a.entries s,
            Hex.isNumeral entry.1 = true) →
          (∀ entry ∈ hashes, Qualified entry.2) →
            a.resolve owner hashes = .ok b →
              b.resolve owner hashes = .ok b := by
  intro hAll
  have hSets : swapping.SetsOrdered := by
    constructor
    · exact List.Pairwise.nil
    · intro r hRuntime
      cases hRuntime
  have hKeys : ∀ s, ∀ entry ∈ swapping.entries s,
      Hex.isNumeral entry.1 = true := by
    intro s
    cases s with
    | deploy => decide +kernel
    | runtime => decide +kernel
  have hAgain :=
    hAll (ascii "a.sol:A") Assembly.shadowingHashes swapping _ hSets
      hKeys (by decide +kernel) rfl
  -- The operand was "2" after the first time, and is "1" again.
  have hCode := congrArg Assembly.code (Except.ok.inj hAgain)
  revert hCode
  decide +kernel

end Report

end ContractLinker
