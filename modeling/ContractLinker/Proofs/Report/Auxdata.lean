import ContractLinker.Proofs.Assembly.Auxdata
import ContractLinker.Proofs.Assembly.Flattening
import ContractLinker.Proofs.Report.Resolution

/-
  Resolution of a report and the auxiliary data in it. Two
  reports that differ in nothing else are resolved alike:
  both fail with the same error, or the results differ again
  in nothing but the auxiliary data that is left.

  Key definitions include:
    * `Contract.withoutAuxdata`
    * `Report.withoutAuxdata`

  Main statements:
    * `Report.mem_entries_of_resolve`
    * `Report.resolve_withoutAuxdata`
    * `Report.resolve_alike`
-/

------------------------------------------------------------
-- Reports Without Auxiliary Data
------------------------------------------------------------

namespace ContractLinker

namespace Contract

/- A contract whose assembly has no auxiliary data at any depth. -/
def withoutAuxdata (c : Contract) : Contract :=
  { c with
    evm := c.evm.map fun m =>
      { m with assembly := m.assembly.map Assembly.withoutAuxdata } }

theorem assembly_withoutAuxdata
    (c : Contract) :
    c.withoutAuxdata.assembly =
      c.assembly.map Assembly.withoutAuxdata := by
  unfold assembly withoutAuxdata
  cases c.evm with
  | none => rfl
  | some m => rfl

theorem setAssembly_withoutAuxdata
    (a : Assembly)
    (c : Contract) :
    c.withoutAuxdata.setAssembly a.withoutAuxdata =
      (c.setAssembly a).withoutAuxdata := by
  unfold setAssembly withoutAuxdata
  cases c.evm with
  | none => rfl
  | some m => rfl

end Contract

namespace Report

/- A report without auxiliary data in any assembly. -/
def withoutAuxdata (r : Report) : Report :=
  r.mapContracts fun _ _ c => c.withoutAuxdata

------------------------------------------------------------
-- Content Hashes
------------------------------------------------------------

/- The table of content hashes is that of the stripped report. -/
theorem collectHashes_withoutAuxdata
    (r : Report) :
    r.withoutAuxdata.collectHashes = r.collectHashes := by
  have hList :
      ContractTable.toList (r.withoutAuxdata.contracts.getD []) =
        (ContractTable.toList (r.contracts.getD [])).map
          fun entry => (entry.1, entry.2.withoutAuxdata) := by
    unfold withoutAuxdata mapContracts
    cases r.contracts with
    | none =>
        rfl
    | some table =>
        simp only [Option.map_some, Option.getD_some,
          ContractTable.mapContracts, ContractTable.toList,
          Dictionary.mapValues, List.flatMap_map, List.map_flatMap,
          List.map_map, Function.comp_def]
  unfold collectHashes
  simp only [hList, List.filterMap_map, Function.comp_def,
    Contract.assembly_withoutAuxdata, Option.map_map,
    Assembly.contentHash_withoutAuxdata]

/-
  A nested assembly stands for the path which the content
  hash of a contract stands for if it differs from the
  assembly of that contract in auxiliary data only.
-/
theorem exists_resolveEntry
    {r : Report}
    {path : Text}
    {c : Contract}
    (hContract :
      (path, c) ∈ ContractTable.toList (r.contracts.getD []))
    {a b : Assembly}
    (hAssembly : c.assembly = some a)
    (hSame : b.withoutAuxdata = a.withoutAuxdata) :
    ∃ known, r.collectHashes.get? a.contentHash = some known ∧
      (DataEntry.nested b).target? r.collectHashes = some known ∧
      ∀ owner,
        Assembly.resolveEntry owner r.collectHashes (.nested b) =
          .ok (some known) := by
  have hHash : b.contentHash = a.contentHash := by
    rw [← Assembly.contentHash_withoutAuxdata, hSame,
      Assembly.contentHash_withoutAuxdata]
  have hKnown := get?_collectHashes_of_mem hContract hAssembly
  rcases Option.ne_none_iff_exists'.mp hKnown with ⟨known, hKnown⟩
  refine ⟨known, hKnown, ?_, ?_⟩
  · rw [DataEntry.target?, hHash, hKnown]
  · intro owner
    rw [Assembly.resolveEntry, hHash, hKnown]

/- In a resolved report an entry has become its path. -/
theorem mem_entries_of_resolve
    {r : Report}
    (hOrdered : ContractTable.Ordered (r.contracts.getD []))
    (hNone : r.resolve.2 = none)
    {file name : Text}
    {a : Assembly}
    (hAssembly : r.assembly? file name = some a)
    (hDistinct : a.ReferencesDistinct)
    {s : Section}
    {key path : Text}
    {entry : DataEntry}
    (hMember : (key, entry) ∈ a.entries s)
    (hTarget : entry.target? r.collectHashes = some path) :
    ∃ linked,
      r.resolve.1.assembly? file name = some linked ∧
      (key, DataEntry.path path) ∈ linked.entries s := by
  obtain ⟨hPasses, hResult⟩ := resolve_of_passes hOrdered hNone
  obtain ⟨c, hContract, hCode⟩ :=
    Option.bind_eq_some_iff.mp hAssembly
  have hKnown :=
    Assembly.firstUnknown?_eq_none_iff.mpr
      ((resolveContract_eq_none_iff hCode).mp
        (hPasses file name c hContract))
  have hAfter :
      r.resolve.1.contract? file name =
        some
          (c.setAssembly
            (a.linked (fullContractPath file name)
              r.collectHashes)) := by
    rw [hResult, contract?_mapContracts, hContract, Option.map_some,
      resolveContract_of_some _ _ hCode, hKnown]
  refine ⟨_, Option.bind_eq_some_iff.mpr
    ⟨_, hAfter, Contract.assembly_setAssembly hCode _⟩, ?_⟩
  exact Assembly.mem_entries_linked hDistinct hMember hTarget _

------------------------------------------------------------
-- Resolution
------------------------------------------------------------

theorem resolveContract_withoutAuxdata
    (hashes : Dictionary Text)
    (path : Text)
    (c : Contract) :
    resolveContract hashes path c.withoutAuxdata =
      ((resolveContract hashes path c).1.withoutAuxdata,
        (resolveContract hashes path c).2) := by
  unfold resolveContract
  rw [Contract.assembly_withoutAuxdata]
  cases c.assembly with
  | none =>
      rfl
  | some a =>
      dsimp only [Option.map_some]
      rw [Assembly.resolve_withoutAuxdata]
      cases a.resolve path hashes with
      | error e =>
          rfl
      | ok linked =>
          dsimp only [Except.map]
          rw [Contract.setAssembly_withoutAuxdata]

theorem resolutionStep_withoutAuxdata
    (hashes : Dictionary Text)
    (path : Text)
    (c : Contract)
    (s : Unit) :
    resolutionStep hashes path c.withoutAuxdata s =
      ((resolutionStep hashes path c s).1.withoutAuxdata,
        (resolutionStep hashes path c s).2) := by
  unfold resolutionStep
  rw [resolveContract_withoutAuxdata]

/-
  Auxiliary data may be dropped before a report is resolved
  or afterwards, and the error is the same.
-/
theorem resolve_withoutAuxdata
    (r : Report) :
    r.withoutAuxdata.resolve =
      (r.resolve.1.withoutAuxdata, r.resolve.2) := by
  rw [resolve_eq, resolve_eq, collectHashes_withoutAuxdata]
  unfold withoutAuxdata mapContracts
  cases r.contracts with
  | none => rfl
  | some table =>
      have hLoop :=
        ContractTable.advance_mapContracts
          (resolutionStep_withoutAuxdata r.collectHashes) table ()
      dsimp only [Option.map_some, Option.getD_some]
      rw [hLoop]

/-
  Reports which differ in auxiliary data only are resolved
  alike, and a contract is found by an assembly that differs
  from its own in auxiliary data only: where such an assembly
  was nested, the resolved report has the path.
-/
theorem resolve_alike
    {r r' : Report}
    (hSame : r.withoutAuxdata = r'.withoutAuxdata) :
    r.resolve.2 = r'.resolve.2 ∧
      r.resolve.1.withoutAuxdata = r'.resolve.1.withoutAuxdata ∧
      r.collectHashes = r'.collectHashes ∧
      ∀ path c a b,
        (path, c) ∈ ContractTable.toList (r.contracts.getD []) →
          c.assembly = some a →
            b.withoutAuxdata = a.withoutAuxdata →
              ∃ known,
                r.collectHashes.get? a.contentHash = some known ∧
                (∀ owner,
                  Assembly.resolveEntry owner r.collectHashes
                      (.nested b) =
                    .ok (some known)) ∧
                (ContractTable.Ordered (r.contracts.getD []) →
                  r.resolve.2 = none →
                    ∀ file name embedding s key,
                      r.assembly? file name = some embedding →
                        embedding.ReferencesDistinct →
                        (key, .nested b) ∈ embedding.entries s →
                          ∃ linked,
                            r.resolve.1.assembly? file name =
                              some linked ∧
                            (key, .path known) ∈
                              linked.entries s) := by
  have hResolve :
      (r.resolve.1.withoutAuxdata, r.resolve.2) =
        (r'.resolve.1.withoutAuxdata, r'.resolve.2) := by
    rw [← resolve_withoutAuxdata, hSame, resolve_withoutAuxdata]
  rcases Prod.mk.inj hResolve with ⟨hReport, hFailure⟩
  refine ⟨hFailure, hReport, ?_, ?_⟩
  · rw [← collectHashes_withoutAuxdata, hSame,
      collectHashes_withoutAuxdata]
  · intro path c a b hContract hAssembly hTrailer
    obtain ⟨known, hKnown, hTarget, hEntry⟩ :=
      exists_resolveEntry hContract hAssembly hTrailer
    refine ⟨known, hKnown, hEntry, ?_⟩
    intro hOrdered hNone file name embedding s key hEmbedding
      hDistinct hMember
    exact mem_entries_of_resolve hOrdered hNone hEmbedding hDistinct
      hMember hTarget

/- The empty assembly with a trailer. -/
def trailed (trailer : Text) : Assembly :=
  { emptyAssembly with auxdata := some trailer }

theorem withoutAuxdata_trailed
    (trailer : Text) :
    (trailed trailer).withoutAuxdata = emptyAssembly := by
  rfl

/- A creation of the empty assembly with trailers of their own. -/
def trailedCreator : Assembly :=
  { creator with
    data := some [(ascii "1", .nested (trailed (ascii "a264")))]
    auxdata := some (ascii "a265") }

/- The creation of `A` has another trailer than `B` on its own. -/
def trailedReport : Report :=
  ofAssemblies
    [ (ascii "A", trailedCreator),
      (ascii "B", trailed (ascii "a266")) ]

theorem ordered_trailedReport :
    ContractTable.Ordered (trailedReport.contracts.getD []) := by
  refine ⟨List.pairwise_singleton _ _, ?_⟩
  intro file contracts hFile
  cases List.mem_singleton.mp hFile
  exact List.pairwise_pair.mpr (by decide)

/- The trailer of the creation is not there any more. -/
theorem resolve_trailedReport :
    trailedReport.withoutAuxdata = creatorReport.withoutAuxdata ∧
      trailedReport.resolve.2 = none ∧
      trailedReport.resolve.1.withoutAuxdata =
        creatorReport.resolve.1.withoutAuxdata ∧
      ∃ known,
        (∀ owner,
          Assembly.resolveEntry owner trailedReport.collectHashes
              (.nested (trailed (ascii "a264"))) =
            .ok (some known)) ∧
        ∃ linked,
          trailedReport.resolve.1.assembly?
              (ascii "a.sol") (ascii "A") =
            some linked ∧
          (ascii "1", .path known) ∈ linked.entries .deploy := by
  have hSame :
      trailedReport.withoutAuxdata = creatorReport.withoutAuxdata := by
    rfl
  rcases resolve_alike hSame with ⟨hFailure, hReport, -, hKnown⟩
  have hContract :
      ∃ c, (fullContractPath (ascii "a.sol") (ascii "B"), c) ∈
          ContractTable.toList (trailedReport.contracts.getD []) ∧
        c.assembly = some (trailed (ascii "a266")) :=
    ⟨_, List.mem_cons_of_mem _ List.mem_cons_self, rfl⟩
  rcases hContract with ⟨c, hMember, hAssembly⟩
  have hTrailer :
      (trailed (ascii "a264")).withoutAuxdata =
        (trailed (ascii "a266")).withoutAuxdata := by
    rw [withoutAuxdata_trailed, withoutAuxdata_trailed]
  have hNone : trailedReport.resolve.2 = none :=
    hFailure.trans resolve_creatorReport
  have hEmbedding :
      trailedReport.assembly? (ascii "a.sol") (ascii "A") =
        some trailedCreator := by
    rfl
  have hDistinct : trailedCreator.ReferencesDistinct := by
    decide +kernel
  have hEntry :
      (ascii "1", .nested (trailed (ascii "a264"))) ∈
        trailedCreator.entries .deploy :=
    List.mem_singleton.mpr rfl
  rcases hKnown _ c _ _ hMember hAssembly hTrailer with
    ⟨known, -, hResolved, hPath⟩
  exact ⟨hSame, hNone, hReport, known, hResolved,
    hPath ordered_trailedReport hNone _ _ _ _ _ hEmbedding
      hDistinct hEntry⟩

end Report

end ContractLinker
