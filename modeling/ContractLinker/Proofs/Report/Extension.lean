import ContractLinker.Proofs.Report.Resolution

/-
  Resolution of a report which has further contracts. A
  contract is linked by the content hashes which its own
  entries look up. As long as no added assembly has one of
  those, it makes no difference where in the order the added
  contracts stand and what they are called: the others are
  linked as before, and only an added contract can fail.

  Key definitions include:
    * `Report.Extends`
    * `Report.Added`
    * `Report.Unrelated`

  Main statements:
    * `Assembly.linked_congr`
    * `Report.get?_collectHashes_of_notAdded`
    * `Report.resolveContract_extension`
    * `Report.resolve_extension`
-/

------------------------------------------------------------
-- Linking With Two Tables
------------------------------------------------------------

namespace ContractLinker

namespace Assembly

variable {hashes hashes' : Dictionary Text}

/- Only the targets of the entries matter to a mapping. -/
theorem extend_congr
    {entries : List (Text × DataEntry)}
    (hSame : ∀ entry ∈ entries,
      entry.2.target? hashes = entry.2.target? hashes')
    (found : Dictionary Text) :
    extend hashes entries found = extend hashes' entries found := by
  induction entries generalizing found with
  | nil =>
      rfl
  | cons first entries ih =>
      have hFirst := hSame first List.mem_cons_self
      have hRest : ∀ entry ∈ entries,
          entry.2.target? hashes = entry.2.target? hashes' :=
        fun entry hMember =>
          hSame entry (List.mem_cons_of_mem first hMember)
      unfold extend at ih ⊢
      rw [List.foldl_cons, List.foldl_cons, hFirst]
      exact ih hRest _

/-
  Two tables which give the same targets to the entries of
  both sections link an assembly alike.
-/
theorem linked_congr
    {a : Assembly}
    (hSame : ∀ s, ∀ entry ∈ a.entries s,
      entry.2.target? hashes = entry.2.target? hashes')
    (owner : Text) :
    a.linked owner hashes = a.linked owner hashes' := by
  have hMapping : ∀ s, a.mapping hashes s = a.mapping hashes' s :=
    fun s => extend_congr (hSame s) []
  unfold linked
  rw [hMapping, hMapping]

end Assembly

------------------------------------------------------------
-- Added Contracts
------------------------------------------------------------

namespace Report

/- All contracts of a report are also in another one, unchanged. -/
def Extends (r r' : Report) : Prop :=
  ∀ file name c, r.contract? file name = some c →
    r'.contract? file name = some c

/- An assembly of a contract which only the other report has. -/
def Added (r r' : Report) (a : Assembly) : Prop :=
  ∃ file name, r.contract? file name = none ∧
    r'.assembly? file name = some a

/-
  The content hash of an added assembly is neither that of
  an assembly of the report nor a text in its data.
-/
structure Unrelated (r r' : Report) : Prop where
  assemblies : ∀ a, Added r r' a →
    ∀ file name b, r.assembly? file name = some b →
      a.contentHash ≠ b.contentHash
  texts : ∀ a, Added r r' a →
    ∀ file name b, r.assembly? file name = some b →
      ∀ s key text, (key, DataEntry.hash text) ∈ b.entries s →
        a.contentHash ≠ text

variable {r r' : Report}

theorem assembly?_of_extends
    (hExtends : r.Extends r')
    {file name : Text}
    {a : Assembly}
    (hAssembly : r.assembly? file name = some a) :
    r'.assembly? file name = some a := by
  rcases Option.bind_eq_some_iff.mp hAssembly with
    ⟨c, hContract, hCode⟩
  exact Option.bind_eq_some_iff.mpr
    ⟨c, hExtends file name c hContract, hCode⟩

/- An assembly of the larger report is an old one or an added one. -/
theorem assembly?_or_added
    (hExtends : r.Extends r')
    {file name : Text}
    {a : Assembly}
    (hAssembly : r'.assembly? file name = some a) :
    r.assembly? file name = some a ∨ Added r r' a := by
  cases hContract : r.contract? file name with
  | none =>
      exact Or.inr ⟨file, name, hContract, hAssembly⟩
  | some c =>
      rcases Option.bind_eq_some_iff.mp hAssembly with
        ⟨c', hContract', hCode⟩
      have hSame : c' = c := by
        rw [hExtends file name c hContract] at hContract'
        exact (Option.some.inj hContract').symm
      refine Or.inl (Option.bind_eq_some_iff.mpr ⟨c, hContract, ?_⟩)
      rw [← hSame]
      exact hCode

------------------------------------------------------------
-- Content Hashes
------------------------------------------------------------

/-
  For a hash which no added assembly has, the same contract
  is the last one, wherever the added contracts stand.
-/
theorem lastWithHash_iff_of_notAdded
    (hExtends : r.Extends r')
    {hash : Text}
    (hNotAdded : ∀ a, Added r r' a → a.contentHash ≠ hash)
    (file name : Text) :
    r'.LastWithHash hash file name ↔ r.LastWithHash hash file name := by
  have hOld : ∀ file name a,
      r'.assembly? file name = some a → a.contentHash = hash →
        r.assembly? file name = some a := by
    intro file name a hAssembly hHash
    rcases assembly?_or_added hExtends hAssembly with hOld | hAdded
    · exact hOld
    · exact absurd hHash (hNotAdded a hAdded)
  constructor
  · rintro ⟨⟨a, hAssembly, hHash⟩, hLast⟩
    refine ⟨⟨a, hOld file name a hAssembly hHash, hHash⟩, ?_⟩
    intro file' name' b hAssembly' hHash'
    exact hLast file' name' b
      (assembly?_of_extends hExtends hAssembly') hHash'
  · rintro ⟨⟨a, hAssembly, hHash⟩, hLast⟩
    refine ⟨⟨a, assembly?_of_extends hExtends hAssembly, hHash⟩, ?_⟩
    intro file' name' b hAssembly' hHash'
    exact hLast file' name' b
      (hOld file' name' b hAssembly' hHash') hHash'

/- The tables agree about every hash which no added assembly has. -/
theorem get?_collectHashes_of_notAdded
    (hOrdered : ContractTable.Ordered (r.contracts.getD []))
    (hOrdered' : ContractTable.Ordered (r'.contracts.getD []))
    (hExtends : r.Extends r')
    {hash : Text}
    (hNotAdded : ∀ a, Added r r' a → a.contentHash ≠ hash) :
    r'.collectHashes.get? hash = r.collectHashes.get? hash := by
  apply Option.ext
  intro path
  rw [get?_collectHashes hOrdered', get?_collectHashes hOrdered]
  simp only [lastWithHash_iff_of_notAdded hExtends hNotAdded]

------------------------------------------------------------
-- Resolution
------------------------------------------------------------

/- The tables agree about the entries of a contract that passes. -/
theorem get?_collectHashes_of_entry
    (hOrdered : ContractTable.Ordered (r.contracts.getD []))
    (hOrdered' : ContractTable.Ordered (r'.contracts.getD []))
    (hExtends : r.Extends r')
    (hUnrelated : r.Unrelated r')
    {file name : Text}
    {a : Assembly}
    (hAssembly : r.assembly? file name = some a)
    (hKnown : ¬ a.HasUnknown r.collectHashes)
    {s : Section}
    {key : Text}
    {entry : DataEntry}
    (hMember : (key, entry) ∈ a.entries s) :
    entry.target? r'.collectHashes = entry.target? r.collectHashes := by
  cases entry with
  | nested b =>
      -- A nested assembly is known, so a contract of the report has its hash.
      have hFound : r.collectHashes.get? b.contentHash ≠ none :=
        fun hUnknown => hKnown ⟨s, key, b, hMember, hUnknown⟩
      rcases exists_assembly_of_get?_collectHashes hOrdered hFound with
        ⟨file', name', c, hOther, hHash⟩
      apply get?_collectHashes_of_notAdded hOrdered hOrdered' hExtends
      intro d hAdded
      rw [← hHash]
      exact hUnrelated.assemblies d hAdded file' name' c hOther
  | hash text =>
      apply get?_collectHashes_of_notAdded hOrdered hOrdered' hExtends
      intro d hAdded
      exact hUnrelated.texts d hAdded file name a hAssembly
        s key text hMember
  | path text =>
      rfl

/- A contract that passes is resolved alike in the larger report. -/
theorem resolveContract_extension
    (hOrdered : ContractTable.Ordered (r.contracts.getD []))
    (hOrdered' : ContractTable.Ordered (r'.contracts.getD []))
    (hExtends : r.Extends r')
    (hUnrelated : r.Unrelated r')
    {file name : Text}
    {c : Contract}
    (hContract : r.contract? file name = some c)
    {path : Text}
    (hPasses : (resolveContract r.collectHashes path c).2 = none) :
    resolveContract r'.collectHashes path c =
      resolveContract r.collectHashes path c := by
  cases hCode : c.assembly with
  | none =>
      rw [resolveContract_of_none _ path hCode,
        resolveContract_of_none _ path hCode]
  | some a =>
      have hAssembly : r.assembly? file name = some a :=
        Option.bind_eq_some_iff.mpr ⟨c, hContract, hCode⟩
      have hKnown : ¬ a.HasUnknown r.collectHashes :=
        (resolveContract_eq_none_iff hCode).mp hPasses
      have hTargets : ∀ s, ∀ entry ∈ a.entries s,
          entry.2.target? r'.collectHashes =
            entry.2.target? r.collectHashes :=
        fun s entry hMember =>
          get?_collectHashes_of_entry hOrdered hOrdered' hExtends
            hUnrelated hAssembly hKnown hMember
      have hKnown' : ¬ a.HasUnknown r'.collectHashes := by
        rintro ⟨s, key, b, hMember, hUnknown⟩
        have hTarget := hTargets s _ hMember
        dsimp only [DataEntry.target?] at hTarget
        rw [hUnknown] at hTarget
        exact hKnown ⟨s, key, b, hMember, hTarget.symm⟩
      rw [resolveContract_of_some _ path hCode,
        resolveContract_of_some _ path hCode,
        Assembly.firstUnknown?_eq_none_iff.mpr hKnown,
        Assembly.firstUnknown?_eq_none_iff.mpr hKnown',
        Assembly.linked_congr hTargets path]

/-
  Contracts which are added to a report that resolves do not
  change how its own contracts are linked, and if the larger
  report fails, then at an added contract.
-/
theorem resolve_extension
    (hOrdered : ContractTable.Ordered (r.contracts.getD []))
    (hOrdered' : ContractTable.Ordered (r'.contracts.getD []))
    (hExtends : r.Extends r')
    (hUnrelated : r.Unrelated r')
    (hNone : r.resolve.2 = none) :
    (r'.resolve.2 = none →
        ∀ file name c, r.contract? file name = some c →
          ∃ linked,
            r.resolve.1.contract? file name = some linked ∧
            r'.resolve.1.contract? file name = some linked) ∧
      ∀ e, r'.resolve.2 = some e →
        ∃ file name c,
          r.contract? file name = none ∧
          r'.contract? file name = some c ∧
          e.path = fullContractPath file name ∧
          (resolveContract r'.collectHashes
            (fullContractPath file name) c).2 = some e := by
  rcases resolve_of_passes hOrdered hNone with ⟨hPasses, hResult⟩
  have hAlike : ∀ file name c, r.contract? file name = some c →
      resolveContract r'.collectHashes (fullContractPath file name) c =
        resolveContract r.collectHashes
          (fullContractPath file name) c :=
    fun file name c hContract =>
      resolveContract_extension hOrdered hOrdered' hExtends hUnrelated
        hContract (hPasses file name c hContract)
  constructor
  · intro hNone' file name c hContract
    have hResult' := (resolve_of_passes hOrdered' hNone').2
    refine ⟨(resolveContract r.collectHashes
      (fullContractPath file name) c).1, ?_, ?_⟩
    · rw [hResult, contract?_mapContracts, hContract, Option.map_some]
    · rw [hResult', contract?_mapContracts,
        hExtends file name c hContract, Option.map_some,
        hAlike file name c hContract]
  · intro e hError
    rcases resolve_of_fails hOrdered' hError with
      ⟨file, name, c, hContract', hFails, -, -⟩
    rcases resolveContract_eq_some hFails with
      ⟨-, a, unknown, -, -, hCause⟩
    refine ⟨file, name, c, ?_, hContract', ?_, hFails⟩
    · cases hContract : r.contract? file name with
      | none =>
          rfl
      | some d =>
          -- A contract of the smaller report would have passed.
          have hSame : d = c := by
            rw [hExtends file name d hContract] at hContract'
            exact Option.some.inj hContract'
          subst hSame
          rw [hAlike file name d hContract,
            hPasses file name d hContract] at hFails
          cases hFails
    · rw [hCause]

------------------------------------------------------------
-- Reports Of One File
------------------------------------------------------------

section OfAssemblies

variable {old new : Dictionary Assembly}

theorem extends_ofAssemblies
    (hOrdered : new.Ordered)
    (hOld : old.Sublist new) :
    (ofAssemblies old).Extends (ofAssemblies new) := by
  intro file name c hContract
  rw [contract?_ofAssemblies] at hContract ⊢
  split at hContract
  · next hFile =>
      obtain ⟨a, hFound, hCode⟩ := Option.map_eq_some_iff.mp hContract
      have hMember := hOld.subset (Dictionary.mem_of_get? hFound)
      rw [if_pos hFile, (Dictionary.get?_eq_some_iff hOrdered).mpr
        hMember, Option.map_some, hCode]
  · cases hContract

theorem added_ofAssemblies
    {a : Assembly}
    (hAdded : Added (ofAssemblies old) (ofAssemblies new) a) :
    ∃ name, Dictionary.get? name old = none ∧
      Dictionary.get? name new = some a := by
  obtain ⟨file, name, hNew, hAssembly⟩ := hAdded
  obtain ⟨rfl, hFound⟩ := assembly?_ofAssemblies_iff.mp hAssembly
  rw [contract?_ofAssemblies, if_pos rfl, Option.map_eq_none_iff]
    at hNew
  exact ⟨name, hNew, hFound⟩

theorem unrelated_ofAssemblies
    (hAssemblies : ∀ name a, Dictionary.get? name old = none →
      Dictionary.get? name new = some a →
        ∀ name' b, (name', b) ∈ old →
          a.contentHash ≠ b.contentHash ∧
          ∀ s key text, (key, DataEntry.hash text) ∈ b.entries s →
            a.contentHash ≠ text) :
    (ofAssemblies old).Unrelated (ofAssemblies new) where
  assemblies := by
    intro a hAdded file name b hAssembly
    obtain ⟨added, hNew, hFound⟩ := added_ofAssemblies hAdded
    have hOld := (assembly?_ofAssemblies_iff.mp hAssembly).2
    exact (hAssemblies added a hNew hFound name b
      (Dictionary.mem_of_get? hOld)).1
  texts := by
    intro a hAdded file name b hAssembly
    obtain ⟨added, hNew, hFound⟩ := added_ofAssemblies hAdded
    have hOld := (assembly?_ofAssemblies_iff.mp hAssembly).2
    exact (hAssemblies added a hNew hFound name b
      (Dictionary.mem_of_get? hOld)).2

end OfAssemblies

/- The contract `B` creates the contract `D` in both codes. -/
def planterReport : Report :=
  ofAssemblies [(ascii "B", planter), (ascii "D", leaf)]

/-
  Two more contracts, one in front of the others and one in
  between, of which the first creates the second.
-/
def neighbouredReport : Report :=
  ofAssemblies
    [ (ascii "A", creator), (ascii "B", planter),
      (ascii "C", emptyAssembly), (ascii "D", leaf) ]

/- One more contract in front, whose creation is missing. -/
def strayReport : Report :=
  ofAssemblies
    [ (ascii "A", creator), (ascii "B", planter),
      (ascii "D", leaf) ]

/- Both codes of the contract `B` have the same entries. -/
theorem mem_entries_planter
    {s : Section}
    {key : Text}
    {entry : DataEntry}
    (hMember : (key, entry) ∈ planter.entries s) :
    entry = .nested leaf ∨ entry = .hash (ascii "ab") := by
  have hEntries : planter.entries s = planted := by
    cases s with
    | deploy => rfl
    | runtime => rfl
  rw [hEntries] at hMember
  rcases List.mem_pair.mp hMember with hNested | hText
  · exact Or.inl (Prod.mk.inj hNested).2
  · exact Or.inr (Prod.mk.inj hText).2

/- What is created by one of the contracts is one of them. -/
theorem nested_of_mem_planterReport
    {name : Text}
    {a : Assembly}
    (hAssembly :
      (name, a) ∈ [(ascii "B", planter), (ascii "D", leaf)])
    {s : Section}
    {key : Text}
    {b : Assembly}
    (hMember : (key, DataEntry.nested b) ∈ a.entries s) :
    b = leaf := by
  rcases List.mem_pair.mp hAssembly with hPlanter | hLeaf
  · cases hPlanter
    rcases mem_entries_planter hMember with hNested | hText
    · exact DataEntry.nested.inj hNested
    · cases hText
  · cases hLeaf
    exact absurd hMember
      (Assembly.notMem_entries_of_data rfl s _)

theorem text_of_mem_planterReport
    {name : Text}
    {a : Assembly}
    (hAssembly :
      (name, a) ∈ [(ascii "B", planter), (ascii "D", leaf)])
    {s : Section}
    {key text : Text}
    (hMember : (key, DataEntry.hash text) ∈ a.entries s) :
    text = ascii "ab" := by
  rcases List.mem_pair.mp hAssembly with hPlanter | hLeaf
  · cases hPlanter
    rcases mem_entries_planter hMember with hNested | hText
    · cases hNested
    · exact DataEntry.hash.inj hText
  · cases hLeaf
    exact absurd hMember
      (Assembly.notMem_entries_of_data rfl s _)

theorem resolve_planterReport :
    planterReport.resolve.2 = none := by
  apply resolve_ofAssemblies
  · exact List.pairwise_pair.mpr (by decide)
  · intro name a hAssembly s key b hMember
    refine ⟨ascii "D", ?_⟩
    rw [nested_of_mem_planterReport hAssembly hMember]
    rfl

theorem resolve_neighbouredReport :
    neighbouredReport.resolve.2 = none := by
  apply resolve_ofAssemblies
  · decide
  · intro name a hAssembly s key b hMember
    simp only [List.mem_cons, List.not_mem_nil, or_false]
      at hAssembly
    rcases hAssembly with hA | hB | hC | hD
    · cases hA
      rw [nested_of_mem_creator hMember]
      exact ⟨ascii "C", rfl⟩
    · rw [nested_of_mem_planterReport (List.mem_pair.mpr (.inl hB))
        hMember]
      exact ⟨ascii "D", rfl⟩
    · cases hC
      exact absurd hMember
        (Assembly.notMem_entries_of_data rfl s _)
    · cases hD
      exact absurd hMember
        (Assembly.notMem_entries_of_data rfl s _)

/- What `A` creates has the content hash of no contract. -/
theorem resolve_strayReport :
    strayReport.resolve.2 ≠ none := by
  have hMember :
      (ascii "1", DataEntry.nested emptyAssembly) ∈
        creator.entries .deploy :=
    List.mem_singleton.mpr rfl
  have hCreator :
      Dictionary.get? (ascii "A")
          [ (ascii "A", creator), (ascii "B", planter),
            (ascii "D", leaf) ] =
        some creator := by
    rfl
  apply resolve_ofAssemblies_ne_none _ hCreator hMember
  · intro name c hAssembly
    have hNodup := nodup_contentHashes
    simp only [List.nodup_cons, List.mem_cons, not_or] at hNodup
    simp only [List.mem_cons, List.not_mem_nil, or_false]
      at hAssembly
    rcases hAssembly with hA | hB | hD
    · cases hA
      exact contentHash_creator_ne
    · cases hB
      exact Ne.symm hNodup.2.1.1
    · cases hD
      exact Ne.symm hNodup.2.1.2.1
  · decide

/- The contracts which are added have content hashes of their own. -/
theorem contentHash_ne_of_mem_planterReport
    {a : Assembly}
    (hAdded : a = creator ∨ a = emptyAssembly)
    {name : Text}
    {b : Assembly}
    (hAssembly :
      (name, b) ∈ [(ascii "B", planter), (ascii "D", leaf)]) :
    a.contentHash ≠ b.contentHash ∧
      ∀ s key text, (key, DataEntry.hash text) ∈ b.entries s →
        a.contentHash ≠ text := by
  have hNodup := nodup_contentHashes
  simp only [List.nodup_cons, List.mem_cons, not_or] at hNodup
  constructor
  · rcases List.mem_pair.mp hAssembly with hB | hD
    · cases hB
      rcases hAdded with rfl | rfl
      · exact hNodup.1.2.1
      · exact hNodup.2.1.1
    · cases hD
      rcases hAdded with rfl | rfl
      · exact hNodup.1.2.2.1
      · exact hNodup.2.1.2.1
  · intro s key text hMember
    rw [text_of_mem_planterReport hAssembly hMember]
    rcases hAdded with rfl | rfl
    · exact hNodup.1.2.2.2.1
    · exact hNodup.2.1.2.2.1

theorem unrelated_planterReport
    {new : Dictionary Assembly}
    (hNew : ∀ entry ∈ new,
      entry ∈ [(ascii "B", planter), (ascii "D", leaf)] ∨
        entry.2 = creator ∨ entry.2 = emptyAssembly) :
    planterReport.Unrelated (ofAssemblies new) := by
  apply unrelated_ofAssemblies
  intro name a hNone hFound name' b
  rcases hNew _ (Dictionary.mem_of_get? hFound) with hOld | hAdded
  · exact absurd hOld (Dictionary.get?_eq_none_iff.mp hNone a)
  · exact contentHash_ne_of_mem_planterReport hAdded

/-
  The contract `B` has entries of both kinds in both codes.
  It is linked as before among its neighbours, and it is not
  the one which fails if one of those lacks its creation.
-/
theorem resolve_extension_planterReport :
    planterReport.resolve.2 = none ∧
      (planterReport.Extends neighbouredReport ∧
        planterReport.Unrelated neighbouredReport ∧
        neighbouredReport.resolve.2 = none ∧
        ∃ linked,
          planterReport.resolve.1.contract?
              (ascii "a.sol") (ascii "B") =
            some linked ∧
          neighbouredReport.resolve.1.contract?
              (ascii "a.sol") (ascii "B") =
            some linked) ∧
      planterReport.Extends strayReport ∧
      planterReport.Unrelated strayReport ∧
      ∃ e, strayReport.resolve.2 = some e ∧
        ∃ file name c,
          planterReport.contract? file name = none ∧
          strayReport.contract? file name = some c ∧
          e.path = fullContractPath file name ∧
          (resolveContract strayReport.collectHashes
            (fullContractPath file name) c).2 = some e := by
  have hOrdered :
      ContractTable.Ordered (planterReport.contracts.getD []) :=
    ordered_ofAssemblies (List.pairwise_pair.mpr (by decide))
  have hNeighboured :
      ContractTable.Ordered (neighbouredReport.contracts.getD []) :=
    ordered_ofAssemblies (by decide)
  have hStray :
      ContractTable.Ordered (strayReport.contracts.getD []) :=
    ordered_ofAssemblies (by decide)
  have hExtends : planterReport.Extends neighbouredReport :=
    extends_ofAssemblies (by decide)
      (.cons _ (.cons_cons _ (.cons _ (.cons_cons _ .slnil))))
  have hExtends' : planterReport.Extends strayReport :=
    extends_ofAssemblies (by decide)
      (.cons _ (.cons_cons _ (.cons_cons _ .slnil)))
  have hUnrelated : planterReport.Unrelated neighbouredReport :=
    unrelated_planterReport (by simp)
  have hUnrelated' : planterReport.Unrelated strayReport :=
    unrelated_planterReport (by simp)
  have hContract :
      planterReport.contract? (ascii "a.sol") (ascii "B") =
        some (assembled planter) := by
    rfl
  refine ⟨resolve_planterReport,
    ⟨hExtends, hUnrelated, resolve_neighbouredReport, ?_⟩,
    hExtends', hUnrelated', ?_⟩
  · exact (resolve_extension hOrdered hNeighboured hExtends
      hUnrelated resolve_planterReport).1 resolve_neighbouredReport
      _ _ _ hContract
  · obtain ⟨e, hError⟩ :=
      Option.ne_none_iff_exists'.mp resolve_strayReport
    exact ⟨e, hError, (resolve_extension hOrdered hStray hExtends'
      hUnrelated' resolve_planterReport).2 e hError⟩

end Report

end ContractLinker
