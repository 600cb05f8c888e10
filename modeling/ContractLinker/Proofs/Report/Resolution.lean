import ContractLinker.Proofs.Report.Decoding

/-
  Resolution of a whole report. The table of content hashes
  is the one of the report before it is changed. Either all
  assemblies are linked with that table, or resolution stops
  at the first contract which holds an unknown assembly and
  leaves that contract and those behind it alone.

  Key definitions include:
    * `Report.ReferencesDistinct`
    * `LinkedReport`
    * `Assembly.FirstUnknown`
    * `FailedReport`

  Main statements:
    * `Report.linkedReport_of_resolve`
    * `Report.resolve_fails_iff`
-/

------------------------------------------------------------
-- Reports Before And After
------------------------------------------------------------

namespace ContractLinker

namespace Report

/- The keys of every section stay different when they are padded. -/
def ReferencesDistinct (r : Report) : Prop :=
  ∀ file name a, r.assembly? file name = some a →
    a.ReferencesDistinct

/- Change the contracts that there are, and nothing else. -/
def mapContracts (f : Text → Text → Contract → Contract)
    (r : Report) : Report :=
  { r with contracts := r.contracts.map (ContractTable.mapContracts f) }

end Report

/- A contract before and after linking. -/
inductive LinkedContract (owner : Text)
    (hashes : Dictionary Text) : Contract → Contract → Prop where
  | linked {c : Contract} {a b : Assembly}
      (hAssembly : c.assembly = some a)
      (hLinked : LinkedAssembly owner hashes a b) :
      LinkedContract owner hashes c (c.setAssembly b)
  | kept {c : Contract}
      (hNone : c.assembly = none) :
      LinkedContract owner hashes c c

/- A report before and after linking all its contracts. -/
def LinkedReport (r s : Report) : Prop :=
  ∃ change, s = r.mapContracts change ∧
    ∀ file name c, r.contract? file name = some c →
      LinkedContract (fullContractPath file name)
        r.collectHashes c (change file name c)

/- A nested assembly in one of the sections is not known. -/
def Assembly.HasUnknown (hashes : Dictionary Text)
    (a : Assembly) : Prop :=
  ∃ s key b, (key, DataEntry.nested b) ∈ a.entries s ∧
    hashes.get? b.contentHash = none

/-
  The first nested assembly which is not known, those of the
  deploy section coming before those of the runtime section.
-/
structure Assembly.FirstUnknown (hashes : Dictionary Text)
    (a : Assembly) (s : Section) (key : Text) (b : Assembly) :
    Prop where
  member : (key, DataEntry.nested b) ∈ a.entries s
  unknown : hashes.get? b.contentHash = none
  first : ∀ s' key' b',
    (key', DataEntry.nested b') ∈ a.entries s' →
      hashes.get? b'.contentHash = none →
        (s = .deploy ∧ s' = .runtime) ∨
          (s = s' ∧ (key = key' ∨ key < key'))

/-
  A report before and after a resolution that failed at some
  contract, the first one with an unknown nested assembly.
  The contracts in front of it are resolved.
-/
structure FailedReport (r s : Report)
    (e : UnresolvedDependency) (file name : Text) : Prop where
  cause : ∃ a sec key b, r.assembly? file name = some a ∧
    a.FirstUnknown r.collectHashes sec key b ∧
    e = ⟨b.contentHash, fullContractPath file name⟩
  first : ∀ file' name' a,
    r.assembly? file' name' = some a →
      a.HasUnknown r.collectHashes →
        ¬ ContractTable.Before file' name' file name
  passed : ∀ file' name' c,
    r.contract? file' name' = some c →
      ContractTable.Before file' name' file name →
        (Report.resolveContract r.collectHashes
          (fullContractPath file' name') c).2 = none
  result :
    s = r.mapContracts fun file' name' c =>
      if ContractTable.Before file' name' file name then
        (Report.resolveContract r.collectHashes
          (fullContractPath file' name') c).1
      else
        c

------------------------------------------------------------
-- Linked Reports
------------------------------------------------------------

theorem Report.contract?_mapContracts
    (f : Text → Text → Contract → Contract)
    (r : Report)
    (file name : Text) :
    (r.mapContracts f).contract? file name =
      (r.contract? file name).map (f file name) := by
  unfold mapContracts contract?
  cases r.contracts with
  | none => rfl
  | some table =>
      exact ContractTable.contract?_mapContracts f table file name

theorem Report.ordered_mapContracts
    {r : Report}
    (hOrdered : ContractTable.Ordered (r.contracts.getD []))
    (f : Text → Text → Contract → Contract) :
    ContractTable.Ordered ((r.mapContracts f).contracts.getD []) := by
  unfold mapContracts
  cases hContracts : r.contracts with
  | none =>
      rw [hContracts] at hOrdered
      exact hOrdered
  | some table =>
      rw [hContracts] at hOrdered
      exact ContractTable.ordered_mapContracts hOrdered f

/- An assembly which is put in place of another is found there. -/
theorem Contract.assembly_setAssembly
    {c : Contract}
    {a : Assembly}
    (hAssembly : c.assembly = some a)
    (b : Assembly) :
    (c.setAssembly b).assembly = some b := by
  rcases Option.bind_eq_some_iff.mp hAssembly with ⟨m, hMachine, -⟩
  unfold setAssembly assembly
  rw [hMachine]
  rfl

namespace LinkedReport

variable {r s : Report} {file name : Text}

theorem ordered_contracts
    (hLinked : LinkedReport r s)
    (hOrdered : ContractTable.Ordered (r.contracts.getD [])) :
    ContractTable.Ordered (s.contracts.getD []) := by
  rcases hLinked with ⟨change, rfl, -⟩
  exact Report.ordered_mapContracts hOrdered change

/- No contract is new. -/
theorem exists_contract
    (hLinked : LinkedReport r s)
    {c' : Contract}
    (hContract : s.contract? file name = some c') :
    ∃ c, r.contract? file name = some c := by
  rcases hLinked with ⟨change, rfl, -⟩
  rw [Report.contract?_mapContracts] at hContract
  rcases Option.map_eq_some_iff.mp hContract with ⟨c, hBefore, -⟩
  exact ⟨c, hBefore⟩

/- Every assembly is found again, linked. -/
theorem exists_after
    (hLinked : LinkedReport r s)
    {a : Assembly}
    (hBefore : r.assembly? file name = some a) :
    ∃ b, s.assembly? file name = some b ∧
      LinkedAssembly (fullContractPath file name)
        r.collectHashes a b := by
  rcases hLinked with ⟨change, rfl, hChange⟩
  rcases Option.bind_eq_some_iff.mp hBefore with
    ⟨c, hContract, hCode⟩
  have hFound :
      (r.mapContracts change).contract? file name =
        some (change file name c) := by
    rw [Report.contract?_mapContracts, hContract]
    rfl
  have hAfter := hChange file name c hContract
  generalize change file name c = c' at hFound hAfter
  cases hAfter with
  | @linked a' b hAssembly hLinked =>
      cases hAssembly.symm.trans hCode
      refine ⟨b, ?_, hLinked⟩
      exact Option.bind_eq_some_iff.mpr
        ⟨_, hFound, Contract.assembly_setAssembly hCode b⟩
  | kept hNone =>
      cases hNone.symm.trans hCode

/- Every linked assembly was there before. -/
theorem exists_before
    (hLinked : LinkedReport r s)
    {b : Assembly}
    (hAfter : s.assembly? file name = some b) :
    ∃ a, r.assembly? file name = some a ∧
      LinkedAssembly (fullContractPath file name)
        r.collectHashes a b := by
  have hBefore : ∃ a, r.assembly? file name = some a := by
    rcases hLinked with ⟨change, rfl, hChange⟩
    rcases Option.bind_eq_some_iff.mp hAfter with
      ⟨c', hContract', hCode'⟩
    rw [Report.contract?_mapContracts] at hContract'
    rcases Option.map_eq_some_iff.mp hContract' with
      ⟨c, hContract, hEq⟩
    have hRelated := hChange file name c hContract
    rw [hEq] at hRelated
    cases hRelated with
    | @linked a _ hAssembly _ =>
        exact ⟨a, Option.bind_eq_some_iff.mpr
          ⟨c, hContract, hAssembly⟩⟩
    | kept hNone =>
        cases hNone.symm.trans hCode'
  rcases hBefore with ⟨a, hAssembly⟩
  rcases hLinked.exists_after hAssembly with ⟨b', hFound, hRelated⟩
  cases hFound.symm.trans hAfter
  exact ⟨a, hAssembly, hRelated⟩

end LinkedReport

------------------------------------------------------------
-- One Contract
------------------------------------------------------------

namespace Assembly

theorem firstUnknown?_eq_none_iff
    {hashes : Dictionary Text}
    {a : Assembly} :
    firstUnknown? hashes (a.entries .deploy ++ a.entries .runtime) =
        none ↔
      ¬ a.HasUnknown hashes := by
  unfold firstUnknown?
  rw [List.findSome?_eq_none_iff]
  constructor
  · intro hAll hExists
    rcases hExists with ⟨s, key, b, hMember, hUnknown⟩
    have hEntry :
        (key, DataEntry.nested b) ∈
          a.entries .deploy ++ a.entries .runtime := by
      cases s with
      | deploy => exact List.mem_append_left _ hMember
      | runtime => exact List.mem_append_right _ hMember
    exact DataEntry.unknown?_ne_none hUnknown (hAll _ hEntry)
  · intro hKnown entry hEntry
    cases hFound : entry.2.unknown? hashes with
    | none =>
        rfl
    | some unknown =>
        rcases DataEntry.unknown?_eq_some_iff.mp hFound with
          ⟨b, hNested, rfl, hUnknown⟩
        have hMember : (entry.1, DataEntry.nested b) = entry := by
          rw [← hNested]
        rw [← hMember] at hEntry
        rcases List.mem_append.mp hEntry with hDeploy | hRuntime
        · exact absurd ⟨.deploy, _, b, hDeploy, hUnknown⟩ hKnown
        · exact absurd ⟨.runtime, _, b, hRuntime, hUnknown⟩ hKnown

/- A search through entries in order finds the least key. -/
theorem exists_least_of_firstUnknown?
    {hashes : Dictionary Text}
    {entries : List (Text × DataEntry)}
    (hOrdered : Dictionary.Ordered entries)
    {unknown : Text}
    (hFound : firstUnknown? hashes entries = some unknown) :
    ∃ key b, (key, DataEntry.nested b) ∈ entries ∧
      b.contentHash = unknown ∧
      hashes.get? unknown = none ∧
      ∀ key' b', (key', DataEntry.nested b') ∈ entries →
        hashes.get? b'.contentHash = none →
          key = key' ∨ key < key' := by
  induction entries with
  | nil =>
      cases hFound
  | cons first entries ih =>
      rcases first with ⟨k, entry⟩
      rw [Dictionary.ordered_cons] at hOrdered
      rw [firstUnknown?, List.findSome?_cons] at hFound
      cases hFirst : entry.unknown? hashes with
      | some found =>
          rw [hFirst] at hFound
          cases hFound
          rcases DataEntry.unknown?_eq_some_iff.mp hFirst with
            ⟨b, rfl, hHash, hUnknown⟩
          refine ⟨k, b, List.mem_cons_self, hHash, hUnknown, ?_⟩
          intro key' b' hMember _
          rcases List.mem_cons.mp hMember with hHead | hTail
          · exact Or.inl (congrArg Prod.fst hHead).symm
          · exact Or.inr (hOrdered.1 _ hTail)
      | none =>
          rw [hFirst] at hFound
          rcases ih hOrdered.2 hFound with
            ⟨key, b, hMember, hHash, hUnknown, hLeast⟩
          refine ⟨key, b, List.mem_cons_of_mem _ hMember, hHash,
            hUnknown, ?_⟩
          intro key' b' hMember' hUnknown'
          rcases List.mem_cons.mp hMember' with hHead | hTail
          · cases hHead
            exact absurd hFirst (DataEntry.unknown?_ne_none hUnknown')
          · exact hLeast key' b' hTail hUnknown'

theorem exists_firstUnknown
    {hashes : Dictionary Text}
    {a : Assembly}
    (hOrdered : a.Ordered)
    {unknown : Text}
    (hFound :
      firstUnknown? hashes
        (a.entries .deploy ++ a.entries .runtime) = some unknown) :
    ∃ s key b, a.FirstUnknown hashes s key b ∧
      b.contentHash = unknown := by
  rw [firstUnknown?_append] at hFound
  cases hDeploy : firstUnknown? hashes (a.entries .deploy) with
  | some found =>
      rw [hDeploy] at hFound
      cases hFound
      rcases exists_least_of_firstUnknown?
          (ordered_entries hOrdered .deploy) hDeploy with
        ⟨key, b, hMember, rfl, hUnknown, hLeast⟩
      refine ⟨.deploy, key, b, ⟨hMember, hUnknown, ?_⟩, rfl⟩
      intro s' key' b' hMember' hUnknown'
      cases s' with
      | deploy =>
          exact Or.inr ⟨rfl, hLeast key' b' hMember' hUnknown'⟩
      | runtime =>
          exact Or.inl ⟨rfl, rfl⟩
  | none =>
      rw [hDeploy, Option.none_or] at hFound
      rcases exists_least_of_firstUnknown?
          (ordered_entries hOrdered .runtime) hFound with
        ⟨key, b, hMember, rfl, hUnknown, hLeast⟩
      refine ⟨.runtime, key, b, ⟨hMember, hUnknown, ?_⟩, rfl⟩
      intro s' key' b' hMember' hUnknown'
      cases s' with
      | deploy =>
          have hNone :=
            List.findSome?_eq_none_iff.mp hDeploy _ hMember'
          exact absurd hNone (DataEntry.unknown?_ne_none hUnknown')
      | runtime =>
          exact Or.inr ⟨rfl, hLeast key' b' hMember' hUnknown'⟩

end Assembly

namespace Report

theorem resolveContract_of_none
    (hashes : Dictionary Text)
    (path : Text)
    {c : Contract}
    (hNone : c.assembly = none) :
    resolveContract hashes path c = (c, none) := by
  unfold resolveContract
  rw [hNone]

/- A contract with an assembly is linked, or left as it is. -/
theorem resolveContract_of_some
    (hashes : Dictionary Text)
    (path : Text)
    {c : Contract}
    {a : Assembly}
    (hAssembly : c.assembly = some a) :
    resolveContract hashes path c =
      match Assembly.firstUnknown? hashes
          (a.entries .deploy ++ a.entries .runtime) with
      | some unknown => (c, some ⟨unknown, path⟩)
      | none => (c.setAssembly (a.linked path hashes), none) := by
  unfold resolveContract
  rw [hAssembly]
  dsimp only
  rw [Assembly.resolve_eq]
  cases Assembly.firstUnknown? hashes
      (a.entries .deploy ++ a.entries .runtime) with
  | some unknown => rfl
  | none => rfl

/- The errors of a contract, and what it is after one. -/
theorem resolveContract_eq_some
    {hashes : Dictionary Text}
    {path : Text}
    {c : Contract}
    {e : UnresolvedDependency}
    (hError : (resolveContract hashes path c).2 = some e) :
    (resolveContract hashes path c).1 = c ∧
      ∃ a unknown, c.assembly = some a ∧
        Assembly.firstUnknown? hashes
          (a.entries .deploy ++ a.entries .runtime) =
            some unknown ∧
        e = ⟨unknown, path⟩ := by
  cases hAssembly : c.assembly with
  | none =>
      rw [resolveContract_of_none hashes path hAssembly] at hError
      cases hError
  | some a =>
      rw [resolveContract_of_some hashes path hAssembly] at hError ⊢
      cases hFirst : Assembly.firstUnknown? hashes
          (a.entries .deploy ++ a.entries .runtime) with
      | none =>
          rw [hFirst] at hError
          cases hError
      | some unknown =>
          rw [hFirst] at hError
          cases hError
          exact ⟨rfl, a, unknown, rfl, hFirst, rfl⟩

/- The failures of one contract are those of its assembly. -/
theorem resolveContract_eq_none_iff
    {hashes : Dictionary Text}
    {path : Text}
    {c : Contract}
    {a : Assembly}
    (hAssembly : c.assembly = some a) :
    (resolveContract hashes path c).2 = none ↔
      ¬ a.HasUnknown hashes := by
  rw [resolveContract_of_some hashes path hAssembly,
    ← Assembly.firstUnknown?_eq_none_iff]
  cases Assembly.firstUnknown? hashes
      (a.entries .deploy ++ a.entries .runtime) with
  | none => simp
  | some unknown => simp

/- A contract whose resolution reports nothing is linked. -/
theorem linkedContract_of_resolveContract
    {hashes : Dictionary Text}
    {path : Text}
    {c : Contract}
    (hUnlinked : ∀ a, c.assembly = some a → a.Unlinked)
    (hDistinct : ∀ a, c.assembly = some a → a.ReferencesDistinct)
    (hNone : (resolveContract hashes path c).2 = none) :
    LinkedContract path hashes c
      (resolveContract hashes path c).1 := by
  cases hAssembly : c.assembly with
  | none =>
      rw [resolveContract_of_none hashes path hAssembly]
      exact LinkedContract.kept hAssembly
  | some a =>
      rw [resolveContract_of_some hashes path hAssembly] at hNone ⊢
      cases hKnown : Assembly.firstUnknown? hashes
          (a.entries .deploy ++ a.entries .runtime) with
      | some unknown =>
          rw [hKnown] at hNone
          cases hNone
      | none =>
          apply LinkedContract.linked hAssembly
          exact Assembly.linkedAssembly_linked
            (hUnlinked a hAssembly) (hDistinct a hAssembly) hKnown

------------------------------------------------------------
-- All Contracts
------------------------------------------------------------

/- One turn of the loop over the contracts. -/
def resolutionStep (hashes : Dictionary Text) (path : Text)
    (c : Contract) (_ : Unit) :
    Contract × Unit × Option UnresolvedDependency :=
  ((resolveContract hashes path c).1, (),
    (resolveContract hashes path c).2)

/- Resolution is a loop over the contracts. -/
theorem resolve_eq
    (r : Report) :
    r.resolve =
      ({ r with
          contracts := r.contracts.map fun table =>
            (table.advance (resolutionStep r.collectHashes) ()).1 },
        (ContractTable.advance (resolutionStep r.collectHashes)
          (r.contracts.getD []) ()).2.2) := by
  unfold resolve
  cases hContracts : r.contracts with
  | none =>
      rcases r with ⟨contracts, _, _, _, _, _⟩
      cases hContracts
      rfl
  | some table =>
      rfl

/- What the loop makes of the table, it makes of the report. -/
theorem resolve_fst_eq
    {r : Report}
    {f : Text → Text → Contract → Contract}
    (hLoop :
      (ContractTable.advance (resolutionStep r.collectHashes)
          (r.contracts.getD []) ()).1 =
        ContractTable.mapContracts f (r.contracts.getD [])) :
    r.resolve.1 = r.mapContracts f := by
  rw [resolve_eq]
  unfold mapContracts
  cases hContracts : r.contracts with
  | none =>
      rfl
  | some table =>
      rw [hContracts] at hLoop
      exact congrArg
        (fun t => { r with contracts := some t }) hLoop

/- A loop which passes changes every contract. -/
theorem resolve_of_passes
    {r : Report}
    (hOrdered : ContractTable.Ordered (r.contracts.getD []))
    (hNone : r.resolve.2 = none) :
    (∀ file name c, r.contract? file name = some c →
        (resolveContract r.collectHashes
          (fullContractPath file name) c).2 = none) ∧
      r.resolve.1 =
        r.mapContracts fun file name c =>
          (resolveContract r.collectHashes
            (fullContractPath file name) c).1 := by
  rw [resolve_eq] at hNone
  rcases ContractTable.passes_of_advance
      (resolutionStep r.collectHashes) hOrdered hNone with
    ⟨hPasses, hLoop⟩
  exact ⟨hPasses, resolve_fst_eq hLoop⟩

/- A loop which fails has changed the contracts it passed. -/
theorem resolve_of_fails
    {r : Report}
    (hOrdered : ContractTable.Ordered (r.contracts.getD []))
    {e : UnresolvedDependency}
    (hError : r.resolve.2 = some e) :
    ∃ file name c, r.contract? file name = some c ∧
      (resolveContract r.collectHashes
        (fullContractPath file name) c).2 = some e ∧
      (∀ file' name' c', r.contract? file' name' = some c' →
        ContractTable.Before file' name' file name →
          (resolveContract r.collectHashes
            (fullContractPath file' name') c').2 = none) ∧
      r.resolve.1 =
        r.mapContracts fun file' name' c' =>
          if ContractTable.Before file' name' file name then
            (resolveContract r.collectHashes
              (fullContractPath file' name') c').1
          else
            c' := by
  rw [resolve_eq] at hError
  rcases ContractTable.fails_of_advance
      (resolutionStep r.collectHashes) hOrdered hError with
    ⟨file, name, c, hContract, hFails, hPasses, hLoop⟩
  refine ⟨file, name, c, hContract, hFails, hPasses, ?_⟩
  -- The failing contract is given back as it was taken.
  have hSame :
      ∀ file' name' c', r.contract? file' name' = some c' →
        (if ContractTable.Before file name file' name' then c'
          else
            (resolveContract r.collectHashes
              (fullContractPath file' name') c').1) =
          if ContractTable.Before file' name' file name then
            (resolveContract r.collectHashes
              (fullContractPath file' name') c').1
          else
            c' := by
    intro file' name' c' hContract'
    rcases ContractTable.before_or_eq_or_before
        file name file' name' with hAfter | ⟨rfl, rfl⟩ | hBefore
    · rw [if_pos hAfter,
        if_neg (ContractTable.before_asymm hAfter)]
    · have hEq : c' = c :=
        Option.some.inj (hContract'.symm.trans hContract)
      subst hEq
      rw [if_neg (ContractTable.before_irrefl file name),
        if_neg (ContractTable.before_irrefl file name)]
      exact (resolveContract_eq_some hFails).1
    · rw [if_pos hBefore,
        if_neg (ContractTable.before_asymm hBefore)]
  exact resolve_fst_eq
    (hLoop.trans (ContractTable.mapContracts_congr hOrdered hSame))

/- Resolution passes if no assembly holds an unknown one. -/
theorem resolve_eq_none_iff
    {r : Report}
    (hOrdered : ContractTable.Ordered (r.contracts.getD [])) :
    r.resolve.2 = none ↔
      ∀ file name a, r.assembly? file name = some a →
        ¬ a.HasUnknown r.collectHashes := by
  constructor
  · intro hNone file name a hAssembly
    rcases Option.bind_eq_some_iff.mp hAssembly with
      ⟨c, hContract, hCode⟩
    have hPasses := (resolve_of_passes hOrdered hNone).1
    exact (resolveContract_eq_none_iff hCode).mp
      (hPasses file name c hContract)
  · intro hKnown
    cases hError : r.resolve.2 with
    | none =>
        rfl
    | some e =>
        rcases resolve_of_fails hOrdered hError with
          ⟨file, name, c, hContract, hFails, -, -⟩
        rcases resolveContract_eq_some hFails with
          ⟨-, a, unknown, hCode, -, -⟩
        have hAssembly : r.assembly? file name = some a :=
          Option.bind_eq_some_iff.mpr ⟨c, hContract, hCode⟩
        have hNone :
            (resolveContract r.collectHashes
              (fullContractPath file name) c).2 = none :=
          (resolveContract_eq_none_iff hCode).mpr
            (hKnown file name a hAssembly)
        rw [hNone] at hFails
        cases hFails

------------------------------------------------------------
-- Success And Failure
------------------------------------------------------------

theorem linkedReport_of_passes
    {r : Report}
    (hOrdered : ContractTable.Ordered (r.contracts.getD []))
    (hUnlinked : ∀ file name a,
      r.assembly? file name = some a → a.Unlinked)
    (hDistinct : r.ReferencesDistinct)
    (hNone : r.resolve.2 = none) :
    LinkedReport r r.resolve.1 := by
  rcases resolve_of_passes hOrdered hNone with ⟨hPasses, hResult⟩
  refine ⟨_, hResult, ?_⟩
  intro file name c hContract
  have hAssembly :
      ∀ a, c.assembly = some a →
        r.assembly? file name = some a := by
    intro a hCode
    exact Option.bind_eq_some_iff.mpr ⟨c, hContract, hCode⟩
  apply linkedContract_of_resolveContract
  · intro a hCode
    exact hUnlinked file name a (hAssembly a hCode)
  · intro a hCode
    exact hDistinct file name a (hAssembly a hCode)
  · exact hPasses file name c hContract

/-
  If resolution succeeds, every assembly is linked with the
  table of the content hashes there were before.
-/
theorem linkedReport_of_resolve
    {j : Json}
    {r : Report}
    (hOrdered : j.isOrdered = true)
    (hRead : ofJson j = .ok r)
    (hDistinct : r.ReferencesDistinct)
    (hNone : r.resolve.2 = none) :
    (∀ hash path, r.collectHashes.get? hash = some path ↔
        ∃ file name, r.LastWithHash hash file name ∧
          path = fullContractPath file name) ∧
      LinkedReport r r.resolve.1 := by
  have hTable := (ordered_of_ofJson hOrdered hRead).contracts
  constructor
  · intro hash path
    exact get?_collectHashes hTable
  · apply linkedReport_of_passes hTable _ hDistinct hNone
    intro file name a hAssembly
    exact unlinked_of_ofJson hRead hAssembly

/- An assembly without code and data. -/
def emptyAssembly : Assembly where
  fullPath := none
  code := none
  data := none
  auxdata := none
  factoryDependencies := []

/- An assembly which creates a contract with the empty one. -/
def creator : Assembly :=
  { emptyAssembly with
    code :=
      some
        [ { name := ascii "PUSH [$]"
            value := some (ascii "1")
            source := none
            rangeBegin := none
            rangeEnd := none
            jumpType := none } ]
    data := some [(ascii "1", .nested emptyAssembly)] }

/- An assembly with code in which there is nothing. -/
def leaf : Assembly :=
  { emptyAssembly with code := some [] }

/- The creation of such an assembly, and a text. -/
def planted : List (Text × DataEntry) :=
  [(ascii "1", .nested leaf), (ascii "2", .hash (ascii "ab"))]

/- An assembly which has these entries in both of its codes. -/
def planter : Assembly :=
  { creator with
    data :=
      some
        ((Assembly.runtimeKey,
            .nested { emptyAssembly with data := some planted }) ::
          planted) }

/- The content hashes of these differ, and none is the text. -/
theorem nodup_contentHashes :
    [ creator.contentHash, emptyAssembly.contentHash,
      planter.contentHash, leaf.contentHash, ascii "ab" ].Nodup := by
  -- no two of them begin with the same digit
  have hCreator : creator.contentHash.head? = some 'd'.toUInt8 := by
    decide +kernel
  have hEmpty :
      emptyAssembly.contentHash.head? = some 'b'.toUInt8 := by
    decide +kernel
  have hPlanter : planter.contentHash.head? = some 'f'.toUInt8 := by
    decide +kernel
  have hLeaf : leaf.contentHash.head? = some '0'.toUInt8 := by
    decide +kernel
  apply List.Nodup.of_map List.head?
  simp only [List.map_cons, hCreator, hEmpty, hPlanter, hLeaf]
  decide

/- A contract of which a report holds nothing but an assembly. -/
def assembled (a : Assembly) : Contract where
  abi := none
  metadata := none
  devdoc := none
  userdoc := none
  storageLayout := none
  evm :=
    some
      { assembly := some a
        assemblyText := none
        methodIdentifiers := none
        bytecode := none
        deployedBytecode := none }
  irOptimized := none
  hash := none
  factoryDependencies := none

/- A report of one file, whose contracts have these assemblies. -/
def ofAssemblies (assemblies : Dictionary Assembly) : Report where
  contracts :=
    some
      [ (ascii "a.sol",
          Dictionary.mapValues (fun _ => assembled) assemblies) ]
  sources := none
  diagnostics := none
  version := none
  longVersion := none
  zkVersion := none

section OfAssemblies

variable {assemblies : Dictionary Assembly}

theorem contract?_ofAssemblies
    (assemblies : Dictionary Assembly)
    (file name : Text) :
    (ofAssemblies assemblies).contract? file name =
      if ascii "a.sol" = file then
        (Dictionary.get? name assemblies).map assembled
      else
        none := by
  rw [contract?, ofAssemblies, Option.getD_some,
    ContractTable.contract?, Dictionary.get?_cons]
  split
  · exact Dictionary.get?_mapValues _ _ _
  · rfl

theorem assembly?_ofAssemblies_iff
    {file name : Text}
    {a : Assembly} :
    (ofAssemblies assemblies).assembly? file name = some a ↔
      file = ascii "a.sol" ∧
        Dictionary.get? name assemblies = some a := by
  rw [assembly?, contract?_ofAssemblies, @eq_comm _ file]
  split
  · next hFile =>
      simp only [hFile, true_and]
      cases Dictionary.get? name assemblies with
      | none => simp
      | some b => exact Iff.rfl
  · next hFile =>
      simp [hFile]

theorem ordered_ofAssemblies
    (hOrdered : assemblies.Ordered) :
    ContractTable.Ordered
      ((ofAssemblies assemblies).contracts.getD []) := by
  refine ⟨List.pairwise_singleton _ _, ?_⟩
  intro file contracts hFile
  cases List.mem_singleton.mp hFile
  exact Dictionary.ordered_of_keys_eq
    (Dictionary.map_fst_mapValues _ _) hOrdered

/- A report resolves which has the contracts that are created. -/
theorem resolve_ofAssemblies
    (hOrdered : assemblies.Ordered)
    (hCreated : ∀ name a, (name, a) ∈ assemblies →
      ∀ s key b, (key, DataEntry.nested b) ∈ a.entries s →
        ∃ name', Dictionary.get? name' assemblies = some b) :
    (ofAssemblies assemblies).resolve.2 = none := by
  have hTable := ordered_ofAssemblies hOrdered
  rw [resolve_eq_none_iff hTable]
  intro file name a hAssembly
  rintro ⟨s, key, b, hMember, hUnknown⟩
  have hFound := (assembly?_ofAssemblies_iff.mp hAssembly).2
  obtain ⟨name', hName'⟩ :=
    hCreated name a (Dictionary.mem_of_get? hFound) s key b hMember
  exact get?_collectHashes_ne_none hTable
    (assembly?_ofAssemblies_iff.mpr ⟨rfl, hName'⟩) hUnknown

/- A hash which no assembly has is not known. -/
theorem get?_collectHashes_ofAssemblies
    (hOrdered : assemblies.Ordered)
    {hash : Text}
    (hOther : ∀ name a, (name, a) ∈ assemblies →
      a.contentHash ≠ hash) :
    (ofAssemblies assemblies).collectHashes.get? hash = none := by
  by_contra hKnown
  obtain ⟨file, name, a, hAssembly, hHash⟩ :=
    exists_assembly_of_get?_collectHashes
      (ordered_ofAssemblies hOrdered) hKnown
  have hFound := (assembly?_ofAssemblies_iff.mp hAssembly).2
  exact hOther name a (Dictionary.mem_of_get? hFound) hHash

/- A report does not resolve if something created has no hash in it. -/
theorem resolve_ofAssemblies_ne_none
    (hOrdered : assemblies.Ordered)
    {name : Text}
    {a : Assembly}
    (hFound : Dictionary.get? name assemblies = some a)
    {s : Section}
    {key : Text}
    {b : Assembly}
    (hMember : (key, DataEntry.nested b) ∈ a.entries s)
    (hOther : ∀ name' c, (name', c) ∈ assemblies →
      c.contentHash ≠ b.contentHash) :
    (ofAssemblies assemblies).resolve.2 ≠ none := by
  intro hNone
  rw [resolve_eq_none_iff (ordered_ofAssemblies hOrdered)] at hNone
  exact hNone _ name a
    (assembly?_ofAssemblies_iff.mpr ⟨rfl, hFound⟩)
    ⟨s, key, b, hMember,
      get?_collectHashes_ofAssemblies hOrdered hOther⟩

end OfAssemblies

/- All that one creates is the empty assembly. -/
theorem nested_of_mem_creator
    {s : Section}
    {key : Text}
    {b : Assembly}
    (hMember : (key, DataEntry.nested b) ∈ creator.entries s) :
    b = emptyAssembly := by
  cases s with
  | deploy =>
      cases List.mem_singleton.mp hMember
      rfl
  | runtime => exact absurd hMember List.not_mem_nil

/- The contract `A` creates the contract `B`. -/
def creatorReport : Report :=
  ofAssemblies
    [(ascii "A", creator), (ascii "B", emptyAssembly)]

/- What the report is read from. -/
def creatorJson : Json :=
  let contract (assembly : Json) : Json :=
    .obj [(ascii "evm", .obj [(ascii "legacyAssembly", assembly)])]
  .obj
    [ (ascii "contracts",
        .obj
          [ (ascii "a.sol",
              .obj
                [ (ascii "A", contract creator.toJson),
                  (ascii "B", contract emptyAssembly.toJson) ]) ]) ]

theorem ofJson_creatorJson :
    ofJson creatorJson = .ok creatorReport := by
  rfl

theorem isOrdered_creatorJson :
    creatorJson.isOrdered = true := by
  decide +kernel

theorem ordered_creatorReport :
    creatorReport.Ordered :=
  ordered_of_ofJson isOrdered_creatorJson ofJson_creatorJson

theorem referencesDistinct_creatorReport :
    creatorReport.ReferencesDistinct := by
  intro file name a hAssembly
  apply forall_assembly _ hAssembly
  decide +kernel

/- What `A` creates is known, for it is the assembly of `B`. -/
theorem resolve_creatorReport :
    creatorReport.resolve.2 = none := by
  apply resolve_ofAssemblies
  · exact List.pairwise_pair.mpr (by decide)
  · intro name a hAssembly s key b hMember
    refine ⟨ascii "B", ?_⟩
    rcases List.mem_pair.mp hAssembly with hCreator | hCreated
    · cases hCreator
      rw [nested_of_mem_creator hMember]
      rfl
    · cases hCreated
      exact absurd hMember
        (Assembly.notMem_entries_of_data rfl s _)

theorem linkedReport_creatorReport :
    creatorJson.isOrdered = true ∧
      ofJson creatorJson = .ok creatorReport ∧
      creatorReport.ReferencesDistinct ∧
      creatorReport.resolve.2 = none ∧
      LinkedReport creatorReport creatorReport.resolve.1 :=
  ⟨isOrdered_creatorJson, ofJson_creatorJson,
    referencesDistinct_creatorReport, resolve_creatorReport,
    (linkedReport_of_resolve isOrdered_creatorJson ofJson_creatorJson
      referencesDistinct_creatorReport resolve_creatorReport).2⟩

/-
  Resolution fails just when some assembly holds an unknown
  one, and then stops at the first such contract.
-/
theorem resolve_fails_iff
    {r : Report}
    (hOrdered : r.Ordered) :
    (r.resolve.2 ≠ none ↔
        ∃ file name a, r.assembly? file name = some a ∧
          a.HasUnknown r.collectHashes) ∧
      ∀ e, r.resolve.2 = some e →
        ∃ file name, FailedReport r r.resolve.1 e file name := by
  have hStop :
      ∀ e, r.resolve.2 = some e →
        ∃ file name, FailedReport r r.resolve.1 e file name := by
    intro e hError
    rcases resolve_of_fails hOrdered.contracts hError with
      ⟨file, name, c, hContract, hFails, hPasses, hResult⟩
    rcases resolveContract_eq_some hFails with
      ⟨-, a, unknown, hCode, hFirst, rfl⟩
    have hAssembly : r.assembly? file name = some a :=
      Option.bind_eq_some_iff.mpr ⟨c, hContract, hCode⟩
    rcases Assembly.exists_firstUnknown
        (hOrdered.assemblies file name a hAssembly) hFirst with
      ⟨s, key, b, hLeast, rfl⟩
    refine ⟨file, name,
      ⟨a, s, key, b, hAssembly, hLeast, rfl⟩, ?_, hPasses, hResult⟩
    intro file' name' a' hAssembly' hUnknown hBefore
    rcases Option.bind_eq_some_iff.mp hAssembly' with
      ⟨c', hContract', hCode'⟩
    exact (resolveContract_eq_none_iff hCode').mp
      (hPasses file' name' c' hContract' hBefore) hUnknown
  refine ⟨?_, hStop⟩
  rw [Ne, resolve_eq_none_iff hOrdered.contracts]
  constructor
  · intro hUnknown
    by_contra hNone
    apply hUnknown
    intro file name a hAssembly hFound
    exact hNone ⟨file, name, a, hAssembly, hFound⟩
  · intro hExists hKnown
    rcases hExists with ⟨file, name, a, hAssembly, hFound⟩
    exact hKnown file name a hAssembly hFound

/- A creator whose creation is no contract of the report. -/
def orphanReport : Report :=
  ofAssemblies [(ascii "A", creator)]

theorem ordered_orphanReport :
    orphanReport.Ordered := by
  constructor
  · refine ⟨by decide +kernel, ?_⟩
    intro file contracts hFile
    cases List.mem_singleton.mp hFile
    decide +kernel
  · intro file name a hAssembly
    apply forall_assembly _ hAssembly
    intro contracts hContracts c hContract b hCode
    cases List.mem_singleton.mp hContracts
    cases List.mem_singleton.mp hContract
    cases List.mem_singleton.mp hCode
    apply Assembly.Ordered.intro (by decide +kernel)
    intro key d hMember
    cases List.mem_singleton.mp hMember
    exact Assembly.Ordered.intro (by decide +kernel)
      (by simp [emptyAssembly])

theorem contentHash_creator_ne :
    creator.contentHash ≠ emptyAssembly.contentHash := by
  have hNodup := nodup_contentHashes
  simp only [List.nodup_cons, List.mem_cons, not_or] at hNodup
  exact hNodup.1.1

/- What the only contract creates has another content hash than itself. -/
theorem resolve_orphanReport :
    orphanReport.resolve.2 =
      some ⟨emptyAssembly.contentHash, ascii "a.sol:A"⟩ := by
  have hMember :
      (ascii "1", DataEntry.nested emptyAssembly) ∈
        creator.entries .deploy :=
    List.mem_singleton.mpr rfl
  have hCreator :
      Dictionary.get? (ascii "A") [(ascii "A", creator)] =
        some creator := by
    rfl
  cases hStop : orphanReport.resolve.2 with
  | none =>
      have hFails : orphanReport.resolve.2 ≠ none := by
        apply resolve_ofAssemblies_ne_none
          (List.pairwise_singleton _ _) hCreator hMember
        intro name c hOnly
        cases List.mem_singleton.mp hOnly
        exact contentHash_creator_ne
      exact absurd hStop hFails
  | some e =>
      obtain ⟨file, name, c, hContract, hFails, -, -⟩ :=
        resolve_of_fails ordered_orphanReport.contracts hStop
      obtain ⟨-, a, unknown, hCode, hFirst, rfl⟩ :=
        resolveContract_eq_some hFails
      have hAssembly : orphanReport.assembly? file name = some a :=
        Option.bind_eq_some_iff.mpr ⟨c, hContract, hCode⟩
      obtain ⟨rfl, hFound⟩ := assembly?_ofAssemblies_iff.mp hAssembly
      cases List.mem_singleton.mp (Dictionary.mem_of_get? hFound)
      obtain ⟨s, key, b, hUnknown, rfl⟩ :=
        Assembly.exists_firstUnknown
          (ordered_orphanReport.assemblies _ _ _ hAssembly) hFirst
      rw [nested_of_mem_creator hUnknown.member]
      rfl

theorem failedReport_orphanReport :
    orphanReport.Ordered ∧
      ∃ file name,
        FailedReport orphanReport orphanReport.resolve.1
          ⟨emptyAssembly.contentHash, ascii "a.sol:A"⟩ file name := by
  exact ⟨ordered_orphanReport,
    (resolve_fails_iff ordered_orphanReport).2 _ resolve_orphanReport⟩

end Report

end ContractLinker
