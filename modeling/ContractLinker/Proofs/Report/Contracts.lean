import ContractLinker.Proofs.Dictionary
import ContractLinker.Report.Resolution

/-
  The contracts of a report by file and name. A contract is
  found under the two names; `ContractTable.Before` is the
  order in which a loop over a table comes to its contracts.

  Key definitions include:
    * `ContractTable.Ordered`
    * `ContractTable.contract?`
    * `ContractTable.Before`
    * `ContractTable.mapContracts`
    * `Report.contract?`
    * `Report.assembly?`
    * `Report.LastWithHash`

  Main statements:
    * `ContractTable.passes_of_advance`
    * `ContractTable.fails_of_advance`
    * `ContractTable.get?_ofList_toList`
    * `Report.get?_collectHashes`
-/

------------------------------------------------------------
-- Contracts By File And Name
------------------------------------------------------------

namespace ContractLinker

namespace ContractTable

/- The files are in order, and the contracts of each file. -/
def Ordered (table : ContractTable) : Prop :=
  Dictionary.Ordered table ∧
    ∀ file contracts, (file, contracts) ∈ table →
      Dictionary.Ordered contracts

/- The contract of a file and a name. -/
def contract? (file name : Text) (table : ContractTable) :
    Option Contract :=
  (Dictionary.get? file table).bind (Dictionary.get? name)

/- A contract comes first if its file does, or else its name. -/
def Before (file name file' name' : Text) : Prop :=
  file < file' ∨ file = file' ∧ name < name'

instance (file name file' name' : Text) :
    Decidable (Before file name file' name') :=
  inferInstanceAs (Decidable (_ ∨ _ ∧ _))

/- Change every contract, with its two names at hand. -/
def mapContracts (f : Text → Text → Contract → Contract)
    (table : ContractTable) : ContractTable :=
  Dictionary.mapValues
    (fun file contracts => Dictionary.mapValues (f file) contracts)
    table

theorem contract?_mapContracts
    (f : Text → Text → Contract → Contract)
    (table : ContractTable)
    (file name : Text) :
    contract? file name (mapContracts f table) =
      (contract? file name table).map (f file name) := by
  unfold contract? mapContracts
  rw [Dictionary.get?_mapValues]
  cases hFile : Dictionary.get? file table with
  | none =>
      rfl
  | some contracts =>
      exact Dictionary.get?_mapValues (f file) contracts name

theorem ordered_mapContracts
    {table : ContractTable}
    (hOrdered : table.Ordered)
    (f : Text → Text → Contract → Contract) :
    (mapContracts f table).Ordered := by
  constructor
  · exact Dictionary.ordered_of_keys_eq
      (Dictionary.map_fst_mapValues _ table) hOrdered.1
  · intro file contracts hFile
    rcases List.mem_map.mp hFile with ⟨⟨_, before⟩, hEntry, hEq⟩
    cases hEq
    exact Dictionary.ordered_of_keys_eq
      (Dictionary.map_fst_mapValues _ before)
      (hOrdered.2 file before hEntry)

/- The contracts which are found are the entries of the files. -/
theorem contract?_eq_some_iff
    {table : ContractTable}
    (hOrdered : table.Ordered)
    {file name : Text}
    {c : Contract} :
    table.contract? file name = some c ↔
      ∃ contracts, (file, contracts) ∈ table ∧ (name, c) ∈ contracts := by
  unfold contract?
  rw [Option.bind_eq_some_iff]
  constructor
  · intro hExists
    rcases hExists with ⟨contracts, hFile, hName⟩
    exact ⟨contracts, Dictionary.mem_of_get? hFile,
      Dictionary.mem_of_get? hName⟩
  · intro hExists
    rcases hExists with ⟨contracts, hFile, hName⟩
    exact ⟨contracts,
      (Dictionary.get?_eq_some_iff hOrdered.1).mpr hFile,
      (Dictionary.get?_eq_some_iff
        (hOrdered.2 file contracts hFile)).mpr hName⟩

/- Only the changes of the contracts that are there matter. -/
theorem mapContracts_congr
    {f g : Text → Text → Contract → Contract}
    {table : ContractTable}
    (hOrdered : table.Ordered)
    (hSame : ∀ file name c,
      table.contract? file name = some c →
        f file name c = g file name c) :
    mapContracts f table = mapContracts g table := by
  apply Dictionary.mapValues_congr
  intro sources hFile
  rcases sources with ⟨file, contracts⟩
  apply Dictionary.mapValues_congr
  intro named hName
  rcases named with ⟨name, c⟩
  apply hSame
  exact (contract?_eq_some_iff hOrdered).mpr
    ⟨contracts, hFile, hName⟩

theorem before_irrefl
    (file name : Text) :
    ¬ Before file name file name := by
  intro hEither
  rcases hEither with hFile | ⟨-, hName⟩
  · exact List.lt_irrefl file hFile
  · exact List.lt_irrefl name hName

theorem before_asymm
    {file name file' name' : Text}
    (hBefore : Before file name file' name') :
    ¬ Before file' name' file name := by
  rcases hBefore with hFile | ⟨rfl, hName⟩
  · intro hEither
    rcases hEither with hFile' | ⟨rfl, -⟩
    · exact List.lt_asymm hFile hFile'
    · exact List.lt_irrefl _ hFile
  · intro hEither
    rcases hEither with hFile' | ⟨-, hName'⟩
    · exact List.lt_irrefl _ hFile'
    · exact List.lt_asymm hName hName'

/- Of two different contracts one comes first. -/
theorem before_or_eq_or_before
    (file name file' name' : Text) :
    Before file name file' name' ∨
      (file = file' ∧ name = name') ∨
      Before file' name' file name := by
  rcases Text.lt_or_eq_or_lt file file' with hLess | rfl | hMore
  · exact Or.inl (Or.inl hLess)
  · rcases Text.lt_or_eq_or_lt name name' with hLess | hEq | hMore
    · exact Or.inl (Or.inr ⟨rfl, hLess⟩)
    · exact Or.inr (Or.inl ⟨rfl, hEq⟩)
    · exact Or.inr (Or.inr (Or.inr ⟨rfl, hMore⟩))
  · exact Or.inr (Or.inr (Or.inl hMore))

------------------------------------------------------------
-- Loops Over A Table
------------------------------------------------------------

variable {ε : Type}

/- The part of a loop over a table which belongs to one file. -/
def advanceFile {σ : Type}
    (step : Text → Contract → σ → Contract × σ × Option ε)
    (file : Text)
    (contracts : Dictionary Contract)
    (s : σ) :
    Dictionary Contract × σ × Option ε :=
  Dictionary.advance
    (fun name => step (fullContractPath file name)) contracts s

/- A loop over a table which reports no error. -/
theorem passes_of_advance
    (step : Text → Contract → Unit → Contract × Unit × Option ε)
    {table : ContractTable}
    (hOrdered : table.Ordered)
    (hNone : (table.advance step ()).2.2 = none) :
    (∀ file name c, table.contract? file name = some c →
        (step (fullContractPath file name) c ()).2.2 = none) ∧
      (table.advance step ()).1 =
        table.mapContracts fun file name c =>
          (step (fullContractPath file name) c ()).1 := by
  rcases Dictionary.passes_of_advance (advanceFile step)
      hOrdered.1 hNone with
    ⟨hFiles, hLoop⟩
  have hFile :
      ∀ file contracts, (file, contracts) ∈ table → _ :=
    fun file contracts hMember =>
      Dictionary.passes_of_advance
        (fun name => step (fullContractPath file name))
        (hOrdered.2 file contracts hMember) (hFiles _ hMember)
  constructor
  · intro file name c hContract
    rcases (contract?_eq_some_iff hOrdered).mp hContract with
      ⟨contracts, hMember, hName⟩
    exact (hFile file contracts hMember).1 _ hName
  · refine hLoop.trans (Dictionary.mapValues_congr ?_)
    intro sources hMember
    rcases sources with ⟨file, contracts⟩
    exact (hFile file contracts hMember).2

/-
  A loop over a table which reports an error. It has stopped
  at the first contract whose step fails: the contracts up to
  that one are changed and the others stay.
-/
theorem fails_of_advance
    (step : Text → Contract → Unit → Contract × Unit × Option ε)
    {table : ContractTable}
    (hOrdered : table.Ordered)
    {e : ε}
    (hStop : (table.advance step ()).2.2 = some e) :
    ∃ file name c,
      table.contract? file name = some c ∧
      (step (fullContractPath file name) c ()).2.2 = some e ∧
      (∀ file' name' c', table.contract? file' name' = some c' →
        Before file' name' file name →
          (step (fullContractPath file' name') c' ()).2.2 = none) ∧
      (table.advance step ()).1 =
        table.mapContracts fun file' name' c' =>
          if Before file name file' name' then c'
          else (step (fullContractPath file' name') c' ()).1 := by
  rcases Dictionary.fails_of_advance (advanceFile step)
      hOrdered.1 hStop with
    ⟨file, contracts, hMember, hFails, hFirstFile, hLoop⟩
  rcases Dictionary.fails_of_advance
      (fun name => step (fullContractPath file name))
      (hOrdered.2 file contracts hMember) hFails with
    ⟨name, c, hName, hError, hFirstName, hLoopFile⟩
  -- The files in front of the failing one pass as a whole.
  have hFile :
      ∀ file' contracts', (file', contracts') ∈ table →
        file' < file → _ :=
    fun file' contracts' hMember' hLess =>
      Dictionary.passes_of_advance
        (fun name => step (fullContractPath file' name))
        (hOrdered.2 file' contracts' hMember')
        (hFirstFile _ hMember' hLess)
  have hUnique :
      ∀ contracts', (file, contracts') ∈ table →
        contracts' = contracts := by
    intro contracts' hMember'
    have hGet :=
      Dictionary.get?_of_mem hOrdered.1.nodup hMember
    rw [Dictionary.get?_of_mem hOrdered.1.nodup hMember'] at hGet
    exact Option.some.inj hGet
  refine ⟨file, name, c, ?_, hError, ?_, ?_⟩
  · exact (contract?_eq_some_iff hOrdered).mpr
      ⟨contracts, hMember, hName⟩
  · intro file' name' c' hContract hBefore
    rcases (contract?_eq_some_iff hOrdered).mp hContract with
      ⟨contracts', hMember', hName'⟩
    rcases hBefore with hLess | ⟨rfl, hLess⟩
    · exact (hFile file' contracts' hMember' hLess).1 _ hName'
    · rw [hUnique contracts' hMember'] at hName'
      exact hFirstName _ hName' hLess
  · refine hLoop.trans (Dictionary.mapValues_congr ?_)
    intro sources hMember'
    rcases sources with ⟨file', contracts'⟩
    dsimp only
    rcases Text.lt_or_eq_or_lt file' file with hLess | rfl | hMore
    · have hNotMore : ¬ file < file' := List.lt_asymm hLess
      rw [if_neg hNotMore]
      refine (hFile file' contracts' hMember' hLess).2.trans
        (Dictionary.mapValues_congr ?_)
      intro entry _
      rw [if_neg (before_asymm (Or.inl hLess))]
    · rw [hUnique contracts' hMember',
        if_neg (List.lt_irrefl file')]
      refine hLoopFile.trans (Dictionary.mapValues_congr ?_)
      intro entry _
      simp [Before, List.lt_irrefl]
    · rw [if_pos hMore]
      refine (Dictionary.mapValues_eq_self ?_).symm
      intro entry _
      have hAfter : Before file name file' entry.1 :=
        Or.inl hMore
      rw [if_pos hAfter]

section Stateful

variable {σ : Type}

theorem advance_invariant
    {step : Text → Contract → σ → Contract × σ × Option ε}
    {invariant : σ → Prop}
    (hStep : ∀ path c s, invariant s → invariant (step path c s).2.1)
    (table : ContractTable)
    {s : σ}
    (hStart : invariant s) :
    invariant (table.advance step s).2.1 := by
  refine Dictionary.advance_invariant ?_ table hStart
  intro file contracts s hBefore
  refine Dictionary.advance_invariant ?_ contracts hBefore
  intro name
  exact hStep (fullContractPath file name)

theorem advance_idle
    {step : Text → Contract → σ → Contract × σ × Option ε}
    {table : ContractTable}
    (hIdle : ∀ file contracts, (file, contracts) ∈ table →
      ∀ name c, (name, c) ∈ contracts → ∀ s,
        step (fullContractPath file name) c s = (c, s, none))
    (s : σ) :
    table.advance step s = (table, s, none) := by
  refine Dictionary.advance_idle ?_ s
  intro sources hFile s
  refine Dictionary.advance_idle ?_ s
  intro named hName s
  exact hIdle sources.1 sources.2 hFile named.1 named.2 hName s

theorem advance_stateless
    {step : Text → Contract → σ → Contract × σ × Option ε}
    {step' : Text → Contract → Unit → Contract × Unit × Option ε}
    (hStep : ∀ path c s,
      (step path c s).1 = (step' path c ()).1 ∧
        (step path c s).2.2 = (step' path c ()).2.2)
    (table : ContractTable)
    (s : σ) :
    (table.advance step s).1 = (table.advance step' ()).1 ∧
      (table.advance step s).2.2 =
        (table.advance step' ()).2.2 := by
  refine Dictionary.advance_stateless ?_ table s
  intro file contracts s
  refine Dictionary.advance_stateless ?_ contracts s
  intro name
  exact hStep (fullContractPath file name)

/-
  If every step commutes with a change of its contract, then
  so does the loop with the change of all contracts.
-/
theorem advance_mapContracts
    {step : Text → Contract → σ → Contract × σ × Option ε}
    {f : Contract → Contract}
    (hStep : ∀ path c s,
      step path (f c) s =
        (f (step path c s).1, (step path c s).2))
    (table : ContractTable)
    (s : σ) :
    ContractTable.advance step (table.mapContracts fun _ _ => f) s =
      ((table.advance step s).1.mapContracts fun _ _ => f,
        (table.advance step s).2) := by
  refine Dictionary.advance_mapValues ?_ table s
  intro file contracts s
  refine Dictionary.advance_mapValues ?_ contracts s
  intro name
  exact hStep (fullContractPath file name)

/- A loop over a table is one over the list of its contracts. -/
theorem advance_toList
    (step : Text → Contract → σ → Contract × σ × Option ε)
    (table : ContractTable)
    (s : σ) :
    (table.advance step s).2 =
      (Dictionary.advance step (toList table) s).2 := by
  induction table generalizing s with
  | nil =>
      rfl
  | cons first table ih =>
      rcases first with ⟨file, contracts⟩
      -- The contracts of the first file, under their full paths.
      have hList :
          toList ((file, contracts) :: table) =
            (contracts.map fun entry =>
              (fullContractPath file entry.1, entry.2)) ++
              toList table := by
        rfl
      have hFile :
          Dictionary.advance step
              (contracts.map fun entry =>
                (fullContractPath file entry.1, entry.2)) s =
            ((advanceFile step file contracts s).1.map fun entry =>
                (fullContractPath file entry.1, entry.2),
              (advanceFile step file contracts s).2) :=
        Dictionary.advance_map_keys (f := fullContractPath file)
          (fun _ _ _ => rfl) contracts s
      rw [hList, Dictionary.advance_append, hFile]
      rcases hTurn : advanceFile step file contracts s with
        ⟨contracts', s', stop⟩
      cases stop with
      | some e =>
          exact congrArg Prod.snd
            (Dictionary.advance_cons_of_fails hTurn table)
      | none =>
          exact (congrArg Prod.snd
            (Dictionary.advance_cons_of_passes hTurn table)).trans
              (ih s')

/- A loop which reports no error has gone through all contracts. -/
theorem state_of_advance
    (step : Text → Contract → σ → Contract × σ × Option ε)
    {table : ContractTable}
    {s : σ}
    (hNone : (table.advance step s).2.2 = none) :
    (table.advance step s).2.1 =
      (toList table).foldl
        (fun s entry => (step entry.1 entry.2 s).2.1) s := by
  rw [advance_toList] at hNone ⊢
  exact Dictionary.state_of_advance step hNone

end Stateful

------------------------------------------------------------
-- Contracts In The Order Of A Table
------------------------------------------------------------

/- All contracts with their two names, by file and then by name. -/
def places (table : ContractTable) :
    List ((Text × Text) × Contract) :=
  table.flatMap fun entry =>
    entry.2.map fun contract => ((entry.1, contract.1), contract.2)

theorem toList_eq_map_places
    (table : ContractTable) :
    table.toList =
      table.places.map fun place =>
        (fullContractPath place.1.1 place.1.2, place.2) := by
  unfold toList places
  rw [List.map_flatMap]
  congr 1
  funext entry
  rw [List.map_map]
  rfl

theorem mem_places_iff
    {table : ContractTable}
    (hOrdered : table.Ordered)
    {file name : Text}
    {c : Contract} :
    ((file, name), c) ∈ table.places ↔
      table.contract? file name = some c := by
  rw [contract?_eq_some_iff hOrdered, places, List.mem_flatMap]
  constructor
  · intro hExists
    rcases hExists with ⟨⟨file', contracts⟩, hFile, hContract⟩
    rcases List.mem_map.mp hContract with ⟨⟨name', c'⟩, hName, hEq⟩
    cases hEq
    exact ⟨contracts, hFile, hName⟩
  · intro hExists
    rcases hExists with ⟨contracts, hFile, hName⟩
    exact ⟨(file, contracts), hFile,
      List.mem_map.mpr ⟨(name, c), hName, rfl⟩⟩

theorem pairwise_places
    {table : ContractTable}
    (hOrdered : table.Ordered) :
    table.places.Pairwise fun p q =>
      Before p.1.1 p.1.2 q.1.1 q.1.2 := by
  unfold places
  rw [List.pairwise_flatMap]
  constructor
  · intro sources hFile
    rcases sources with ⟨file, contracts⟩
    rw [List.pairwise_map]
    exact (hOrdered.2 file contracts hFile).imp fun hLess =>
      Or.inr ⟨rfl, hLess⟩
  · apply List.Pairwise.imp _ hOrdered.1
    intro x y hLess p hp q hq
    rcases List.mem_map.mp hp with ⟨_, -, rfl⟩
    rcases List.mem_map.mp hq with ⟨_, -, rfl⟩
    exact Or.inl hLess

end ContractTable

------------------------------------------------------------
-- Contracts Of A Report
------------------------------------------------------------

namespace Report

/- The contract of a file and a name. -/
def contract? (r : Report) (file name : Text) :
    Option Contract :=
  (r.contracts.getD []).contract? file name

/- The assembly of the contract of a file and a name. -/
def assembly? (r : Report) (file name : Text) :
    Option Assembly :=
  (r.contract? file name).bind Contract.assembly

/- What holds of the assemblies in a table holds of those found. -/
theorem forall_assembly
    {r : Report}
    {motive : Assembly → Prop}
    (hAll : ∀ contracts ∈ r.contracts.getD [],
      ∀ c ∈ contracts.2, ∀ a ∈ c.2.assembly.toList, motive a)
    {file name : Text}
    {a : Assembly}
    (hAssembly : r.assembly? file name = some a) :
    motive a := by
  rcases Option.bind_eq_some_iff.mp hAssembly with ⟨c, hContract, hCode⟩
  rcases Option.bind_eq_some_iff.mp hContract with
    ⟨contracts, hFile, hName⟩
  exact hAll _ (Dictionary.mem_of_get? hFile)
    _ (Dictionary.mem_of_get? hName) a (Option.mem_toList.mpr hCode)

end Report

------------------------------------------------------------
-- Dictionaries Of Contracts
------------------------------------------------------------

/-
  A dictionary of entries which have places, made in the
  order of the places: the entry whose place is last counts.
-/
private theorem get?_ofList_places
    {π α : Type}
    (before : π → π → Prop)
    (hAsymm : ∀ p q, before p q → ¬ before q p)
    {entries : List (π × Text × α)}
    (hPairwise : entries.Pairwise fun x y => before x.1 y.1)
    {key : Text}
    {a : α} :
    (Dictionary.ofList (entries.map Prod.snd)).get? key = some a ↔
      ∃ p, (p, key, a) ∈ entries ∧
        ∀ q b, (q, key, b) ∈ entries → ¬ before p q := by
  rw [Dictionary.get?_ofList]
  induction entries generalizing a with
  | nil =>
      simp
  | cons first entries ih =>
      rcases first with ⟨r, k, c⟩
      rw [List.pairwise_cons] at hPairwise
      rw [List.map_cons, List.reverse_cons, Dictionary.get?_append]
      cases hRest :
          Dictionary.get? key (entries.map Prod.snd).reverse with
      | some b =>
          rcases (ih hPairwise.2).mp hRest with ⟨p, hMember, hNone⟩
          have hFirst : before r p := hPairwise.1 _ hMember
          rw [Option.some_or]
          constructor
          · intro hEq
            cases hEq
            refine ⟨p, List.mem_cons_of_mem _ hMember, ?_⟩
            intro q d hEntry
            rcases List.mem_cons.mp hEntry with hHead | hTail
            · cases hHead
              exact hAsymm r p hFirst
            · exact hNone q d hTail
          · intro hExists
            rcases hExists with ⟨q, hEntry, hAll⟩
            rcases List.mem_cons.mp hEntry with hHead | hTail
            · cases hHead
              exact absurd hFirst
                (hAll p b (List.mem_cons_of_mem _ hMember))
            · rw [← hRest]
              refine (ih hPairwise.2).mpr ⟨q, hTail, ?_⟩
              intro q' d hEntry'
              exact hAll q' d (List.mem_cons_of_mem _ hEntry')
      | none =>
          have hAbsent : ∀ q d, (q, key, d) ∉ entries := by
            intro q d hEntry
            have hFound :=
              Dictionary.get?_eq_none_iff.mp hRest d
            apply hFound
            rw [List.mem_reverse]
            exact List.mem_map.mpr ⟨_, hEntry, rfl⟩
          rw [Option.none_or, Dictionary.get?_cons,
            Dictionary.get?_nil]
          by_cases hKey : k = key
          · rw [if_pos hKey]
            subst hKey
            constructor
            · intro hEq
              cases hEq
              refine ⟨r, List.mem_cons_self, ?_⟩
              intro q d hEntry
              rcases List.mem_cons.mp hEntry with hHead | hTail
              · cases hHead
                exact fun h => hAsymm r r h h
              · exact absurd hTail (hAbsent q d)
            · intro hExists
              rcases hExists with ⟨q, hEntry, -⟩
              rcases List.mem_cons.mp hEntry with hHead | hTail
              · cases hHead
                rfl
              · exact absurd hTail (hAbsent q a)
          · rw [if_neg hKey]
            constructor
            · intro hNone
              cases hNone
            · intro hExists
              rcases hExists with ⟨q, hEntry, -⟩
              rcases List.mem_cons.mp hEntry with hHead | hTail
              · cases hHead
                exact absurd rfl hKey
              · exact absurd hTail (hAbsent q a)

namespace ContractTable

variable {α : Type}

/- What is made of a contract under its full path, with its place. -/
def entryAt (make : Text → Contract → Option (Text × α))
    (place : (Text × Text) × Contract) :
    Option ((Text × Text) × Text × α) :=
  (make (fullContractPath place.1.1 place.1.2) place.2).map
    (Prod.mk place.1)

theorem filterMap_toList_eq
    (make : Text → Contract → Option (Text × α))
    (table : ContractTable) :
    ((toList table).filterMap fun entry => make entry.1 entry.2) =
      (table.places.filterMap (entryAt make)).map Prod.snd := by
  rw [toList_eq_map_places, List.filterMap_map, List.map_filterMap]
  congr 1
  funext place
  simp [entryAt, Function.comp_def]

theorem pairwise_filterMap_entryAt
    {table : ContractTable}
    (hOrdered : table.Ordered)
    (make : Text → Contract → Option (Text × α)) :
    (table.places.filterMap (entryAt make)).Pairwise fun x y =>
      Before x.1.1 x.1.2 y.1.1 y.1.2 := by
  rw [List.pairwise_filterMap]
  apply List.Pairwise.imp _ (pairwise_places hOrdered)
  intro p q hBefore x hx y hy
  rcases Option.map_eq_some_iff.mp hx with ⟨_, -, rfl⟩
  rcases Option.map_eq_some_iff.mp hy with ⟨_, -, rfl⟩
  exact hBefore

theorem mem_filterMap_entryAt_iff
    {table : ContractTable}
    (hOrdered : table.Ordered)
    {make : Text → Contract → Option (Text × α)}
    {file name key : Text}
    {a : α} :
    ((file, name), key, a) ∈ table.places.filterMap (entryAt make) ↔
      ∃ c, table.contract? file name = some c ∧
        make (fullContractPath file name) c = some (key, a) := by
  rw [List.mem_filterMap]
  constructor
  · rintro ⟨⟨⟨file', name'⟩, c⟩, hPlace, hEntry⟩
    rcases Option.map_eq_some_iff.mp hEntry with ⟨_, hMade, hEq⟩
    cases hEq
    exact ⟨c, (mem_places_iff hOrdered).mp hPlace, hMade⟩
  · rintro ⟨c, hContract, hMade⟩
    exact ⟨((file, name), c), (mem_places_iff hOrdered).mpr hContract,
      Option.map_eq_some_iff.mpr ⟨_, hMade, rfl⟩⟩

/-
  A dictionary with an entry for each contract of a table
  that makes one: the last contract with a key counts.
-/
theorem get?_ofList_toList
    {table : ContractTable}
    (hOrdered : table.Ordered)
    (make : Text → Contract → Option (Text × α))
    {key : Text}
    {a : α} :
    Dictionary.get? key
        (Dictionary.ofList
          ((toList table).filterMap fun entry =>
            make entry.1 entry.2)) =
        some a ↔
      ∃ file name c,
        table.contract? file name = some c ∧
        make (fullContractPath file name) c = some (key, a) ∧
        ∀ file' name' c' b,
          table.contract? file' name' = some c' →
            make (fullContractPath file' name') c' = some (key, b) →
              ¬ Before file name file' name' := by
  rw [filterMap_toList_eq,
    get?_ofList_places (fun p q => Before p.1 p.2 q.1 q.2)
      (fun _ _ => before_asymm)
      (pairwise_filterMap_entryAt hOrdered make)]
  constructor
  · rintro ⟨⟨file, name⟩, hEntry, hLast⟩
    rcases (mem_filterMap_entryAt_iff hOrdered).mp hEntry with
      ⟨c, hContract, hMade⟩
    refine ⟨file, name, c, hContract, hMade, ?_⟩
    intro file' name' c' b hContract' hMade'
    exact hLast (file', name') b
      ((mem_filterMap_entryAt_iff hOrdered).mpr
        ⟨c', hContract', hMade'⟩)
  · rintro ⟨file, name, c, hContract, hMade, hLast⟩
    refine ⟨(file, name),
      (mem_filterMap_entryAt_iff hOrdered).mpr
        ⟨c, hContract, hMade⟩, ?_⟩
    rintro ⟨file', name'⟩ b hEntry
    rcases (mem_filterMap_entryAt_iff hOrdered).mp hEntry with
      ⟨c', hContract', hMade'⟩
    exact hLast file' name' c' b hContract' hMade'

/- The keys of the dictionary are those which contracts make. -/
theorem isSome_get?_ofList_toList
    {table : ContractTable}
    (hOrdered : table.Ordered)
    (make : Text → Contract → Option (Text × α))
    {key : Text} :
    (Dictionary.get? key
        (Dictionary.ofList
          ((toList table).filterMap fun entry =>
            make entry.1 entry.2))).isSome ↔
      ∃ file name c a,
        table.contract? file name = some c ∧
        make (fullContractPath file name) c = some (key, a) := by
  constructor
  · intro hSome
    rcases Option.isSome_iff_exists.mp hSome with ⟨a, hFound⟩
    rcases (get?_ofList_toList hOrdered make).mp hFound with
      ⟨file, name, c, hContract, hMade, -⟩
    exact ⟨file, name, c, a, hContract, hMade⟩
  · rintro ⟨file, name, c, a, hContract, hMade⟩
    have hEntry :=
      (mem_filterMap_entryAt_iff hOrdered).mpr ⟨c, hContract, hMade⟩
    rw [Option.isSome_iff_ne_none, filterMap_toList_eq,
      Dictionary.get?_ofList, Ne, Dictionary.get?_eq_none_iff]
    intro hAbsent
    apply hAbsent a
    rw [List.mem_reverse]
    exact List.mem_map.mpr ⟨_, hEntry, rfl⟩

end ContractTable

------------------------------------------------------------
-- Content Hashes
------------------------------------------------------------

namespace Report

/- The last contract whose assembly has a content hash. -/
def LastWithHash (r : Report) (hash file name : Text) : Prop :=
  (∃ a, r.assembly? file name = some a ∧ a.contentHash = hash) ∧
    ∀ file' name' b,
      r.assembly? file' name' = some b → b.contentHash = hash →
        ¬ ContractTable.Before file name file' name'

/-
  A content hash is mapped to the full path of the last
  contract whose assembly has that hash.
-/
theorem get?_collectHashes
    {r : Report}
    (hOrdered : ContractTable.Ordered (r.contracts.getD []))
    {hash path : Text} :
    r.collectHashes.get? hash = some path ↔
      ∃ file name, r.LastWithHash hash file name ∧
        path = fullContractPath file name := by
  have hMade :
      ∀ path (c : Contract) (found : Text),
        (c.assembly.map fun a => (a.contentHash, path)) =
            some (hash, found) ↔
          ∃ a, c.assembly = some a ∧ a.contentHash = hash ∧
            found = path := by
    intro path c found
    rw [Option.map_eq_some_iff]
    simp [eq_comm]
  unfold collectHashes
  rw [ContractTable.get?_ofList_toList hOrdered
    fun path c => c.assembly.map fun a => (a.contentHash, path)]
  constructor
  · rintro ⟨file, name, c, hContract, hEntry, hLast⟩
    rcases (hMade _ c path).mp hEntry with ⟨a, hCode, hHash, hPath⟩
    refine ⟨file, name, ⟨⟨a, ?_, hHash⟩, ?_⟩, hPath⟩
    · exact Option.bind_eq_some_iff.mpr ⟨c, hContract, hCode⟩
    · intro file' name' b hAssembly' hHash'
      rcases Option.bind_eq_some_iff.mp hAssembly' with
        ⟨c', hContract', hCode'⟩
      exact hLast file' name' c' _ hContract'
        ((hMade _ c' _).mpr ⟨b, hCode', hHash', rfl⟩)
  · rintro ⟨file, name, ⟨⟨a, hAssembly, hHash⟩, hLast⟩, hPath⟩
    rcases Option.bind_eq_some_iff.mp hAssembly with
      ⟨c, hContract, hCode⟩
    refine ⟨file, name, c, hContract,
      (hMade _ c path).mpr ⟨a, hCode, hHash, hPath⟩, ?_⟩
    intro file' name' c' found hContract' hEntry'
    rcases (hMade _ c' found).mp hEntry' with ⟨b, hCode', hHash', -⟩
    exact hLast file' name' b
      (Option.bind_eq_some_iff.mpr ⟨c', hContract', hCode'⟩) hHash'

/- The content hash of a contract of the report is known. -/
theorem get?_collectHashes_of_mem
    {r : Report}
    {path : Text}
    {c : Contract}
    (hContract :
      (path, c) ∈ ContractTable.toList (r.contracts.getD []))
    {a : Assembly}
    (hAssembly : c.assembly = some a) :
    r.collectHashes.get? a.contentHash ≠ none := by
  intro hNone
  rw [collectHashes, Dictionary.get?_ofList,
    Dictionary.get?_eq_none_iff] at hNone
  apply hNone path
  rw [List.mem_reverse, List.mem_filterMap]
  exact ⟨_, hContract, Option.map_eq_some_iff.mpr ⟨a, hAssembly, rfl⟩⟩

theorem get?_collectHashes_ne_none
    {r : Report}
    (hOrdered : ContractTable.Ordered (r.contracts.getD []))
    {file name : Text}
    {a : Assembly}
    (hAssembly : r.assembly? file name = some a) :
    r.collectHashes.get? a.contentHash ≠ none := by
  rcases Option.bind_eq_some_iff.mp hAssembly with
    ⟨c, hContract, hCode⟩
  have hListed :
      (fullContractPath file name, c) ∈
        ContractTable.toList (r.contracts.getD []) := by
    rw [ContractTable.toList_eq_map_places]
    exact List.mem_map.mpr
      ⟨_, (ContractTable.mem_places_iff hOrdered).mpr hContract, rfl⟩
  exact get?_collectHashes_of_mem hListed hCode

/- A hash in the table is the content hash of some assembly. -/
theorem exists_assembly_of_get?_collectHashes
    {r : Report}
    (hOrdered : ContractTable.Ordered (r.contracts.getD []))
    {hash : Text}
    (hKnown : r.collectHashes.get? hash ≠ none) :
    ∃ file name a, r.assembly? file name = some a ∧
      a.contentHash = hash := by
  rcases Option.ne_none_iff_exists'.mp hKnown with ⟨path, hFound⟩
  rcases (get?_collectHashes hOrdered).mp hFound with
    ⟨file, name, ⟨⟨a, hAssembly, hHash⟩, -⟩, -⟩
  exact ⟨file, name, a, hAssembly, hHash⟩

end Report

end ContractLinker
