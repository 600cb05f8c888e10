import ContractLinker.Proofs.Assembly.Decoding
import ContractLinker.Proofs.Report.Contracts

/-
  Decoded reports. The contracts of a report which is read
  from an ordered value are in order, and none of their
  assemblies has been linked.

  Key definitions include:
    * `Report.Ordered`

  Main statements:
    * `Report.ordered_of_ofJson`
    * `Report.unlinked_of_ofJson`
-/

------------------------------------------------------------
-- Contracts
------------------------------------------------------------

namespace ContractLinker

/- The member which the assembly is read from. -/
theorem MachineOutput.assembly_of_ofJson
    {j : Json}
    {m : MachineOutput}
    (hDecode : MachineOutput.ofJson j = .ok m)
    {a : Assembly}
    (hAssembly : m.assembly = some a) :
    ∃ value, j.member? (ascii "legacyAssembly") = some value ∧
      Assembly.ofJson value = .ok a := by
  rcases bind_eq_ok_iff.mp hDecode with ⟨_, -, hDecode⟩
  rcases bind_eq_ok_iff.mp hDecode with ⟨found, hFound, hDecode⟩
  rcases bind_eq_ok_iff.mp hDecode with ⟨text, -, hEq⟩
  cases hEq
  dsimp only at hAssembly
  subst hAssembly
  unfold decodeAssembly at hFound
  split at hFound
  · cases hFound
  · cases hFound
  · next value _ hMember =>
      rcases map_eq_ok_iff.mp hFound with ⟨b, hOfJson, hEq⟩
      cases hEq
      exact ⟨value, hMember, hOfJson⟩

theorem Contract.assembly_of_ofJson
    {j : Json}
    {c : Contract}
    (hDecode : Contract.ofJson j = .ok c)
    {a : Assembly}
    (hAssembly : c.assembly = some a) :
    ∃ value, Assembly.ofJson value = .ok a ∧
      (j.isOrdered = true → value.isOrdered = true) := by
  rcases bind_eq_ok_iff.mp hDecode with ⟨_, -, hDecode⟩
  rcases bind_eq_ok_iff.mp hDecode with ⟨evm, hEvm, hDecode⟩
  rcases bind_eq_ok_iff.mp hDecode with ⟨_, -, hDecode⟩
  rcases bind_eq_ok_iff.mp hDecode with ⟨_, -, hDecode⟩
  rcases bind_eq_ok_iff.mp hDecode with ⟨_, -, hEq⟩
  cases hEq
  rcases Option.bind_eq_some_iff.mp hAssembly with ⟨m, hMachine, hCode⟩
  dsimp only at hMachine
  rcases Json.optional_eq_ok hEvm with
    hNone | ⟨evmValue, m', hMember, hOfJson, hSome⟩
  · rw [hNone] at hMachine
    cases hMachine
  · rw [hSome] at hMachine
    cases hMachine
    rcases MachineOutput.assembly_of_ofJson hOfJson hCode with
      ⟨value, hInner, hAssemblyJson⟩
    refine ⟨value, hAssemblyJson, ?_⟩
    intro hOrdered
    exact Json.isOrdered_of_member?
      (Json.isOrdered_of_member? hOrdered hMember) hInner

------------------------------------------------------------
-- Tables Of Contracts
------------------------------------------------------------

namespace Report

/- The contracts are in order, and the data of their assemblies. -/
structure Ordered (r : Report) : Prop where
  contracts : ContractTable.Ordered (r.contracts.getD [])
  assemblies : ∀ file name a,
    r.assembly? file name = some a → a.Ordered

/- A decoded table has the keys of the objects it was read from. -/
theorem decodeContracts_eq_ok
    {j : Json}
    {table : ContractTable}
    (hDecode : decodeContracts j = .ok table) :
    ∃ files, j = .obj files ∧
      table.map Prod.fst = files.map Prod.fst ∧
      ∀ file contracts, (file, contracts) ∈ table →
        ∃ members, (file, Json.obj members) ∈ files ∧
          contracts.map Prod.fst = members.map Prod.fst ∧
          ∀ name c, (name, c) ∈ contracts →
            ∃ value, (name, value) ∈ members ∧
              Contract.ofJson value = .ok c := by
  rcases bind_eq_ok_iff.mp hDecode with ⟨files, hFiles, hTable⟩
  rw [Json.requireObject_eq_ok_iff] at hFiles
  refine ⟨files, hFiles, Dictionary.map_fst_of_traverse hTable, ?_⟩
  intro file contracts hFile
  rcases Dictionary.mem_of_traverse hTable hFile with
    ⟨value, hMember, hValue⟩
  rcases bind_eq_ok_iff.mp hValue with ⟨members, hObject, hContracts⟩
  rw [Json.requireObject_eq_ok_iff] at hObject
  subst hObject
  refine ⟨members, hMember,
    Dictionary.map_fst_of_traverse hContracts, ?_⟩
  intro name c hName
  rcases Dictionary.mem_of_traverse hContracts hName with
    ⟨inner, hInner, hOfJson⟩
  exact ⟨inner, hInner, hOfJson⟩

/- Where the contracts of a decoded report come from. -/
theorem contracts_of_ofJson
    {j : Json}
    {r : Report}
    (hRead : ofJson j = .ok r) :
    r.contracts = none ∨
      ∃ value table, j.member? (ascii "contracts") = some value ∧
        decodeContracts value = .ok table ∧
        r.contracts = some table := by
  rcases bind_eq_ok_iff.mp hRead with ⟨_, -, hRead⟩
  rcases bind_eq_ok_iff.mp hRead with ⟨contracts, hContracts, hRead⟩
  rcases bind_eq_ok_iff.mp hRead with ⟨_, -, hRead⟩
  rcases bind_eq_ok_iff.mp hRead with ⟨_, -, hRead⟩
  rcases bind_eq_ok_iff.mp hRead with ⟨_, -, hRead⟩
  rcases bind_eq_ok_iff.mp hRead with ⟨_, -, hRead⟩
  rcases bind_eq_ok_iff.mp hRead with ⟨_, -, hEq⟩
  cases hEq
  exact Json.optional_eq_ok hContracts

/- The contracts of a decoded report are in order. -/
theorem ordered_contracts_of_ofJson
    {j : Json}
    {r : Report}
    (hOrdered : j.isOrdered = true)
    (hRead : ofJson j = .ok r) :
    ContractTable.Ordered (r.contracts.getD []) := by
  rcases contracts_of_ofJson hRead with
    hNone | ⟨value, table, hMember, hDecode, hSome⟩
  · rw [hNone]
    exact ⟨List.Pairwise.nil, by simp⟩
  · rw [hSome]
    rcases decodeContracts_eq_ok hDecode with
      ⟨files, rfl, hKeys, hFiles⟩
    have hValue := Json.isOrdered_of_member? hOrdered hMember
    constructor
    · exact Dictionary.ordered_of_keys_eq hKeys
        (Json.ordered_of_isOrdered hValue)
    · intro file contracts hFile
      rcases hFiles file contracts hFile with
        ⟨members, hObject, hNames, -⟩
      exact Dictionary.ordered_of_keys_eq hNames
        (Json.ordered_of_isOrdered
          (Json.isOrdered_of_mem hValue hObject))

/- Where the assemblies of a decoded report come from. -/
theorem assembly_of_ofJson
    {j : Json}
    {r : Report}
    (hRead : ofJson j = .ok r)
    {file name : Text}
    {a : Assembly}
    (hAssembly : r.assembly? file name = some a) :
    ∃ value, Assembly.ofJson value = .ok a ∧
      (j.isOrdered = true → value.isOrdered = true) := by
  rcases Option.bind_eq_some_iff.mp hAssembly with ⟨c, hContract, hCode⟩
  rcases Option.bind_eq_some_iff.mp hContract with
    ⟨contracts, hFile, hName⟩
  rcases contracts_of_ofJson hRead with
    hNone | ⟨table, decoded, hMember, hDecode, hSome⟩
  · rw [hNone] at hFile
    cases hFile
  · rw [hSome] at hFile
    rcases decodeContracts_eq_ok hDecode with ⟨files, rfl, -, hFiles⟩
    rcases hFiles file contracts (Dictionary.mem_of_get? hFile) with
      ⟨members, hMembers, -, hContracts⟩
    rcases hContracts name c (Dictionary.mem_of_get? hName) with
      ⟨inner, hInner, hOfJson⟩
    rcases Contract.assembly_of_ofJson hOfJson hCode with
      ⟨value, hValue, hImp⟩
    refine ⟨value, hValue, ?_⟩
    intro hOrdered
    have hTable := Json.isOrdered_of_member? hOrdered hMember
    have hFileOrdered := Json.isOrdered_of_mem hTable hMembers
    exact hImp (Json.isOrdered_of_mem hFileOrdered hInner)

/- A report which is decoded from ordered JSON is in order. -/
theorem ordered_of_ofJson
    {j : Json}
    {r : Report}
    (hOrdered : j.isOrdered = true)
    (hRead : ofJson j = .ok r) :
    r.Ordered := by
  constructor
  · exact ordered_contracts_of_ofJson hOrdered hRead
  · intro file name a hAssembly
    rcases assembly_of_ofJson hRead hAssembly with
      ⟨value, hDecode, hImp⟩
    exact Assembly.ordered_of_ofJson (hImp hOrdered) hDecode

/- No assembly of a decoded report has been linked. -/
theorem unlinked_of_ofJson
    {j : Json}
    {r : Report}
    (hRead : ofJson j = .ok r)
    {file name : Text}
    {a : Assembly}
    (hAssembly : r.assembly? file name = some a) :
    a.Unlinked := by
  rcases assembly_of_ofJson hRead hAssembly with ⟨value, hDecode, -⟩
  exact Assembly.unlinked_of_ofJson hDecode

end Report

end ContractLinker
