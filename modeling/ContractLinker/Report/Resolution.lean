import ContractLinker.Assembly.Linking
import ContractLinker.Report.Basic

/-
  Resolution of the dependencies between the contracts of a
  report. The content hashes of all assemblies are collected
  before the first of them is changed.

  Key definitions include:
    * `Report.collectHashes`
    * `Report.resolveContract`
    * `Report.resolve`
-/

------------------------------------------------------------
-- Content Hashes
------------------------------------------------------------

namespace ContractLinker

namespace Report

/-
  The full path of the contract behind each content hash. Of
  several contracts with one hash the last one counts.
-/
def collectHashes (r : Report) : Dictionary Text :=
  Dictionary.ofList
    ((ContractTable.toList (r.contracts.getD [])).filterMap
      fun (path, contract) =>
        contract.assembly.map fun a => (a.contentHash, path))

------------------------------------------------------------
-- Resolution
------------------------------------------------------------

/- Resolve one contract, which stays as it is on failure. -/
def resolveContract (hashes : Dictionary Text) (path : Text)
    (c : Contract) : Contract × Option UnresolvedDependency :=
  match c.assembly with
  | none => (c, none)
  | some a =>
      match a.resolve path hashes with
      | .ok linked => (c.setAssembly linked, none)
      | .error e => (c, some e)

/-
  Resolve the contracts in order. After a failure those in
  front of the failing one stay resolved.
-/
def resolve (r : Report) : Report × Option UnresolvedDependency :=
  match r.contracts with
  | none => (r, none)
  | some table =>
      let hashes := r.collectHashes
      let (table, _, failure) :=
        table.advance
          (fun path c (_ : Unit) =>
            let (c, failure) := resolveContract hashes path c
            (c, (), failure))
          ()
      ({ r with contracts := some table }, failure)

end Report

end ContractLinker
