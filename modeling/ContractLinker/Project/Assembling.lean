import ContractLinker.Project.Basic
import ContractLinker.Project.Dump
import ContractLinker.Report.Resolution
import ContractLinker.Yul.Parser

/-
  Assembling a project from a report. The report changes on
  the way, also when assembling fails: assemblies are linked
  in it, and intermediate code is taken out of it.

  Key definitions include:
    * `AssemblingError`
    * `AssemblingError.message`
    * `Assembling.yulStep`
    * `Assembling.Outcome`
    * `Report.assemble`
-/

------------------------------------------------------------
-- Errors
------------------------------------------------------------

namespace ContractLinker

/- Why no project can be assembled. -/
inductive AssemblingError where
  | unresolved (e : UnresolvedDependency)
  | missingContracts (diagnostics : Option (List Diagnostic))
  | parsing (path : Text) (e : Yul.ParseError)
  | dump (e : Dump.Error)

/- What a user is told. -/
def AssemblingError.message : AssemblingError → Text
  | .unresolved e => e.message
  | .missingContracts (some diagnostics) =>
      (Json.arr (diagnostics.map Diagnostic.toJson)).pretty
  | .missingContracts none =>
      ascii "Unknown project assembling error"
  | .parsing path e =>
      ascii "Contract `" ++ path ++ ascii "` parsing error: " ++
        e.message
  | .dump e => e.message

namespace Assembling

------------------------------------------------------------
-- Intermediate Code
------------------------------------------------------------

/- What has been assembled so far, and the files. -/
structure Progress where
  contracts : Dictionary ProjectContract
  files : FileTree

/- Dump some code if a debug output directory is given. -/
def dump (directory : Option Text) (path code : Text)
    (files : FileTree) : FileTree × Option Dump.Error :=
  match directory with
  | none => (files, none)
  | some directory => Dump.write directory path code files

/-
  Assemble a contract from its intermediate code, which is
  taken out of it. A contract without code is passed over.
-/
def yulStep (directory : Option Text) (path : Text) (c : Contract)
    (s : Progress) : Contract × Progress × Option AssemblingError :=
  let rest := { c with irOptimized := none }
  match c.irOptimized with
  | none | some [] => (rest, s, none)
  | some text =>
      match dump directory path text s.files with
      | (files, some e) =>
          (rest, { s with files := files }, some (.dump e))
      | (files, none) =>
          match Yul.Object.parse text with
          | .error e =>
              (rest, { s with files := files }, some (.parsing path e))
          | .ok object =>
              let contract : ProjectContract := {
                path := path
                source := .yul text object
                metadata := c.passThroughMetadata
              }
              (rest,
                { contracts := s.contracts.insert path contract
                  files := files },
                none)

------------------------------------------------------------
-- Assemblies
------------------------------------------------------------

/- The contract of a project for a contract with an assembly. -/
def evmlaContract (path : Text) (c : Contract) :
    Option (Text × ProjectContract) :=
  c.assembly.map fun assembly =>
    (path,
      { path := path
        source := .evmla assembly
        metadata := c.passThroughMetadata })

/- The contracts of a project for the assemblies of a table. -/
def evmlaContracts (table : ContractTable) :
    Dictionary ProjectContract :=
  Dictionary.ofList
    (table.toList.filterMap fun (path, c) => evmlaContract path c)

------------------------------------------------------------
-- Outcomes
------------------------------------------------------------

/- The report and the files afterwards, and the project. -/
structure Outcome where
  report : Report
  files : FileTree
  project : Except AssemblingError Project

/- The error that a report has no contracts. -/
def missing (r : Report) : AssemblingError :=
  .missingContracts r.diagnostics

/- Assemble a project from intermediate code. -/
def yul (r : Report) (libraries : Libraries) (version : Version)
    (directory : Option Text) (files : FileTree) : Outcome :=
  match r.contracts with
  | none => ⟨r, files, .error (missing r)⟩
  | some table =>
      match table.advance (yulStep directory) ⟨[], files⟩ with
      | (table, s, failure) =>
          { report := { r with contracts := some table }
            files := s.files
            project :=
              match failure with
              | some e => .error e
              | none =>
                  .ok { version, contracts := s.contracts, libraries } }

/- Assemble a project from assemblies, after linking them. -/
def evmla (r : Report) (libraries : Libraries) (version : Version)
    (files : FileTree) : Outcome :=
  match r.resolve with
  | (r, some e) => ⟨r, files, .error (.unresolved e)⟩
  | (r, none) =>
      match r.contracts with
      | none => ⟨r, files, .error (missing r)⟩
      | some table =>
          { report := r
            files := files
            project :=
              .ok
                { version
                  contracts := evmlaContracts table
                  libraries } }

end Assembling

/- Assemble a project by a pipeline. -/
def Report.assemble (r : Report) (pipeline : Pipeline)
    (libraries : Libraries) (version : Version)
    (directory : Option Text) (files : FileTree) :
    Assembling.Outcome :=
  match pipeline with
  | .yul => Assembling.yul r libraries version directory files
  | .evmla => Assembling.evmla r libraries version files

end ContractLinker
