import ContractLinker.Report.Contract
import ContractLinker.Report.Diagnostic
import ContractLinker.Report.Source
import ContractLinker.Json.Reader

/-
  Reports: what the compiler writes about a set of sources,
  their contracts and its own messages.

  Key definitions include:
    * `Report`
    * `Report.toJson`
    * `Report.ofJson`
    * `Report.read`
    * `Report.hasErrors`
    * `ContractTable.advance`
    * `fullContractPath`
-/

------------------------------------------------------------
-- Reports
------------------------------------------------------------

namespace ContractLinker

/- Contracts by the name of their file and their own name. -/
abbrev ContractTable :=
  Dictionary (Dictionary Contract)

/- The output of the compiler. -/
structure Report where
  contracts : Option ContractTable
  sources : Option (Dictionary Source)
  diagnostics : Option (List Diagnostic)
  version : Option Text
  longVersion : Option Text
  zkVersion : Option Text

/- The full path of a contract. -/
def fullContractPath (file name : Text) : Text :=
  file ++ ':'.toUInt8 :: name

namespace ContractTable

/- All contracts with their full paths, by file and then by name. -/
def toList (table : ContractTable) : List (Text × Contract) :=
  table.flatMap fun (file, contracts) =>
    contracts.map fun (name, contract) =>
      (fullContractPath file name, contract)

/-
  Change the contracts one by one, by file and then by name,
  carrying a state along, until a step reports an error.
-/
def advance {σ ε : Type}
    (step : Text → Contract → σ → Contract × σ × Option ε)
    (table : ContractTable) (s : σ) :
    ContractTable × σ × Option ε :=
  Dictionary.advance
    (fun file contracts s =>
      Dictionary.advance
        (fun name => step (fullContractPath file name))
        contracts s)
    table s

end ContractTable

namespace Report

/- Whether some diagnostic forbids to go on. -/
def hasErrors (r : Report) : Bool :=
  (r.diagnostics.getD []).any Diagnostic.isError

------------------------------------------------------------
-- Encoding
------------------------------------------------------------

/- The diagnostics as JSON, an empty list if there are none. -/
def diagnosticsJson (r : Report) : Json :=
  .arr ((r.diagnostics.getD []).map Diagnostic.toJson)

/- A report as JSON. -/
def toJson (r : Report) : Json :=
  .object
    [ (ascii "contracts",
        r.contracts.map fun table =>
          .obj
            (Dictionary.mapValues
              (fun _ contracts =>
                .obj
                  (Dictionary.mapValues
                    (fun _ contract => contract.toJson)
                    contracts))
              table)),
      (ascii "errors",
        r.diagnostics.map fun _ => r.diagnosticsJson),
      (ascii "long_version", r.longVersion.map .str),
      (ascii "sources",
        r.sources.map fun sources =>
          .obj
            (Dictionary.mapValues
              (fun _ source => source.toJson) sources)),
      (ascii "version", r.version.map .str),
      (ascii "zk_version", r.zkVersion.map .str) ]

------------------------------------------------------------
-- Decoding
------------------------------------------------------------

/- Decode the contracts of all files. -/
def decodeContracts (j : Json) :
    Except DecodeError ContractTable := do
  let files ← j.requireObject (ascii "contracts")
  Dictionary.traverse
    (fun file value => do
      let contracts ←
        value.requireObject (ascii "contracts." ++ file)
      Dictionary.traverse
        (fun _ contract => Contract.ofJson contract) contracts)
    files

/- Decode the sources. -/
def decodeSources (j : Json) :
    Except DecodeError (Dictionary Source) := do
  let sources ← j.requireObject (ascii "sources")
  Dictionary.traverse (fun _ source => Source.ofJson source) sources

/- Decode the diagnostics. -/
def decodeDiagnostics (j : Json) :
    Except DecodeError (List Diagnostic) := do
  let items ← j.requireArray (ascii "errors")
  items.mapM Diagnostic.ofJson

/- Decode a report. -/
def ofJson (j : Json) : Except DecodeError Report := do
  let _ ← j.requireObject (ascii "output")
  let contracts ← j.optional (ascii "contracts") decodeContracts
  let sources ← j.optional (ascii "sources") decodeSources
  let diagnostics ← j.optional (ascii "errors") decodeDiagnostics
  let version ← j.optionalString (ascii "version")
  let longVersion ← j.optionalString (ascii "long_version")
  let zkVersion ← j.optionalString (ascii "zk_version")
  return {
    contracts, sources, diagnostics, version, longVersion,
    zkVersion
  }

/- Read a report from its text. -/
def read (s : Text) : Except DecodeError Report :=
  match Json.parse? s with
  | some j => ofJson j
  | none => .error .malformedReport

end Report

end ContractLinker
