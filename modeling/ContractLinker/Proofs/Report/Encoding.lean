import ContractLinker.Proofs.Assembly.Encoding
import ContractLinker.Proofs.Report.Contracts

/-
  Decoding of encoded reports. The JSON of a report is decoded
  as its content: everything but what linking has added to the
  assemblies. Nothing else than the content is encoded, and
  before linking a report is its content.

  Key definitions include:
    * `Report.content`
    * `Report.Unlinked`

  Main statements:
    * `Report.ofJson_toJson`
    * `Report.toJson_content`
    * `Report.content_eq_self`
    * `Report.decode_encode`
-/

------------------------------------------------------------
-- Diagnostics And Sources
------------------------------------------------------------

namespace ContractLinker

namespace SourceLocation

theorem requiredInteger_of_member?
    {j : Json}
    {name : Text}
    {n : Int64}
    (hMember : j.member? name = some (.ofInt64 n)) :
    requiredInteger name j = .ok n := by
  unfold requiredInteger
  rw [hMember, Option.bind_some, Json.int64?_ofInt64]

/- The members of an encoded location. -/
theorem member?_toJson
    (l : SourceLocation)
    (name : Text) :
    l.toJson.member? name =
      (Dictionary.get? name
        [ (ascii "end", some (Json.ofInt64 l.stop)),
          (ascii "file", some (.str l.file)),
          (ascii "start", some (.ofInt64 l.start)) ]).join := by
  apply Json.member?_object
  exact (by decide :
    [ascii "end", ascii "file", ascii "start"].Nodup)

/- A location is decoded as it was encoded. -/
theorem ofJson_toJson
    (l : SourceLocation) :
    ofJson l.toJson = .ok l := by
  have hFile : l.toJson.requiredString (ascii "file") = .ok l.file :=
    Json.requiredString_of_member? (member?_toJson l _)
  have hStart :
      requiredInteger (ascii "start") l.toJson = .ok l.start :=
    requiredInteger_of_member? (member?_toJson l _)
  have hStop :
      requiredInteger (ascii "end") l.toJson = .ok l.stop :=
    requiredInteger_of_member? (member?_toJson l _)
  unfold ofJson
  rw [hFile, hStart, hStop]
  rfl

end SourceLocation

namespace Diagnostic

/- The members of an encoded diagnostic. -/
theorem member?_toJson
    (d : Diagnostic)
    (name : Text) :
    d.toJson.member? name =
      (Dictionary.get? name
        [ (ascii "component", some (Json.str d.component)),
          (ascii "errorCode", d.errorCode.map .str),
          (ascii "formattedMessage", some (.str d.formattedMessage)),
          (ascii "message", some (.str d.message)),
          (ascii "severity", some (.str d.severity)),
          (ascii "sourceLocation",
            d.sourceLocation.map SourceLocation.toJson),
          (ascii "type", some (.str d.type)) ]).join := by
  apply Json.member?_object
  exact (by decide :
    [ascii "component", ascii "errorCode", ascii "formattedMessage",
      ascii "message", ascii "severity", ascii "sourceLocation",
      ascii "type"].Nodup)

/- A diagnostic is decoded as it was encoded. -/
theorem ofJson_toJson
    (d : Diagnostic) :
    ofJson d.toJson = .ok d := by
  have hComponent :
      d.toJson.requiredString (ascii "component") =
        .ok d.component :=
    Json.requiredString_of_member? (member?_toJson d _)
  have hCode :
      d.toJson.optionalString (ascii "errorCode") = .ok d.errorCode :=
    Json.optionalString_of_member? (member?_toJson d _)
  have hFormatted :
      d.toJson.requiredString (ascii "formattedMessage") =
        .ok d.formattedMessage :=
    Json.requiredString_of_member? (member?_toJson d _)
  have hMessage :
      d.toJson.requiredString (ascii "message") = .ok d.message :=
    Json.requiredString_of_member? (member?_toJson d _)
  have hSeverity :
      d.toJson.requiredString (ascii "severity") = .ok d.severity :=
    Json.requiredString_of_member? (member?_toJson d _)
  have hLocation :
      d.toJson.optional (ascii "sourceLocation")
          SourceLocation.ofJson =
        .ok (d.sourceLocation.map id) :=
    Json.optional_of_member? SourceLocation.ofJson_toJson
      (member?_toJson d _)
  have hType : d.toJson.requiredString (ascii "type") = .ok d.type :=
    Json.requiredString_of_member? (member?_toJson d _)
  unfold ofJson
  rw [hComponent, hCode, hFormatted, hMessage, hSeverity, hLocation,
    Option.map_id, hType]
  rfl

end Diagnostic

namespace Source

theorem decodeId_of_uint64?
    {j : Json}
    {n : UInt64}
    (hValue : j.uint64? = some n) :
    decodeId j = .ok n := by
  unfold decodeId
  rw [hValue]

theorem decodeId_ofUInt64
    (n : UInt64) :
    decodeId (.ofUInt64 n) = .ok n := by
  exact decodeId_of_uint64? (Json.uint64?_ofUInt64 n)

/- The members of an encoded source. -/
theorem member?_toJson
    (s : Source)
    (name : Text) :
    s.toJson.member? name =
      (Dictionary.get? name
        [ (ascii "ast", s.ast),
          (ascii "id", s.id.map Json.ofUInt64) ]).join := by
  apply Json.member?_object
  exact (by decide : [ascii "ast", ascii "id"].Nodup)

/- A source is decoded as it was encoded. -/
theorem ofJson_toJson
    (s : Source) :
    ofJson s.toJson = .ok s := by
  have hAst : s.toJson.member? (ascii "ast") = s.ast :=
    (member?_toJson s _).trans Option.join_some
  have hId :
      s.toJson.optional (ascii "id") decodeId =
        .ok (s.id.map fun n => n) :=
    Json.optional_of_member? decodeId_ofUInt64 (member?_toJson s _)
  unfold ofJson
  rw [hAst, hId, Option.map_id']
  rfl

end Source

------------------------------------------------------------
-- Contracts
------------------------------------------------------------

namespace MachineOutput

/- What the JSON of the output for the machine keeps of it. -/
def content (m : MachineOutput) : MachineOutput :=
  { m with assembly := m.assembly.map (Assembly.content true) }

/- The members of the encoded output for the machine. -/
theorem member?_toJson
    (m : MachineOutput)
    (name : Text) :
    m.toJson.member? name =
      (Dictionary.get? name
        [ (ascii "assembly", m.assemblyText.map Json.str),
          (ascii "bytecode", m.bytecode),
          (ascii "deployedBytecode", m.deployedBytecode),
          (ascii "legacyAssembly", m.assembly.map Assembly.toJson),
          (ascii "methodIdentifiers", m.methodIdentifiers) ]).join := by
  apply Json.member?_object
  exact (by decide :
    [ascii "assembly", ascii "bytecode", ascii "deployedBytecode",
      ascii "legacyAssembly", ascii "methodIdentifiers"].Nodup)

/- The JSON of an assembly is decoded as its content. -/
theorem decodeAssembly_of_member?
    {j : Json}
    {a : Option Assembly}
    (hMember :
      j.member? (ascii "legacyAssembly") = a.map Assembly.toJson) :
    decodeAssembly j = .ok (a.map (Assembly.content true)) := by
  unfold decodeAssembly
  rw [hMember]
  cases a with
  | none =>
      rfl
  | some a =>
      have hDecode := Assembly.ofJson_toJson a
      rcases Assembly.toJson_eq_obj a with ⟨members, hObject⟩
      rw [hObject] at hDecode
      rw [Option.map_some, hObject]
      exact congrArg (Except.map some) hDecode

/- The output for the machine is decoded as its content. -/
theorem ofJson_toJson
    (m : MachineOutput) :
    ofJson m.toJson = .ok m.content := by
  have hText :
      m.toJson.optionalString (ascii "assembly") =
        .ok m.assemblyText :=
    Json.optionalString_of_member? (member?_toJson m _)
  have hAssembly :
      decodeAssembly m.toJson =
        .ok (m.assembly.map (Assembly.content true)) :=
    decodeAssembly_of_member? (member?_toJson m _)
  have hBytecode :
      m.toJson.member? (ascii "bytecode") = m.bytecode :=
    (member?_toJson m _).trans Option.join_some
  have hDeployed :
      m.toJson.member? (ascii "deployedBytecode") =
        m.deployedBytecode :=
    (member?_toJson m _).trans Option.join_some
  have hMethods :
      m.toJson.member? (ascii "methodIdentifiers") =
        m.methodIdentifiers :=
    (member?_toJson m _).trans Option.join_some
  unfold ofJson
  rw [hText, hAssembly, hBytecode, hDeployed, hMethods]
  rfl

/- Nothing but its content is encoded of the output. -/
theorem toJson_content
    (m : MachineOutput) :
    m.content.toJson = m.toJson := by
  have hAssembly :
      Assembly.toJson ∘ Assembly.content true = Assembly.toJson := by
    funext a
    exact Assembly.encode_content true a
  unfold content toJson
  rw [Option.map_map, hAssembly]

end MachineOutput

namespace Contract

/- What the JSON of a contract keeps of it. -/
def content (c : Contract) : Contract :=
  { c with evm := c.evm.map MachineOutput.content }

/- The members of an encoded contract. -/
theorem member?_toJson
    (c : Contract)
    (name : Text) :
    c.toJson.member? name =
      (Dictionary.get? name
        [ (ascii "abi", c.abi),
          (ascii "devdoc", c.devdoc),
          (ascii "evm", c.evm.map MachineOutput.toJson),
          (ascii "factoryDependencies",
            c.factoryDependencies.map fun paths =>
              .obj
                (Dictionary.mapValues (fun _ path => .str path) paths)),
          (ascii "hash", c.hash.map .str),
          (ascii "irOptimized", c.irOptimized.map .str),
          (ascii "metadata", c.metadata),
          (ascii "storageLayout", c.storageLayout),
          (ascii "userdoc", c.userdoc) ]).join := by
  apply Json.member?_object
  exact (by decide :
    [ascii "abi", ascii "devdoc", ascii "evm",
      ascii "factoryDependencies", ascii "hash", ascii "irOptimized",
      ascii "metadata", ascii "storageLayout",
      ascii "userdoc"].Nodup)

theorem decodePaths_obj
    (paths : Dictionary Text) :
    decodePaths
        (.obj (Dictionary.mapValues (fun _ path => .str path) paths)) =
      .ok paths := by
  have hPaths :
      Dictionary.mapValues (fun _ path => path) paths = paths := by
    apply Dictionary.mapValues_eq_self
    intro entry hMember
    rfl
  unfold decodePaths Json.requireObject
  refine (Dictionary.traverse_mapValues ?_ paths).trans
    (congrArg Except.ok hPaths)
  intro key path
  rfl

/- A contract is decoded as its content. -/
theorem ofJson_toJson
    (c : Contract) :
    ofJson c.toJson = .ok c.content := by
  have hEvm :
      c.toJson.optional (ascii "evm") MachineOutput.ofJson =
        .ok (c.evm.map MachineOutput.content) :=
    Json.optional_of_member? MachineOutput.ofJson_toJson
      (member?_toJson c _)
  have hOptimized :
      c.toJson.optionalString (ascii "irOptimized") =
        .ok c.irOptimized :=
    Json.optionalString_of_member? (member?_toJson c _)
  have hHash : c.toJson.optionalString (ascii "hash") = .ok c.hash :=
    Json.optionalString_of_member? (member?_toJson c _)
  have hPaths :
      c.toJson.optional (ascii "factoryDependencies") decodePaths =
        .ok (c.factoryDependencies.map fun paths => paths) :=
    Json.optional_of_member? decodePaths_obj (member?_toJson c _)
  have hAbi : c.toJson.member? (ascii "abi") = c.abi :=
    (member?_toJson c _).trans Option.join_some
  have hMetadata :
      c.toJson.member? (ascii "metadata") = c.metadata :=
    (member?_toJson c _).trans Option.join_some
  have hDevdoc : c.toJson.member? (ascii "devdoc") = c.devdoc :=
    (member?_toJson c _).trans Option.join_some
  have hUserdoc : c.toJson.member? (ascii "userdoc") = c.userdoc :=
    (member?_toJson c _).trans Option.join_some
  have hLayout :
      c.toJson.member? (ascii "storageLayout") = c.storageLayout :=
    (member?_toJson c _).trans Option.join_some
  unfold ofJson
  rw [hEvm, hOptimized, hHash, hPaths, Option.map_id', hAbi,
    hMetadata, hDevdoc, hUserdoc, hLayout]
  rfl

/- Nothing but its content is encoded of a contract. -/
theorem toJson_content
    (c : Contract) :
    c.content.toJson = c.toJson := by
  have hEvm :
      MachineOutput.toJson ∘ MachineOutput.content =
        MachineOutput.toJson := by
    funext m
    exact MachineOutput.toJson_content m
  unfold content toJson
  rw [Option.map_map, hEvm]

/- A contract whose assembly has not been linked is its content. -/
theorem content_eq_self
    {c : Contract}
    (hUnlinked : ∀ a, c.assembly = some a → a.Unlinked) :
    c.content = c := by
  have hEvm : c.evm.map MachineOutput.content = c.evm := by
    cases hSome : c.evm with
    | none =>
        rfl
    | some m =>
        have hAssembly :
            m.assembly.map (Assembly.content true) = m.assembly := by
          cases hCode : m.assembly with
          | none =>
              rfl
          | some a =>
              have hFound : c.assembly = some a := by
                unfold assembly
                rw [hSome]
                exact hCode
              exact congrArg some
                (Assembly.content_eq_self (hUnlinked a hFound))
        rw [Option.map_some, MachineOutput.content, hAssembly]
  unfold content
  rw [hEvm]

end Contract

------------------------------------------------------------
-- Reports
------------------------------------------------------------

namespace Report

/- What the JSON of a report keeps of it. -/
def content (r : Report) : Report :=
  { r with
    contracts := r.contracts.map
      (ContractTable.mapContracts fun _ _ c => c.content) }

/- No assembly of the report has been linked. -/
def Unlinked (r : Report) : Prop :=
  ∀ file contracts, (file, contracts) ∈ r.contracts.getD [] →
    ∀ name c, (name, c) ∈ contracts →
      ∀ a, c.assembly = some a → a.Unlinked

/- Present diagnostics are encoded one by one. -/
theorem map_diagnosticsJson
    (r : Report) :
    (r.diagnostics.map fun _ => r.diagnosticsJson) =
      r.diagnostics.map fun diagnostics =>
        .arr (diagnostics.map Diagnostic.toJson) := by
  unfold diagnosticsJson
  cases r.diagnostics with
  | none => rfl
  | some diagnostics => rfl

/- The members of an encoded report. -/
theorem member?_toJson
    (r : Report)
    (name : Text) :
    r.toJson.member? name =
      (Dictionary.get? name
        [ (ascii "contracts",
            r.contracts.map fun table =>
              .obj
                (Dictionary.mapValues
                  (fun _ contracts =>
                    .obj
                      (Dictionary.mapValues
                        (fun _ contract => contract.toJson)
                        contracts))
                  table)),
          (ascii "errors",
            r.diagnostics.map fun _ => r.diagnosticsJson),
          (ascii "long_version", r.longVersion.map .str),
          (ascii "sources",
            r.sources.map fun sources =>
              .obj
                (Dictionary.mapValues
                  (fun _ source => source.toJson) sources)),
          (ascii "version", r.version.map .str),
          (ascii "zk_version", r.zkVersion.map .str) ]).join := by
  apply Json.member?_object
  exact (by decide :
    [ascii "contracts", ascii "errors", ascii "long_version",
      ascii "sources", ascii "version", ascii "zk_version"].Nodup)

/- Encoded contracts are decoded as what is kept of them. -/
theorem decodeContracts_obj
    (table : ContractTable) :
    decodeContracts
        (.obj
          (Dictionary.mapValues
            (fun _ contracts =>
              .obj
                (Dictionary.mapValues
                  (fun _ contract => contract.toJson) contracts))
            table)) =
      .ok (table.mapContracts fun _ _ c => c.content) := by
  unfold decodeContracts
  apply Dictionary.traverse_mapValues
  intro file contracts
  apply Dictionary.traverse_mapValues
  intro name c
  exact Contract.ofJson_toJson c

theorem decodeSources_obj
    (sources : Dictionary Source) :
    decodeSources
        (.obj
          (Dictionary.mapValues (fun _ source => source.toJson)
            sources)) =
      .ok sources := by
  have hSources :
      Dictionary.mapValues (fun _ source => source) sources =
        sources := by
    apply Dictionary.mapValues_eq_self
    intro entry hMember
    rfl
  unfold decodeSources
  refine (Dictionary.traverse_mapValues ?_ sources).trans
    (congrArg Except.ok hSources)
  intro key source
  exact Source.ofJson_toJson source

theorem decodeDiagnostics_arr
    (diagnostics : List Diagnostic) :
    decodeDiagnostics (.arr (diagnostics.map Diagnostic.toJson)) =
      .ok diagnostics := by
  exact mapM_map_eq_ok Diagnostic.ofJson_toJson diagnostics

/- The JSON of a report is decoded as its content. -/
theorem ofJson_toJson
    (r : Report) :
    ofJson r.toJson = .ok r.content := by
  have hContracts :
      r.toJson.optional (ascii "contracts") decodeContracts =
        .ok (r.contracts.map
          (ContractTable.mapContracts fun _ _ c => c.content)) :=
    Json.optional_of_member? decodeContracts_obj (member?_toJson r _)
  have hSources :
      r.toJson.optional (ascii "sources") decodeSources =
        .ok (r.sources.map fun sources => sources) :=
    Json.optional_of_member? decodeSources_obj (member?_toJson r _)
  have hErrors :
      r.toJson.member? (ascii "errors") =
        r.diagnostics.map fun diagnostics =>
          .arr (diagnostics.map Diagnostic.toJson) := by
    rw [member?_toJson, ← map_diagnosticsJson]
    exact Option.join_some
  have hDiagnostics :
      r.toJson.optional (ascii "errors") decodeDiagnostics =
        .ok (r.diagnostics.map fun diagnostics => diagnostics) :=
    Json.optional_of_member? decodeDiagnostics_arr hErrors
  have hVersion :
      r.toJson.optionalString (ascii "version") = .ok r.version :=
    Json.optionalString_of_member? (member?_toJson r _)
  have hLong :
      r.toJson.optionalString (ascii "long_version") =
        .ok r.longVersion :=
    Json.optionalString_of_member? (member?_toJson r _)
  have hZk :
      r.toJson.optionalString (ascii "zk_version") = .ok r.zkVersion :=
    Json.optionalString_of_member? (member?_toJson r _)
  unfold ofJson
  rw [hContracts, hSources, hDiagnostics, hVersion, hLong, hZk,
    Option.map_id', Option.map_id']
  rfl

/- Nothing but the content of the contracts is encoded. -/
theorem encodeContracts_content
    (table : ContractTable) :
    Dictionary.mapValues
        (fun _ contracts =>
          Json.obj
            (Dictionary.mapValues
              (fun _ contract => contract.toJson) contracts))
        (table.mapContracts fun _ _ c => c.content) =
      Dictionary.mapValues
        (fun _ contracts =>
          Json.obj
            (Dictionary.mapValues
              (fun _ contract => contract.toJson) contracts))
        table := by
  refine (congrFun (Dictionary.mapValues_comp _ _) table).trans ?_
  apply Dictionary.mapValues_congr
  intro file hFile
  apply congrArg Json.obj
  refine (congrFun (Dictionary.mapValues_comp _ _) file.2).trans ?_
  apply Dictionary.mapValues_congr
  intro named hName
  exact named.2.toJson_content

/- Nothing but its content is encoded of a report. -/
theorem toJson_content
    (r : Report) :
    r.content.toJson = r.toJson := by
  unfold content toJson
  dsimp only
  rw [Option.map_map]
  cases r.contracts with
  | none =>
      rfl
  | some table =>
      rw [Option.map_some, Option.map_some, Function.comp_apply,
        encodeContracts_content]
      rfl

/- A report which has not been linked is its content. -/
theorem content_eq_self
    {r : Report}
    (hUnlinked : r.Unlinked) :
    r.content = r := by
  have hContracts :
      r.contracts.map
          (ContractTable.mapContracts fun _ _ c => c.content) =
        r.contracts := by
    cases hSome : r.contracts with
    | none =>
        rfl
    | some table =>
        apply congrArg some
        apply Dictionary.mapValues_eq_self
        intro file hFile
        apply Dictionary.mapValues_eq_self
        intro named hName
        apply Contract.content_eq_self
        apply hUnlinked file.1 file.2 _ named.1 named.2 hName
        rw [hSome]
        exact hFile
  unfold content
  rw [hContracts]

/-
  A report which has not been linked is decoded as it was
  encoded. Every report, linked or not, is decoded as some
  report with the same JSON.
-/
theorem decode_encode
    (r : Report) :
    (r.Unlinked → ofJson r.toJson = .ok r) ∧
      ∃ decoded, ofJson r.toJson = .ok decoded ∧
        decoded.toJson = r.toJson := by
  constructor
  · intro hUnlinked
    rw [ofJson_toJson, content_eq_self hUnlinked]
  · exact ⟨r.content, ofJson_toJson r, toJson_content r⟩

/- A report with a nested assembly, a source and a warning. -/
def compiledReport : Report :=
  { contracts := some
      [ (ascii "a.sol",
          [ (ascii "A",
              { abi := some (.arr [])
                metadata := some .null
                devdoc := none
                userdoc := none
                storageLayout := none
                evm := some
                  { assembly := some Assembly.unlinkedSample
                    assemblyText := some []
                    methodIdentifiers := some (.obj [])
                    bytecode := none
                    deployedBytecode := none }
                irOptimized := none
                hash := none
                factoryDependencies := some
                  [(ascii "1", ascii "b.sol:B")] }) ]) ]
    sources := some
      [(ascii "a.sol", { id := some 0, ast := none })]
    diagnostics := some
      [Diagnostic.warning (ascii "unused") (some ⟨ascii "a.sol", -1, 5⟩)]
    version := some (ascii "0.8.20")
    longVersion := none
    zkVersion := none }

theorem decode_encode_compiledReport :
    compiledReport.Unlinked ∧
      ofJson compiledReport.toJson = .ok compiledReport := by
  have hRuntime :
      ∀ auxdata, (Assembly.runtimeSample auxdata).Unlinked := by
    intro auxdata
    constructor <;> simp [Assembly.runtimeSample]
  have hSample : Assembly.unlinkedSample.Unlinked := by
    constructor <;> simp [Assembly.unlinkedSample, hRuntime]
  have hUnlinked : compiledReport.Unlinked := by
    intro file contracts hFile name c hName a hAssembly
    cases List.mem_singleton.mp hFile
    cases List.mem_singleton.mp hName
    cases hAssembly
    exact hSample
  exact ⟨hUnlinked, (decode_encode compiledReport).1 hUnlinked⟩

end Report

end ContractLinker
