import ContractLinker.Assembly.Encoding

/-
  Contracts of a report. Members which the linker does not
  look into are kept as JSON, `null` included.

  Key definitions include:
    * `MachineOutput`
    * `Contract`
    * `Contract.assembly`
    * `Contract.passThroughMetadata`
    * `Contract.toJson`
    * `Contract.ofJson`
-/

------------------------------------------------------------
-- Output For The Machine
------------------------------------------------------------

namespace ContractLinker

/- What a report holds for a contract under `evm`. -/
structure MachineOutput where
  assembly : Option Assembly
  assemblyText : Option Text
  methodIdentifiers : Option Json
  bytecode : Option Json
  deployedBytecode : Option Json

namespace MachineOutput

/- The output for the machine as JSON. -/
def toJson (m : MachineOutput) : Json :=
  .object
    [ (ascii "assembly", m.assemblyText.map .str),
      (ascii "bytecode", m.bytecode),
      (ascii "deployedBytecode", m.deployedBytecode),
      (ascii "legacyAssembly", m.assembly.map Assembly.toJson),
      (ascii "methodIdentifiers", m.methodIdentifiers) ]

/- Decode the assembly, for which `null` is as good as nothing. -/
def decodeAssembly (j : Json) :
    Except DecodeError (Option Assembly) :=
  match j.member? (ascii "legacyAssembly") with
  | none | some .null => .ok none
  | some value => (Assembly.ofJson value).map some

/- Decode the output for the machine. -/
def ofJson (j : Json) : Except DecodeError MachineOutput := do
  let _ ← j.requireObject (ascii "evm")
  let assembly ← decodeAssembly j
  let assemblyText ← j.optionalString (ascii "assembly")
  return {
    assembly, assemblyText,
    methodIdentifiers := j.member? (ascii "methodIdentifiers")
    bytecode := j.member? (ascii "bytecode")
    deployedBytecode := j.member? (ascii "deployedBytecode")
  }

end MachineOutput

------------------------------------------------------------
-- Contracts
------------------------------------------------------------

/- What a report says about a contract. -/
structure Contract where
  abi : Option Json
  metadata : Option Json
  devdoc : Option Json
  userdoc : Option Json
  storageLayout : Option Json
  evm : Option MachineOutput
  irOptimized : Option Text
  hash : Option Text
  factoryDependencies : Option (Dictionary Text)

namespace Contract

/- The assembly of a contract, if the report has one. -/
def assembly (c : Contract) : Option Assembly :=
  c.evm.bind MachineOutput.assembly

/- Put another assembly in the place of the one there is. -/
def setAssembly (a : Assembly) (c : Contract) : Contract :=
  { c with
    evm := c.evm.map fun m => { m with assembly := some a } }

/- The members which a project takes over unchanged. -/
def passThroughMetadata (c : Contract) : Json :=
  .object
    [ (ascii "abi", c.abi),
      (ascii "devdoc", c.devdoc),
      (ascii "metadata", c.metadata),
      (ascii "methodIdentifiers",
        c.evm.bind MachineOutput.methodIdentifiers),
      (ascii "storageLayout", c.storageLayout),
      (ascii "userdoc", c.userdoc) ]

------------------------------------------------------------
-- Encoding
------------------------------------------------------------

/- A contract as JSON. -/
def toJson (c : Contract) : Json :=
  .object
    [ (ascii "abi", c.abi),
      (ascii "devdoc", c.devdoc),
      (ascii "evm", c.evm.map MachineOutput.toJson),
      (ascii "factoryDependencies",
        c.factoryDependencies.map fun paths =>
          .obj (Dictionary.mapValues (fun _ path => .str path) paths)),
      (ascii "hash", c.hash.map .str),
      (ascii "irOptimized", c.irOptimized.map .str),
      (ascii "metadata", c.metadata),
      (ascii "storageLayout", c.storageLayout),
      (ascii "userdoc", c.userdoc) ]

/- Decode a table of paths. -/
def decodePaths (j : Json) :
    Except DecodeError (Dictionary Text) := do
  let members ← j.requireObject (ascii "factoryDependencies")
  Dictionary.traverse
    (fun _ value =>
      match value with
      | .str path => .ok path
      | _ => .error .factoryDependency)
    members

/- Decode a contract. -/
def ofJson (j : Json) : Except DecodeError Contract := do
  let _ ← j.requireObject (ascii "contract")
  let evm ← j.optional (ascii "evm") MachineOutput.ofJson
  let irOptimized ← j.optionalString (ascii "irOptimized")
  let hash ← j.optionalString (ascii "hash")
  let factoryDependencies ←
    j.optional (ascii "factoryDependencies") decodePaths
  return {
    abi := j.member? (ascii "abi")
    metadata := j.member? (ascii "metadata")
    devdoc := j.member? (ascii "devdoc")
    userdoc := j.member? (ascii "userdoc")
    storageLayout := j.member? (ascii "storageLayout")
    evm, irOptimized, hash, factoryDependencies
  }

end Contract

end ContractLinker
