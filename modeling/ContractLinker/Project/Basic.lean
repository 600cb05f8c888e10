import ContractLinker.Assembly.Encoding
import ContractLinker.Project.Libraries
import ContractLinker.Project.Pipeline
import ContractLinker.Project.Version
import ContractLinker.Yul.Object

/-
  Projects: the linked contracts of a report, ready for the
  next compiler.

  Key definitions include:
    * `ContractSource`
    * `ProjectContract`
    * `ProjectContract.factoryDependencies`
    * `Project`
    * `Project.contract?`
    * `Project.toJson`
-/

------------------------------------------------------------
-- Contracts
------------------------------------------------------------

namespace ContractLinker

/- What a contract is going to be compiled from. -/
inductive ContractSource where
  | yul (text : Text) (object : Yul.Object)
  | evmla (assembly : Assembly)

/- A contract of a project. -/
structure ProjectContract where
  path : Text
  source : ContractSource
  metadata : Json

namespace ProjectContract

/- The pipeline which a contract has come through. -/
def pipeline (c : ProjectContract) : Pipeline :=
  match c.source with
  | .yul _ _ => .yul
  | .evmla _ => .evmla

/- The contracts which a contract creates. -/
def factoryDependencies (c : ProjectContract) : TextSet :=
  match c.source with
  | .yul _ object => object.factoryDependencies
  | .evmla assembly => assembly.factoryDependencies

/- The assembly of a contract which has come through that pipeline. -/
def assembly? (c : ProjectContract) : Option Assembly :=
  match c.source with
  | .yul _ _ => none
  | .evmla assembly => some assembly

/- The object of a contract which has come through that pipeline. -/
def object? (c : ProjectContract) : Option Yul.Object :=
  match c.source with
  | .yul _ object => some object
  | .evmla _ => none

/- A contract as JSON. -/
def toJson (c : ProjectContract) : Json :=
  .object
    [ (ascii "factoryDependencies",
        some (.ofTexts c.factoryDependencies)),
      (ascii "legacyAssembly", c.assembly?.map Assembly.toJson),
      (ascii "metadata", some c.metadata),
      (ascii "object", c.object?.map Yul.Object.toJson),
      (ascii "path", some (.str c.path)),
      (ascii "pipeline", some (.str c.pipeline.name)) ]

end ProjectContract

------------------------------------------------------------
-- Projects
------------------------------------------------------------

/- The contracts of a project, by their full paths. -/
structure Project where
  version : Version
  contracts : Dictionary ProjectContract
  libraries : Libraries

namespace Project

/- The contract of a full path. -/
def contract? (p : Project) (path : Text) :
    Option ProjectContract :=
  p.contracts.get? path

/- A project as JSON. -/
def toJson (p : Project) : Json :=
  .object
    [ (ascii "contracts",
        some
          (.obj
            (Dictionary.mapValues
              (fun _ contract => contract.toJson) p.contracts))),
      (ascii "libraries",
        some
          (.obj
            (Dictionary.mapValues
              (fun _ names =>
                .obj
                  (Dictionary.mapValues
                    (fun _ address => .str address) names))
              p.libraries))),
      (ascii "version", some (.str p.version.render)) ]

end Project

end ContractLinker
