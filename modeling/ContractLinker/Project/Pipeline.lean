import ContractLinker.Text.Basic

/-
  Pipelines: which output of the compiler a project is built
  from.

  Key definitions include:
    * `Pipeline`
    * `Pipeline.name`
    * `Pipeline.ofName?`
-/

------------------------------------------------------------
-- Pipelines
------------------------------------------------------------

namespace ContractLinker

/- The optimized intermediate code or the assembly. -/
inductive Pipeline where
  | yul
  | evmla
deriving DecidableEq, Repr

namespace Pipeline

/- The pipeline which is used if none is asked for. -/
def default : Pipeline :=
  .yul

/- The name of a pipeline. -/
def name : Pipeline → Text
  | .yul => ascii "yul"
  | .evmla => ascii "evmla"

/- The pipeline of a name. -/
def ofName? (s : Text) : Option Pipeline :=
  if s = name .yul then some .yul
  else if s = name .evmla then some .evmla
  else none

end Pipeline

end ContractLinker
