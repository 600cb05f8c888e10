import ContractLinker.Ast.Finding
import ContractLinker.Report.Basic

/-
  Merging the findings in the syntax trees of a report into
  its diagnostics. All trees are analysed before the report
  is changed.

  Key definitions include:
    * `Report.Change`
    * `Report.carryOut`
    * `Report.sourceDiagnostics`
    * `Report.merge`
    * `Report.mergeDiagnostics`
-/

------------------------------------------------------------
-- Changes
------------------------------------------------------------

namespace ContractLinker

namespace Report

variable {ε α : Type}

/- A change of a report. If it fails, what was changed stays so. -/
abbrev Change (ε α : Type) :=
  ExceptT ε (StateM Report) α

/- Carry out a change. -/
def carryOut (change : Change ε α) (r : Report) :
    Except ε α × Report :=
  StateT.run (ExceptT.run change) r

/- Give a report a list of diagnostics if it has none. -/
def openDiagnostics (r : Report) : Report :=
  { r with diagnostics := some (r.diagnostics.getD []) }

/- Put a diagnostic behind those of a report. -/
def addDiagnostic (d : Diagnostic) (r : Report) : Report :=
  { r with diagnostics := r.diagnostics.map fun ds => ds ++ [d] }

------------------------------------------------------------
-- Diagnostics Of Sources
------------------------------------------------------------

/-
  What an analysis finds in the trees of some sources, each
  diagnostic with the path of its source.
-/
def sourceDiagnostics
    (analyse : Json → Except ε (List Diagnostic)) :
    Dictionary Source → Except ε (List Diagnostic)
  | [] => .ok []
  | (path, source) :: rest => do
      let found ←
        match source.ast with
        | none => .ok []
        | some ast => analyse ast
      let others ← sourceDiagnostics analyse rest
      return found.map (Diagnostic.pushPath path) ++ others

/-
  Append what an analysis finds to the diagnostics of a
  report. A report without sources stays as it is.
-/
def merge (analyse : Json → Except ε (List Diagnostic)) :
    Change ε Unit := do
  match (← get).sources with
  | none => return
  | some sources =>
      let found ← ofExcept (sourceDiagnostics analyse sources)
      modify openDiagnostics
      found.forM fun d => modify (addDiagnostic d)

/- A report with what an analysis finds in it. -/
def mergeDiagnostics
    (analyse : Json → Except ε (List Diagnostic)) (r : Report) :
    Except ε Report :=
  match carryOut (merge analyse) r with
  | (.ok _, r') => .ok r'
  | (.error e, _) => .error e

end Report

end ContractLinker
