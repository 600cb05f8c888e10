import ContractLinker.Report.Merging
import ContractLinker.Proofs.Ast.Findings
import Mathlib.Tactic.ByContra

/-
  Merging what an analysis finds into the diagnostics of a
  report. Either the findings in all syntax trees are put
  behind the diagnostics, each told where it belongs, or the
  report is as it was.

  Key definitions include:
    * `Report.trees`
    * `Diagnostic.Tagged`

  Main statements:
    * `Report.sourceDiagnostics_eq`
    * `Report.carryOut_merge`
    * `Report.merged_or_unchanged`
-/

------------------------------------------------------------
-- Tagged Diagnostics
------------------------------------------------------------

namespace ContractLinker

variable {ε : Type}

namespace Diagnostic

/-
  A diagnostic behind the one from which it was made by
  telling it the path of its source.
-/
structure Tagged (path : Text) (d d' : Diagnostic) : Prop where
  component : d'.component = d.component
  errorCode : d'.errorCode = d.errorCode
  message : d'.message = d.message
  severity : d'.severity = d.severity
  type : d'.type = d.type
  formattedMessage :
    d'.formattedMessage =
      d.formattedMessage ++ ascii "--> " ++ path ++ [Text.newline]
  sourceLocation :
    d'.sourceLocation =
      d.sourceLocation.map fun l => { l with file := path }

theorem tagged_pushPath
    (path : Text)
    (d : Diagnostic) :
    Tagged path d (pushPath path d) where
  component := rfl
  errorCode := rfl
  message := rfl
  severity := rfl
  type := rfl
  formattedMessage := by simp [pushPath]
  sourceLocation := rfl

theorem forall₂_tagged_pushPath
    (path : Text)
    (ds : List Diagnostic) :
    List.Forall₂ (Tagged path) ds (ds.map (pushPath path)) := by
  rw [List.forall₂_map_right_iff, List.forall₂_same]
  intro d _
  exact tagged_pushPath path d

end Diagnostic

namespace Report

open Diagnostic (Tagged)

------------------------------------------------------------
-- Trees
------------------------------------------------------------

/- The syntax trees of some sources, each with its path. -/
def treesOf (sources : Dictionary Source) : List (Text × Json) :=
  sources.filterMap fun (path, source) =>
    source.ast.map fun ast => (path, ast)

/- The syntax trees of a report. -/
def trees (r : Report) : List (Text × Json) :=
  treesOf (r.sources.getD [])

theorem mem_treesOf_iff
    {sources : Dictionary Source}
    {path : Text}
    {ast : Json} :
    (path, ast) ∈ treesOf sources ↔
      ∃ source, (path, source) ∈ sources ∧ source.ast = some ast := by
  unfold treesOf
  rw [List.mem_filterMap]
  constructor
  · rintro ⟨⟨path', source⟩, hEntry, hTree⟩
    rcases Option.map_eq_some_iff.mp hTree with ⟨ast', hAst, hEq⟩
    cases hEq
    exact ⟨source, hEntry, hAst⟩
  · rintro ⟨source, hEntry, hAst⟩
    exact ⟨(path, source), hEntry, by simp [hAst]⟩

theorem mem_trees_iff
    {r : Report}
    {path : Text}
    {ast : Json} :
    (path, ast) ∈ trees r ↔
      ∃ sources source, r.sources = some sources ∧
        (path, source) ∈ sources ∧ source.ast = some ast := by
  unfold trees
  rw [mem_treesOf_iff]
  cases r.sources with
  | none => simp
  | some sources => simp

/- Trees are met in the byte order of their paths. -/
theorem pairwise_treesOf
    {sources : Dictionary Source}
    (hOrdered : sources.Ordered) :
    (treesOf sources).Pairwise fun x y => x.1 < y.1 := by
  apply List.Pairwise.filterMap _ _ hOrdered
  rintro ⟨path, source⟩ ⟨path', source'⟩ hLess
  intro tree hTree tree' hTree'
  rcases Option.map_eq_some_iff.mp hTree with ⟨ast, -, rfl⟩
  rcases Option.map_eq_some_iff.mp hTree' with ⟨ast', -, rfl⟩
  exact hLess

------------------------------------------------------------
-- Findings
------------------------------------------------------------

/- What an analysis finds in a tree, told where it belongs. -/
def treeDiagnostics
    (analyse : Json → Except ε (List Diagnostic))
    (tree : Text × Json) :
    Except ε (List Diagnostic) :=
  (analyse tree.2).map fun ds =>
    ds.map (Diagnostic.pushPath tree.1)

/- Sources are analysed tree by tree. -/
theorem sourceDiagnostics_eq
    (analyse : Json → Except ε (List Diagnostic))
    (sources : Dictionary Source) :
    sourceDiagnostics analyse sources =
      ((treesOf sources).mapM (treeDiagnostics analyse)).map
        List.flatten := by
  induction sources with
  | nil =>
      rfl
  | cons entry sources ih =>
      rcases entry with ⟨path, id, ast⟩
      rw [sourceDiagnostics, ih]
      cases ast with
      | none =>
          have hTrees :
              treesOf ((path, ⟨id, none⟩) :: sources) =
                treesOf sources := by
            rfl
          rw [hTrees]
          cases (treesOf sources).mapM (treeDiagnostics analyse) with
          | error e => rfl
          | ok parts => rfl
      | some ast =>
          have hTrees :
              treesOf ((path, ⟨id, some ast⟩) :: sources) =
                (path, ast) :: treesOf sources := by
            rfl
          rw [hTrees, List.mapM_cons, treeDiagnostics]
          dsimp only
          cases analyse ast with
          | error e => rfl
          | ok ds =>
              cases (treesOf sources).mapM
                  (treeDiagnostics analyse) with
              | error e => rfl
              | ok parts => rfl

theorem treeDiagnostics_eq_ok_iff
    {analyse : Json → Except ε (List Diagnostic)}
    {tree : Text × Json}
    {part : List Diagnostic} :
    treeDiagnostics analyse tree = .ok part ↔
      ∃ ds, analyse tree.2 = .ok ds ∧
        ds.map (Diagnostic.pushPath tree.1) = part := by
  exact map_eq_ok_iff

theorem treeDiagnostics_eq_error_iff
    {analyse : Json → Except ε (List Diagnostic)}
    {tree : Text × Json}
    {e : ε} :
    treeDiagnostics analyse tree = .error e ↔
      analyse tree.2 = .error e := by
  unfold treeDiagnostics
  cases analyse tree.2 with
  | error e' => simp [Except.map]
  | ok ds => simp [Except.map]

/-
  If all trees are analysed, the findings of each of them are
  told its path, and they stand in the order of the trees.
-/
theorem sourceDiagnostics_of_passes
    {analyse : Json → Except ε (List Diagnostic)}
    {sources : Dictionary Source}
    (hPasses : ∀ tree ∈ treesOf sources,
      ∃ ds, analyse tree.2 = .ok ds) :
    ∃ parts,
      List.Forall₂
        (fun tree part => ∃ ds, analyse tree.2 = .ok ds ∧
          List.Forall₂ (Tagged tree.1) ds part)
        (treesOf sources) parts ∧
      sourceDiagnostics analyse sources = .ok parts.flatten := by
  have hParts :
      ∃ parts,
        List.Forall₂
          (fun tree part => treeDiagnostics analyse tree = .ok part)
          (treesOf sources) parts := by
    rw [exists_forall₂_iff]
    intro tree hMember
    rcases hPasses tree hMember with ⟨ds, hAnalyse⟩
    exact ⟨_, treeDiagnostics_eq_ok_iff.mpr ⟨ds, hAnalyse, rfl⟩⟩
  rcases hParts with ⟨parts, hParts⟩
  refine ⟨parts, hParts.imp ?_, ?_⟩
  · intro tree part hPart
    rcases treeDiagnostics_eq_ok_iff.mp hPart with
      ⟨ds, hAnalyse, rfl⟩
    exact ⟨ds, hAnalyse, Diagnostic.forall₂_tagged_pushPath _ ds⟩
  · rw [sourceDiagnostics_eq, mapM_eq_ok_iff.mpr hParts]
    rfl

/- Otherwise the first tree which is not analysed is told of. -/
theorem sourceDiagnostics_of_fails
    {analyse : Json → Except ε (List Diagnostic)}
    {sources : Dictionary Source}
    (hFails : ∃ tree ∈ treesOf sources,
      ∃ e, analyse tree.2 = .error e) :
    ∃ front tree back e,
      treesOf sources = front ++ tree :: back ∧
      (∀ t ∈ front, ∃ ds, analyse t.2 = .ok ds) ∧
      analyse tree.2 = .error e ∧
      sourceDiagnostics analyse sources = .error e := by
  rw [sourceDiagnostics_eq]
  cases hParts : (treesOf sources).mapM (treeDiagnostics analyse) with
  | ok parts =>
      rcases hFails with ⟨tree, hMember, e, hError⟩
      rcases exists_right_of_forall₂ (mapM_eq_ok_iff.mp hParts)
          hMember with ⟨part, -, hPart⟩
      rw [← treeDiagnostics_eq_error_iff, hPart] at hError
      cases hError
  | error e =>
      rcases mapM_eq_error_iff.mp hParts with
        ⟨front, tree, back, hSplit, hFront, hError⟩
      refine ⟨front, tree, back, e, hSplit, ?_,
        treeDiagnostics_eq_error_iff.mp hError, rfl⟩
      intro t hMember
      rcases hFront t hMember with ⟨part, hPart⟩
      rcases treeDiagnostics_eq_ok_iff.mp hPart with
        ⟨ds, hAnalyse, -⟩
      exact ⟨ds, hAnalyse⟩

------------------------------------------------------------
-- Changes
------------------------------------------------------------

section Changes

variable {α β : Type}

@[simp]
theorem carryOut_get
    (r : Report) :
    carryOut (get : Change ε Report) r = (.ok r, r) := by
  rfl

@[simp]
theorem carryOut_modify
    (f : Report → Report)
    (r : Report) :
    carryOut (modify f : Change ε Unit) r = (.ok (), f r) := by
  rfl

@[simp]
theorem carryOut_ofExcept
    (outcome : Except ε α)
    (r : Report) :
    carryOut (ofExcept outcome : Change ε α) r = (outcome, r) := by
  cases outcome with
  | error e => rfl
  | ok a => rfl

/- The second of two changes begins where the first ends. -/
theorem carryOut_bind
    (change : Change ε α)
    (next : α → Change ε β)
    (r : Report) :
    carryOut (change >>= next) r =
      match carryOut change r with
      | (.ok a, r') => carryOut (next a) r'
      | (.error e, r') => (.error e, r') := by
  change carryOut (ExceptT.bind change next) r = _
  simp only [carryOut, ExceptT.bind, ExceptT.run, ExceptT.mk,
    StateT.run, bind, StateT.bind]
  cases change r with
  | mk outcome r' =>
      cases outcome <;> rfl

/- Put diagnostics behind those of a report one by one. -/
theorem carryOut_forM_addDiagnostic
    (found : List Diagnostic)
    (r : Report) :
    carryOut
        (found.forM fun d => modify (addDiagnostic d) :
          Change ε Unit) r =
      (.ok (),
        { r with
          diagnostics := r.diagnostics.map fun ds => ds ++ found }) := by
  induction found generalizing r with
  | nil =>
      have hSame :
          r.diagnostics.map (fun ds => ds ++ []) = r.diagnostics := by
        simp
      rw [hSame]
      rfl
  | cons d found ih =>
      rw [List.forM, carryOut_bind, carryOut_modify]
      dsimp only
      rw [ih]
      simp [addDiagnostic, Function.comp_def]

/-
  A report without sources stays as it is, and so does one
  with a tree which cannot be analysed.
-/
theorem carryOut_merge
    (analyse : Json → Except ε (List Diagnostic))
    (r : Report) :
    carryOut (merge analyse) r =
      match r.sources.map (sourceDiagnostics analyse) with
      | none => (.ok (), r)
      | some (.error e) => (.error e, r)
      | some (.ok found) =>
          (.ok (),
            { r with
              diagnostics := some (r.diagnostics.getD [] ++ found) }) := by
  unfold merge
  rw [carryOut_bind, carryOut_get]
  dsimp only
  cases hSources : r.sources with
  | none => rfl
  | some sources =>
      rw [carryOut_bind, carryOut_ofExcept]
      cases hFound : sourceDiagnostics analyse sources with
      | error e =>
          simp only [Option.map_some, hFound]
      | ok found =>
          simp only [Option.map_some, hFound]
          rw [carryOut_bind, carryOut_modify, ← hSources]
          exact carryOut_forM_addDiagnostic found (openDiagnostics r)

end Changes

------------------------------------------------------------
-- Outcomes
------------------------------------------------------------

/-
  A report with what an analysis finds in the trees of another
  one, tree by tree, behind the diagnostics of that.
-/
def Merged (analyse : Json → Except ε (List Diagnostic))
    (r r' : Report) : Prop :=
  ∃ parts,
    List.Forall₂
      (fun tree part => ∃ ds, analyse tree.2 = .ok ds ∧
        List.Forall₂ (Tagged tree.1) ds part)
      r.trees parts ∧
    r' = { r with
      diagnostics := some (r.diagnostics.getD [] ++ parts.flatten) }

variable
  {analyse : Json → Except ε (List Diagnostic)}
  {r : Report}

theorem trees_eq
    {sources : Dictionary Source}
    (hSources : r.sources = some sources) :
    r.trees = treesOf sources := by
  rw [trees, hSources]
  rfl

theorem merged_of_passes
    (hSome : r.sources ≠ none)
    (hPasses : ∀ tree ∈ r.trees, ∃ ds, analyse tree.2 = .ok ds) :
    ∃ r', carryOut (merge analyse) r = (.ok (), r') ∧
      Merged analyse r r' := by
  rcases Option.ne_none_iff_exists'.mp hSome with
    ⟨sources, hSources⟩
  rw [trees_eq hSources] at hPasses
  rcases sourceDiagnostics_of_passes hPasses with
    ⟨parts, hParts, hFound⟩
  rw [← trees_eq hSources] at hParts
  refine ⟨_, ?_, parts, hParts, rfl⟩
  rw [carryOut_merge, hSources, Option.map_some, hFound, ← hSources]

theorem unchanged_of_fails
    (hFails : ∃ tree ∈ r.trees, ∃ e, analyse tree.2 = .error e) :
    ∃ front tree back e,
      r.trees = front ++ tree :: back ∧
      (∀ t ∈ front, ∃ ds, analyse t.2 = .ok ds) ∧
      analyse tree.2 = .error e ∧
      carryOut (merge analyse) r = (.error e, r) := by
  cases hSources : r.sources with
  | none =>
      rcases hFails with ⟨tree, hMember, -⟩
      rw [trees, hSources] at hMember
      cases hMember
  | some sources =>
      rw [trees_eq hSources] at hFails ⊢
      rcases sourceDiagnostics_of_fails hFails with
        ⟨front, tree, back, e, hSplit, hFront, hError, hFound⟩
      refine ⟨front, tree, back, e, hSplit, hFront, hError, ?_⟩
      rw [carryOut_merge, hSources, Option.map_some, hFound]

theorem unchanged_of_none
    (hNone : r.sources = none) :
    carryOut (merge analyse) r = (.ok (), r) := by
  rw [carryOut_merge, hNone]
  rfl

theorem unchanged_or_merged
    (analyse : Json → Except ε (List Diagnostic))
    (r : Report) :
    (carryOut (merge analyse) r).2 = r ∨
      Merged analyse r (carryOut (merge analyse) r).2 := by
  by_cases hSome : r.sources = none
  · rw [unchanged_of_none hSome]
    exact Or.inl rfl
  · by_cases hFails :
        ∃ tree ∈ r.trees, ∃ e, analyse tree.2 = .error e
    · rcases unchanged_of_fails hFails with
        ⟨front, tree, back, e, -, -, -, hCarryOut⟩
      rw [hCarryOut]
      exact Or.inl rfl
    · have hPasses :
          ∀ tree ∈ r.trees, ∃ ds, analyse tree.2 = .ok ds := by
        intro tree hMember
        by_contra hNone
        exact hFails ⟨tree, hMember, exists_error_iff.mpr hNone⟩
      rcases merged_of_passes hSome hPasses with
        ⟨r', hCarryOut, hMerged⟩
      rw [hCarryOut]
      exact Or.inr hMerged

------------------------------------------------------------
-- Findings In Syntax Trees
------------------------------------------------------------

/-
  A diagnostic of a report which tells of a finding in one of
  its trees. The location names the source of the tree.
-/
def Placed (r : Report) (d : Diagnostic) : Prop :=
  ∃ path ast ds d₀, (path, ast) ∈ r.trees ∧
    Ast.diagnostics ast = .ok ds ∧ d₀ ∈ ds ∧ Tagged path d₀ d ∧
    ∃ l, d.sourceLocation = some l ∧ l.file = path

/- What tells of a finding does not forbid to go on. -/
theorem isError_of_placed
    {d : Diagnostic}
    (hPlaced : Placed r d) :
    d.isError = false := by
  rcases hPlaced with ⟨path, ast, ds, d₀, -, hResult, hMember,
    hTagged, -⟩
  rcases Ast.warning_of_diagnostics hResult hMember with
    ⟨message, l, rfl⟩
  rw [Diagnostic.isError, hTagged.severity]
  rfl

/- Every diagnostic which was merged tells of a finding. -/
theorem placed_of_merged
    {r' : Report}
    (hMerged : Merged Ast.diagnostics r r')
    {added : List Diagnostic}
    (hAdded : r'.diagnostics.getD [] = r.diagnostics.getD [] ++ added)
    {d : Diagnostic}
    (hMember : d ∈ added) :
    Placed r d := by
  rcases hMerged with ⟨parts, hParts, rfl⟩
  rw [Option.getD_some, List.append_cancel_left_eq] at hAdded
  rw [← hAdded, List.mem_flatten] at hMember
  rcases hMember with ⟨part, hPart, hMember⟩
  rcases exists_left_of_forall₂ hParts hPart with
    ⟨⟨path, ast⟩, hTree, ds, hResult, hTagged⟩
  rcases exists_left_of_forall₂ hTagged hMember with
    ⟨d₀, hFound, hTag⟩
  rcases Ast.warning_of_diagnostics hResult hFound with
    ⟨message, l, hWarning⟩
  have hLocation := hTag.sourceLocation
  rw [hWarning] at hLocation
  exact ⟨path, ast, ds, d₀, hTree, hResult, hFound, hTag, _,
    hLocation, rfl⟩

theorem hasErrors_of_merged
    {r' : Report}
    (hMerged : Merged Ast.diagnostics r r') :
    r'.hasErrors = r.hasErrors := by
  have hAll := hMerged
  rcases hMerged with ⟨parts, -, rfl⟩
  have hHarmless : parts.flatten.any Diagnostic.isError = false := by
    rw [List.any_eq_false]
    intro d hMember hError
    have hPlaced := placed_of_merged hAll rfl hMember
    rw [isError_of_placed hPlaced] at hError
    cases hError
  unfold hasErrors
  rw [Option.getD_some, List.any_append, hHarmless, Bool.or_false]

/-
  Merging puts the findings in all trees behind the diagnostics
  of a report, in the order of the paths, or it leaves the
  report as it was. What is found in syntax trees never forbids
  to go on, and names the source where it was found.
-/
theorem merged_or_unchanged
    (analyse : Json → Except ε (List Diagnostic))
    (hOrdered : Dictionary.Ordered (r.sources.getD [])) :
    (r.trees.Pairwise fun x y => x.1 < y.1) ∧
      (∀ path ast, (path, ast) ∈ r.trees ↔
        ∃ sources source, r.sources = some sources ∧
          (path, source) ∈ sources ∧ source.ast = some ast) ∧
      (r.sources = none →
        carryOut (merge analyse) r = (.ok (), r)) ∧
      ((∃ tree ∈ r.trees, ∃ e, analyse tree.2 = .error e) →
        ∃ front tree back e,
          r.trees = front ++ tree :: back ∧
          (∀ t ∈ front, ∃ ds, analyse t.2 = .ok ds) ∧
          analyse tree.2 = .error e ∧
          carryOut (merge analyse) r = (.error e, r)) ∧
      (r.sources ≠ none →
        (∀ tree ∈ r.trees, ∃ ds, analyse tree.2 = .ok ds) →
        ∃ r', carryOut (merge analyse) r = (.ok (), r') ∧
          Merged analyse r r') ∧
      (carryOut (merge Ast.diagnostics) r).2.hasErrors =
        r.hasErrors ∧
      ∀ added,
        (carryOut (merge Ast.diagnostics) r).2.diagnostics.getD [] =
          r.diagnostics.getD [] ++ added →
        ∀ d ∈ added, Placed r d := by
  refine ⟨pairwise_treesOf hOrdered, fun path ast => mem_trees_iff,
    unchanged_of_none, unchanged_of_fails, merged_of_passes, ?_, ?_⟩
  · rcases unchanged_or_merged Ast.diagnostics r with hSame | hMerged
    · rw [hSame]
    · exact hasErrors_of_merged hMerged
  · intro added hAdded d hMember
    rcases unchanged_or_merged Ast.diagnostics r with hSame | hMerged
    · rw [hSame, List.self_eq_append_right] at hAdded
      rw [hAdded] at hMember
      cases hMember
    · exact placed_of_merged hMerged hAdded hMember

/-
  Two sources with a flagged tree each, and one without a tree
  between them. The span in the last tree is given.
-/
def flaggedReport (span : String) : Report where
  contracts := none
  sources :=
    some
      [ (ascii "a.sol", ⟨none, some (Ast.recoveryCall "14:9:0")⟩),
        (ascii "b.sol", ⟨none, none⟩),
        (ascii "c.sol", ⟨none, some (Ast.recoveryCall span)⟩) ]
  diagnostics := none
  version := none
  longVersion := none
  zkVersion := none

theorem merged_flaggedReport :
    Dictionary.Ordered ((flaggedReport "3:1:0").sources.getD []) ∧
      (∃ r', carryOut (merge Ast.diagnostics)
          (flaggedReport "3:1:0") = (.ok (), r') ∧
        Merged Ast.diagnostics (flaggedReport "3:1:0") r' ∧
        (r'.diagnostics.getD []).map
            (fun d => d.sourceLocation.map SourceLocation.file) =
          [ some (ascii "a.sol"), some (ascii "a.sol"),
            some (ascii "c.sol"), some (ascii "c.sol") ]) ∧
      Dictionary.Ordered ((flaggedReport "3:1").sources.getD []) ∧
      ∃ e, carryOut (merge Ast.diagnostics) (flaggedReport "3:1") =
        (.error e, flaggedReport "3:1") := by
  have hOrdered :
      Dictionary.Ordered
        ((flaggedReport "3:1:0").sources.getD []) := by
    decide
  have hOrdered' :
      Dictionary.Ordered ((flaggedReport "3:1").sources.getD []) := by
    decide
  have hPasses :
      ∀ tree ∈ (flaggedReport "3:1:0").trees,
        ∃ ds, Ast.diagnostics tree.2 = .ok ds := by
    change ∀ tree ∈ [_, _], _
    simp only [List.forall_mem_cons]
    exact ⟨⟨_, rfl⟩, ⟨_, rfl⟩, by simp⟩
  have hFiles :
      ((carryOut (merge Ast.diagnostics)
          (flaggedReport "3:1:0")).2.diagnostics.getD []).map
            (fun d => d.sourceLocation.map SourceLocation.file) =
        [ some (ascii "a.sol"), some (ascii "a.sol"),
          some (ascii "c.sol"), some (ascii "c.sol") ] := by
    rfl
  rcases merged_or_unchanged Ast.diagnostics hOrdered with
    ⟨-, -, -, -, hMerges, -, -⟩
  rcases merged_or_unchanged Ast.diagnostics hOrdered' with
    ⟨-, -, -, hFails, -, -, -⟩
  rcases hMerges (by decide) hPasses with ⟨r', hCarryOut, hMerged⟩
  rw [hCarryOut] at hFiles
  rcases hFails
      ⟨(ascii "c.sol", Ast.recoveryCall "3:1"),
        List.mem_cons_of_mem _ List.mem_cons_self, _, rfl⟩ with
    ⟨front, tree, back, e, -, -, -, hUnchanged⟩
  exact ⟨hOrdered, ⟨r', hCarryOut, hMerged, hFiles⟩, hOrdered', e,
    hUnchanged⟩

end Report

end ContractLinker
