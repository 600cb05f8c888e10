import ContractLinker.Proofs.Files
import ContractLinker.Proofs.Project.IntermediateCode
import ContractLinker.Proofs.Text.Utf8
import Mathlib.Data.List.Forall2

/-
  Dumps of intermediate code. The file of a contract is named
  by its full path, but a slash and an underscore are written
  alike, and so are a colon and a dot. The file holds the
  code of the last contract which is dumped under its name,
  whatever other contracts a report has. Names are all that
  decides, since a tree of files has no links.

  Key definitions include:
    * `Dump.Alike`
    * `Dump.Shared`
    * `Report.LastDumped`

  Main statements:
    * `Dump.fileName_eq_iff`
    * `Dump.read_write`
    * `Dump.read_write_other`
    * `Report.read_dump_of_assemble`
    * `Report.not_forall_read_dump`
-/

------------------------------------------------------------
-- Names Of Files
------------------------------------------------------------

namespace ContractLinker

namespace Dump

/- Two bytes of full paths which are written alike. -/
def Alike (b c : UInt8) : Prop :=
  b = c ∨
    b ∈ ascii "/_" ∧ c ∈ ascii "/_" ∨
    b ∈ ascii ":." ∧ c ∈ ascii ":."

instance (b c : UInt8) : Decidable (Alike b c) :=
  inferInstanceAs (Decidable (_ ∨ _ ∨ _))

/- Two full paths whose dumps are the same file for the system. -/
def Shared (directory path path' : Text) : Prop :=
  FileTree.visible (Dump.path directory path) =
    FileTree.visible (Dump.path directory path')

/- The byte which is written for one of a full path. -/
def nameByte (b : UInt8) : UInt8 :=
  if (if b = '/'.toUInt8 then '_'.toUInt8 else b) = ':'.toUInt8 then
    '.'.toUInt8
  else
    if b = '/'.toUInt8 then '_'.toUInt8 else b

theorem fileName_eq_map
    (path : Text) :
    fileName path = path.map nameByte := by
  unfold fileName Text.replaceByte
  rw [List.map_map]
  rfl

/- Only two bytes are written as another one. -/
theorem nameByte_spec :
    ∀ b, (nameByte b = '_'.toUInt8 ↔ b ∈ ascii "/_") ∧
      (nameByte b = '.'.toUInt8 ↔ b ∈ ascii ":.") ∧
      (nameByte b = b ∨ nameByte b = '_'.toUInt8 ∨
        nameByte b = '.'.toUInt8) := by
  apply Utf8.forall_byte
  decide +kernel

theorem nameByte_eq_iff
    {b c : UInt8} :
    nameByte b = nameByte c ↔ Alike b c := by
  rcases nameByte_spec b with ⟨hSlash, hColon, hOther⟩
  rcases nameByte_spec c with ⟨hSlash', hColon', hOther'⟩
  constructor
  · intro hEq
    by_cases hUnderscore : nameByte b = '_'.toUInt8
    · exact Or.inr (Or.inl ⟨hSlash.mp hUnderscore,
        hSlash'.mp (hEq ▸ hUnderscore)⟩)
    · by_cases hDot : nameByte b = '.'.toUInt8
      · exact Or.inr (Or.inr ⟨hColon.mp hDot,
          hColon'.mp (hEq ▸ hDot)⟩)
      · have hSelf :=
          hOther.resolve_right fun h => h.elim hUnderscore hDot
        rw [hEq] at hUnderscore hDot
        have hSelf' :=
          hOther'.resolve_right fun h => h.elim hUnderscore hDot
        exact Or.inl (hSelf.symm.trans (hEq.trans hSelf'))
  · rintro (rfl | ⟨hB, hC⟩ | ⟨hB, hC⟩)
    · rfl
    · exact (hSlash.mpr hB).trans (hSlash'.mpr hC).symm
    · exact (hColon.mpr hB).trans (hColon'.mpr hC).symm

/- Names are the same if all bytes are written alike. -/
theorem fileName_eq_iff
    {path path' : Text} :
    fileName path = fileName path' ↔
      List.Forall₂ Alike path path' := by
  rw [fileName_eq_map, fileName_eq_map, ← List.forall₂_eq_eq_eq,
    List.forall₂_map_left_iff, List.forall₂_map_right_iff]
  simp only [nameByte_eq_iff]

------------------------------------------------------------
-- Single Dumps
------------------------------------------------------------

/- A directory with a slash behind it, if it needs one. -/
def folder (directory : Text) : Text :=
  within directory []

/- The name of a contract's file, with extension. -/
def dumpName (contractPath : Text) : Text :=
  fileName contractPath ++ ascii ".yul"

theorem path_eq
    (directory contractPath : Text) :
    path directory contractPath =
      folder directory ++ dumpName contractPath := by
  unfold path folder dumpName within
  split
  · rw [List.append_nil]
  · simp

theorem isFolder_folder
    (directory : Text) :
    FileTree.IsFolder (folder directory) := by
  unfold folder within
  split
  · next hClosed =>
      rw [List.append_nil]
      rw [Bool.or_eq_true, List.isEmpty_iff, decide_eq_true_iff]
        at hClosed
      rcases hClosed with hEmpty | hLast
      · exact Or.inl hEmpty
      · exact Or.inr (List.getLast?_eq_some_iff.mp hLast)
  · exact Or.inr ⟨directory, rfl⟩

theorem slash_notMem_dumpName
    (contractPath : Text) :
    FileTree.slash ∉ dumpName contractPath := by
  unfold dumpName
  rw [List.mem_append, not_or, fileName_eq_map]
  refine ⟨?_, by decide⟩
  intro hMember
  rcases List.mem_map.mp hMember with ⟨b, -, hByte⟩
  have hNone : ∀ b, nameByte b ≠ FileTree.slash := by
    apply Utf8.forall_byte
    decide +kernel
  exact hNone b hByte

/- What a dump does if nothing stops it. -/
theorem write_of_passes
    {directory contractPath code : Text}
    {t t' : FileTree}
    (hDump : Dump.write directory contractPath code t = (t', none)) :
    (t.createDirectories directory).1.write
        (path directory contractPath) code = (t', true) := by
  unfold Dump.write at hDump
  split at hDump
  · cases hDump
  · next made hMade =>
      rw [hMade]
      dsimp only at hDump ⊢
      split at hDump
      · cases hDump
      · next hWrite =>
          cases hDump
          exact hWrite

/- A dump is read as it was written. -/
theorem read_write
    {directory contractPath code : Text}
    {t t' : FileTree}
    (hDump : Dump.write directory contractPath code t = (t', none)) :
    t'.read (path directory contractPath) = .ok code := by
  exact FileTree.read_write (write_of_passes hDump)

/- Another dump leaves it alone, unless they share their file. -/
theorem read_write_other
    {directory contractPath contractPath' code code' : Text}
    {t t' : FileTree}
    (hApart : ¬ Shared directory contractPath contractPath')
    (hRead : t.read (path directory contractPath) = .ok code)
    (hDump :
      Dump.write directory contractPath' code' t = (t', none)) :
    t'.read (path directory contractPath) = .ok code := by
  have hWrite := write_of_passes hDump
  have hKept :=
    (FileTree.extends_createDirectories t directory).read hRead
  unfold Shared at hApart
  rw [path_eq] at hWrite hKept
  rw [path_eq, path_eq] at hApart
  rw [path_eq]
  exact FileTree.read_write_other (isFolder_folder directory)
    (slash_notMem_dumpName _) (slash_notMem_dumpName _) hApart hKept
    hWrite

/- No byte but the zero byte is written as a zero byte. -/
theorem zero_notMem_path
    {directory contractPath : Text}
    (hDirectory : 0 ∉ directory)
    (hPath : 0 ∉ contractPath) :
    0 ∉ path directory contractPath := by
  have hFolder : 0 ∉ folder directory := by
    unfold folder within
    split
    · rw [List.append_nil]
      exact hDirectory
    · rw [List.mem_append, not_or]
      exact ⟨hDirectory, by decide⟩
  have hName : 0 ∉ fileName contractPath := by
    have hOnly : ∀ b, nameByte b = 0 → b = 0 := by
      apply Utf8.forall_byte
      decide +kernel
    rw [fileName_eq_map]
    intro hMember
    rcases List.mem_map.mp hMember with ⟨b, hByte, hZero⟩
    exact hPath (hOnly b hZero ▸ hByte)
  rw [path_eq]
  unfold dumpName
  simp only [List.mem_append, not_or]
  exact ⟨hFolder, hName, by decide⟩

/- Without zero bytes, only paths that are written alike share a file. -/
theorem shared_iff
    {directory contractPath contractPath' : Text}
    (hDirectory : 0 ∉ directory)
    (hPath : 0 ∉ contractPath)
    (hPath' : 0 ∉ contractPath') :
    Shared directory contractPath contractPath' ↔
      List.Forall₂ Alike contractPath contractPath' := by
  unfold Shared
  rw [FileTree.visible_eq_self (zero_notMem_path hDirectory hPath),
    FileTree.visible_eq_self (zero_notMem_path hDirectory hPath'),
    path_eq, path_eq, List.append_cancel_left_eq, ← fileName_eq_iff]
  exact List.append_left_inj _

end Dump

------------------------------------------------------------
-- Dumps Of A Report
------------------------------------------------------------

namespace Report

/-
  A contract with code which no contract behind it with code
  shares the file of its dump with.
-/
structure LastDumped (r : Report) (directory file name : Text)
    (c : Contract) (text : Text) : Prop where
  contract : r.contract? file name = some c
  code : c.code? = some text
  last : ∀ file' name' c' text',
    r.contract? file' name' = some c' → c'.code? = some text' →
      ContractTable.Before file name file' name' →
        ¬ Dump.Shared directory (fullContractPath file name)
          (fullContractPath file' name')

end Report

namespace Assembling

/- A contract without code changes nothing. -/
theorem yulStep_of_code?_eq_none
    {c : Contract}
    (hCode : c.code? = none)
    (directory : Option Text)
    (path : Text)
    (s : Progress) :
    (yulStep directory path c s).2.1 = s := by
  unfold yulStep
  rcases Contract.code?_eq_none_iff.mp hCode with hNone | hEmpty
  · rw [hNone]
  · rw [hEmpty]

/- The code of a contract is dumped before it is parsed. -/
theorem dump_of_yulStep
    {c : Contract}
    {text : Text}
    (hCode : c.code? = some text)
    {directory path : Text}
    {s : Progress}
    (hPasses : (yulStep (some directory) path c s).2.2 = none) :
    Dump.write directory path text s.files =
      ((yulStep (some directory) path c s).2.1.files, none) := by
  rcases Contract.code?_eq_some_iff.mp hCode with ⟨hText, hNe⟩
  unfold yulStep at hPasses ⊢
  rw [hText] at hPasses ⊢
  cases text with
  | nil =>
      exact absurd rfl hNe
  | cons b text =>
      dsimp only [dump] at hPasses ⊢
      rcases hDump : Dump.write directory path (b :: text) s.files with
        ⟨files, failure⟩
      rw [hDump] at hPasses
      cases failure with
      | some e =>
          cases hPasses
      | none =>
          dsimp only at hPasses ⊢
          split <;> rfl

/- A project from intermediate code comes out of a loop which passes. -/
theorem passes_of_yul
    {r : Report}
    {libraries : Libraries}
    {version : Version}
    {directory : Option Text}
    {files : FileTree}
    {p : Project}
    (hProject :
      (r.assemble .yul libraries version directory files).project =
        .ok p) :
    ((r.contracts.getD []).advance (yulStep directory)
        ⟨[], files⟩).2.2 = none ∧
      (r.assemble .yul libraries version directory files).files =
        ((r.contracts.getD []).advance (yulStep directory)
          ⟨[], files⟩).2.1.files := by
  unfold Report.assemble yul at hProject ⊢
  dsimp only at hProject ⊢
  cases hContracts : r.contracts with
  | none =>
      rw [hContracts] at hProject
      cases hProject
  | some table =>
      rw [hContracts] at hProject
      rw [Option.getD_some]
      dsimp only at hProject ⊢
      generalize table.advance (yulStep directory) ⟨[], files⟩ =
        outcome at hProject ⊢
      rcases outcome with ⟨table', s, failure⟩
      cases failure with
      | some e => cases hProject
      | none => exact ⟨rfl, rfl⟩

/- A contract which is passed over or dumped elsewhere. -/
theorem read_of_yulStep
    {directory path path' text : Text}
    {c : Contract}
    (hApart : ∀ code, c.code? = some code →
      ¬ Dump.Shared directory path path')
    {s : Progress}
    (hRead : s.files.read (Dump.path directory path) = .ok text)
    (hPasses : (yulStep (some directory) path' c s).2.2 = none) :
    (yulStep (some directory) path' c s).2.1.files.read
        (Dump.path directory path) =
      .ok text := by
  cases hCode : c.code? with
  | none =>
      rw [yulStep_of_code?_eq_none hCode]
      exact hRead
  | some code =>
      exact Dump.read_write_other (hApart code hCode) hRead
        (dump_of_yulStep hCode hPasses)

end Assembling

namespace Report

/- The last contract which is dumped into a file has its code there. -/
theorem LastDumped.read
    {r : Report}
    (hOrdered : ContractTable.Ordered (r.contracts.getD []))
    {directory file name text : Text}
    {c : Contract}
    (hLast : r.LastDumped directory file name c text)
    {s : Assembling.Progress}
    (hPasses :
      ((r.contracts.getD []).advance
        (Assembling.yulStep (some directory)) s).2.2 = none) :
    ((r.contracts.getD []).advance
          (Assembling.yulStep (some directory)) s).2.1.files.read
        (Dump.path directory (fullContractPath file name)) =
      .ok text := by
  rcases List.append_of_mem
      ((ContractTable.mem_places_iff hOrdered).mpr hLast.contract)
    with ⟨front, back, hPlaces⟩
  have hBehind :
      ∀ place ∈ back,
        ContractTable.Before file name place.1.1 place.1.2 := by
    have hPairwise := ContractTable.pairwise_places hOrdered
    rw [hPlaces] at hPairwise
    exact (List.pairwise_cons.mp
      (List.pairwise_append.mp hPairwise).2.1).1
  rw [ContractTable.advance_toList,
    ContractTable.toList_eq_map_places, hPlaces, List.map_append,
    List.map_cons] at hPasses ⊢
  refine Dictionary.holds_of_advance
    (motive := fun s =>
      s.files.read
          (Dump.path directory (fullContractPath file name)) =
        .ok text) ?_ ?_ hPasses
  · intro s hStep
    exact Dump.read_write
      (Assembling.dump_of_yulStep hLast.code hStep)
  · intro entry hEntry s hRead hStep
    rcases List.mem_map.mp hEntry with
      ⟨⟨⟨file', name'⟩, c'⟩, hPlace, rfl⟩
    have hContract : r.contract? file' name' = some c' := by
      apply (ContractTable.mem_places_iff hOrdered).mp
      rw [hPlaces]
      simp [hPlace]
    refine Assembling.read_of_yulStep ?_ hRead hStep
    intro code hCode
    exact hLast.last file' name' c' code hContract hCode
      (hBehind _ hPlace)

/-
  After a project has been assembled with a directory for
  dumps, the file of a contract holds its code, unless a
  contract behind it has the same file. Two full paths with
  no zero byte have the same file just if they differ in
  nothing but slashes for underscores and colons for dots. A
  tree has no links, by which files of different names could
  be one.
-/
theorem read_dump_of_assemble
    {r : Report}
    (hOrdered : ContractTable.Ordered (r.contracts.getD []))
    {libraries : Libraries}
    {version : Version}
    {directory : Text}
    {files : FileTree}
    {p : Project}
    (hProject :
      (r.assemble .yul libraries version (some directory)
        files).project = .ok p) :
    (∀ file name c text, r.LastDumped directory file name c text →
        (r.assemble .yul libraries version (some directory)
              files).files.read
            (Dump.path directory (fullContractPath file name)) =
          .ok text) ∧
      ∀ path path' : Text,
        0 ∉ directory → 0 ∉ path → 0 ∉ path' →
          (Dump.Shared directory path path' ↔
            List.Forall₂ Dump.Alike path path') := by
  rcases Assembling.passes_of_yul hProject with ⟨hPasses, hFiles⟩
  constructor
  · intro file name c text hLast
    rw [hFiles]
    exact hLast.read hOrdered hPasses
  · intro path path' hDirectory hPath hPath'
    exact Dump.shared_iff hDirectory hPath hPath'

/- The code of another object in which nothing happens. -/
def otherSource : Text :=
  ascii "object \"B\" \x7b code \x7b\x7d \x7d"

/-
  A report with three contracts, of which the paths of the
  first two are written alike.
-/
def collidingReport : Report where
  contracts :=
    some
      [ (ascii "a/b.sol", [(ascii "C", coded idleSource)]),
        (ascii "a_b.sol", [(ascii "C", coded otherSource)]),
        (ascii "c.sol", [(ascii "D", coded idleSource)]) ]
  sources := none
  diagnostics := none
  version := none
  longVersion := none
  zkVersion := none

/- What is assembled from it, with dumps, in an empty directory. -/
def collidingOutcome : Assembling.Outcome :=
  collidingReport.assemble .yul [] ⟨0, 8, 20, [], []⟩
    (some (ascii "out")) ⟨[], []⟩

theorem ordered_collidingReport :
    ContractTable.Ordered (collidingReport.contracts.getD []) := by
  have hFiles :
      ascii "a/b.sol" < ascii "a_b.sol" ∧
        ascii "a/b.sol" < ascii "c.sol" ∧
        ascii "a_b.sol" < ascii "c.sol" := by
    decide
  refine ⟨by simpa [collidingReport, Dictionary.Ordered, and_assoc]
    using hFiles, ?_⟩
  intro file contracts hFile
  simp only [collidingReport, Option.getD_some, List.mem_cons,
    List.not_mem_nil, or_false] at hFile
  rcases hFile with hFile | hFile | hFile <;> cases hFile <;>
    exact List.pairwise_singleton _ _

/- The contracts of the report. -/
theorem contract?_collidingReport
    {file name : Text}
    {c : Contract}
    (hContract : collidingReport.contract? file name = some c) :
    (file = ascii "a/b.sol" ∨ file = ascii "a_b.sol") ∧
        name = ascii "C" ∨
      file = ascii "c.sol" ∧ name = ascii "D" := by
  rcases (ContractTable.contract?_eq_some_iff
      ordered_collidingReport).mp hContract with
    ⟨contracts, hFile, hName⟩
  simp only [collidingReport, Option.getD_some, List.mem_cons,
    List.not_mem_nil, or_false] at hFile
  rcases hFile with hFile | hFile | hFile <;> cases hFile <;>
    cases List.mem_singleton.mp hName
  · exact Or.inl ⟨Or.inl rfl, rfl⟩
  · exact Or.inl ⟨Or.inr rfl, rfl⟩
  · exact Or.inr ⟨rfl, rfl⟩

/- The dump of the second contract is all that is left of the two. -/
theorem collidingOutcome_spec :
    collidingOutcome.project.toOption.isSome = true ∧
      (collidingOutcome.files.read
          (Dump.path (ascii "out") (ascii "a/b.sol:C"))).toOption =
        some otherSource := by
  decide +kernel

theorem exists_project_collidingReport :
    ∃ p, collidingOutcome.project = .ok p := by
  have hSome := collidingOutcome_spec.1
  cases hProject : collidingOutcome.project with
  | error e =>
      rw [hProject] at hSome
      cases hSome
  | ok p => exact ⟨p, rfl⟩

/- A dump may be lost although no other contract has its full path. -/
theorem not_forall_read_dump :
    ¬ ∀ (r : Report) (libraries : Libraries) (version : Version)
        (directory : Text) (files : FileTree) (p : Project),
      ContractTable.Ordered (r.contracts.getD []) →
      (r.assemble .yul libraries version (some directory)
        files).project = .ok p →
      ∀ file name c text, r.contract? file name = some c →
        c.code? = some text →
        (∀ file' name' c', r.contract? file' name' = some c' →
          fullContractPath file' name' = fullContractPath file name →
            file' = file ∧ name' = name) →
        (r.assemble .yul libraries version (some directory)
              files).files.read
            (Dump.path directory (fullContractPath file name)) =
          .ok text := by
  intro hAll
  rcases exists_project_collidingReport with ⟨p, hProject⟩
  have hUnique :
      ∀ file' name' c',
        collidingReport.contract? file' name' = some c' →
          fullContractPath file' name' =
              fullContractPath (ascii "a/b.sol") (ascii "C") →
            file' = ascii "a/b.sol" ∧ name' = ascii "C" := by
    intro file' name' c' hContract hPath
    rcases contract?_collidingReport hContract with
      ⟨rfl | rfl, rfl⟩ | ⟨rfl, rfl⟩
    · exact ⟨rfl, rfl⟩
    · exact absurd hPath (by decide)
    · exact absurd hPath (by decide)
  have hRead :=
    hAll collidingReport [] ⟨0, 8, 20, [], []⟩ (ascii "out") ⟨[], []⟩
      p ordered_collidingReport hProject (ascii "a/b.sol")
      (ascii "C") (coded idleSource) idleSource rfl rfl hUnique
  have hLeft := collidingOutcome_spec.2
  unfold collidingOutcome at hLeft
  rw [show ascii "a/b.sol:C" =
    fullContractPath (ascii "a/b.sol") (ascii "C") from rfl, hRead]
    at hLeft
  exact absurd hLeft (by decide)

theorem lastDumped_collidingReport :
    collidingReport.LastDumped (ascii "out") (ascii "a_b.sol")
      (ascii "C") (coded otherSource) otherSource := by
  refine ⟨rfl, rfl, ?_⟩
  intro file' name' c' text' hContract _ hBefore
  rcases contract?_collidingReport hContract with
    ⟨rfl | rfl, rfl⟩ | ⟨rfl, rfl⟩
  · exact absurd hBefore (by decide)
  · exact absurd hBefore (by decide)
  · unfold Dump.Shared
    decide +kernel

theorem read_dump_collidingReport :
    ContractTable.Ordered (collidingReport.contracts.getD []) ∧
      (∃ p, collidingOutcome.project = .ok p) ∧
      collidingReport.LastDumped (ascii "out") (ascii "a_b.sol")
        (ascii "C") (coded otherSource) otherSource ∧
      collidingOutcome.files.read
          (Dump.path (ascii "out")
            (fullContractPath (ascii "a_b.sol") (ascii "C"))) =
        .ok otherSource ∧
      (0 ∉ ascii "out" ∧ 0 ∉ ascii "a/b.sol:C" ∧
        0 ∉ ascii "a_b.sol:C") ∧
      Dump.Shared (ascii "out") (ascii "a/b.sol:C")
        (ascii "a_b.sol:C") := by
  rcases exists_project_collidingReport with ⟨p, hProject⟩
  rcases read_dump_of_assemble ordered_collidingReport hProject with
    ⟨hRead, hShared⟩
  have hZero :
      0 ∉ ascii "out" ∧ 0 ∉ ascii "a/b.sol:C" ∧
        0 ∉ ascii "a_b.sol:C" := by
    decide
  have hAlike :
      List.Forall₂ Dump.Alike (ascii "a/b.sol:C")
        (ascii "a_b.sol:C") :=
    Dump.fileName_eq_iff.mp (by decide)
  exact ⟨ordered_collidingReport, ⟨p, hProject⟩,
    lastDumped_collidingReport,
    hRead _ _ _ _ lastDumped_collidingReport, hZero,
    (hShared _ _ hZero.1 hZero.2.1 hZero.2.2).mpr hAlike⟩

end Report

end ContractLinker
