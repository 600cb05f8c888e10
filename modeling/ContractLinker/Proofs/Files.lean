import ContractLinker.Files
import ContractLinker.Proofs.Dictionary
import ContractLinker.Proofs.Text.Cutting

/-
  What is in a tree of files after something is written to
  it. Creating directories leaves everything as it is, and
  writing a file all directories. Two files in one directory
  are apart if their paths are, as far as they are followed,
  and then writing one of them leaves the other alone.

  Key definitions include:
    * `FileTree.KeepsDirectories`
    * `FileTree.Extends`
    * `FileTree.visible`
    * `FileTree.next?`
    * `FileTree.IsFolder`

  Main statements:
    * `FileTree.extends_createDirectories`
    * `FileTree.read_write`
    * `FileTree.join_ne_of_follow`
    * `FileTree.read_write_other`
-/

------------------------------------------------------------
-- Names Of Nodes
------------------------------------------------------------

namespace ContractLinker

namespace FileTree

/- The last name stands behind a slash, if there are others. -/
theorem join_concat
    (names : List Text)
    (name : Text) :
    join (names ++ [name]) =
      if names = [] then name else join names ++ slash :: name := by
  induction names with
  | nil =>
      rfl
  | cons first names ih =>
      rw [if_neg (List.cons_ne_nil first names)]
      cases names with
      | nil => rfl
      | cons next names =>
          rw [if_neg (List.cons_ne_nil next names)] at ih
          have hWhole :
              join (first :: next :: names ++ [name]) =
                first ++ slash :: join (next :: names ++ [name]) := by
            rfl
          have hFront :
              join (first :: next :: names) =
                first ++ slash :: join (next :: names) := by
            rfl
          rw [hWhole, ih, hFront]
          simp

theorem join_concat_inj
    {names : List Text}
    {name name' : Text}
    (hSame : join (names ++ [name]) = join (names ++ [name'])) :
    name = name' := by
  rw [join_concat, join_concat] at hSame
  split at hSame
  · exact hSame
  · exact (List.cons.inj (List.append_cancel_left hSame)).2

/- A node is not under the names of the directory above. -/
theorem join_dropLast_ne
    (names : List Text)
    {name : Text}
    (hSome : name ≠ []) :
    join names.dropLast ≠ join (names ++ [name]) := by
  have hLength : (join names.dropLast).length ≤ (join names).length := by
    rcases List.eq_nil_or_concat names with rfl | ⟨front, last, rfl⟩
    · exact Nat.le_refl _
    · rw [List.concat_eq_append, List.dropLast_concat, join_concat]
      split
      · next hNil =>
          rw [hNil]
          exact Nat.zero_le _
      · rw [List.length_append]
        exact Nat.le_add_right _ _
  have hName := List.length_pos_iff.mpr hSome
  intro hSame
  have hEq := congrArg List.length hSame
  rw [join_concat] at hEq
  split at hEq
  · next hNil =>
      rw [hNil] at hEq
      exact Nat.ne_of_lt hName hEq
  · rw [List.length_append, List.length_cons] at hEq
    omega

------------------------------------------------------------
-- Changes Of A Tree
------------------------------------------------------------

/- What is found after a node is put somewhere below the root. -/
theorem at?_put
    (t : FileTree)
    (names others : List Text)
    (node : FileNode) :
    (t.put names node).at? others =
      if others = [] then some .directory
      else if join names = join others then some node
      else t.at? others := by
  unfold put at?
  simp only [List.isEmpty_iff]
  split
  · rfl
  · rw [Dictionary.get?_insert]

/- Directories stay where they are. -/
structure KeepsDirectories (t t' : FileTree) : Prop where
  workingDirectory : t'.workingDirectory = t.workingDirectory
  directories : ∀ names, t.at? names = some .directory →
    t'.at? names = some .directory

/- All nodes stay where they are. -/
structure Extends (t t' : FileTree) : Prop where
  workingDirectory : t'.workingDirectory = t.workingDirectory
  nodes : ∀ names node, t.at? names = some node →
    t'.at? names = some node

theorem Extends.refl
    (t : FileTree) :
    Extends t t := by
  exact ⟨rfl, fun _ _ hNode => hNode⟩

theorem Extends.trans
    {t t' t'' : FileTree}
    (hFirst : Extends t t')
    (hSecond : Extends t' t'') :
    Extends t t'' := by
  constructor
  · exact hSecond.workingDirectory.trans hFirst.workingDirectory
  · intro names node hNode
    exact hSecond.nodes names node (hFirst.nodes names node hNode)

theorem Extends.keepsDirectories
    {t t' : FileTree}
    (hExtends : Extends t t') :
    KeepsDirectories t t' := by
  exact ⟨hExtends.workingDirectory,
    fun names => hExtends.nodes names .directory⟩

/- A node which is put where there is none. -/
theorem extends_put
    {t : FileTree}
    {names : List Text}
    (hNone : t.at? names = none)
    (node : FileNode) :
    Extends t (t.put names node) := by
  refine ⟨rfl, ?_⟩
  intro others found hFound
  have hNames : names ≠ [] := by
    rintro rfl
    cases hNone
  rw [at?_put]
  by_cases hRoot : others = []
  · rw [if_pos hRoot, ← hFound, hRoot]
    rfl
  · have hOther : join names ≠ join others := by
      intro hSame
      unfold at? at hNone hFound
      rw [if_neg (mt List.isEmpty_iff.mp hNames)] at hNone
      rw [if_neg (mt List.isEmpty_iff.mp hRoot), ← hSame, hNone]
        at hFound
      cases hFound
    rw [if_neg hRoot, if_neg hOther]
    exact hFound

/- A file which is put where there is no directory. -/
theorem keepsDirectories_put
    {t : FileTree}
    {names : List Text}
    (hFile : t.at? names ≠ some .directory)
    (node : FileNode) :
    KeepsDirectories t (t.put names node) := by
  refine ⟨rfl, ?_⟩
  intro others hFound
  have hNames : names ≠ [] := by
    rintro rfl
    exact hFile rfl
  rw [at?_put]
  by_cases hRoot : others = []
  · exact if_pos hRoot
  · have hOther : join names ≠ join others := by
      intro hSame
      unfold at? at hFile hFound
      rw [if_neg (mt List.isEmpty_iff.mp hNames)] at hFile
      rw [if_neg (mt List.isEmpty_iff.mp hRoot), ← hSame] at hFound
      exact hFile hFound
    rw [if_neg hRoot, if_neg hOther]
    exact hFound

theorem extends_create
    (t : FileTree)
    (names parts : List Text) :
    Extends t (t.create names parts).1 := by
  induction parts generalizing t names with
  | nil =>
      exact Extends.refl t
  | cons part parts ih =>
      rw [create]
      split
      · exact ih t names
      · split
        · exact ih t names.dropLast
        · split
          · exact Extends.refl t
          · split
            · next hNone =>
                exact (extends_put hNone .directory).trans (ih _ _)
            · exact ih t (names ++ [part])
            · exact Extends.refl t

/- Creating directories leaves what is there as it is. -/
theorem extends_createDirectories
    (t : FileTree)
    (path : Text) :
    Extends t (t.createDirectories path).1 := by
  unfold createDirectories
  split
  · exact Extends.refl t
  · split
    · exact Extends.refl t
    · exact extends_create t _ _

------------------------------------------------------------
-- Following Paths
------------------------------------------------------------

/- The names to which one part leads from a directory. -/
def next? (names : List Text) (part : Text) : Option (List Text) :=
  if isStay part then some names
  else if isUp part then some names.dropLast
  else if isTooLong part then none
  else some (names ++ [part])

/- Parts are followed one by one, through directories. -/
theorem follow_cons
    (t : FileTree)
    (names : List Text)
    (part : Text)
    (rest : List Text) :
    t.follow names (part :: rest) =
      if t.at? names = some .directory then
        (next? names part).bind fun names => t.follow names rest
      else none := by
  rw [follow]
  unfold next?
  split_ifs <;> rfl

theorem follow_append
    (t : FileTree)
    (names front back : List Text) :
    t.follow names (front ++ back) =
      (t.follow names front).bind fun names => t.follow names back := by
  induction front generalizing names with
  | nil =>
      rfl
  | cons part front ih =>
      rw [List.cons_append, follow_cons, follow_cons]
      split
      · rw [Option.bind_assoc]
        exact congrArg _ (funext ih)
      · rfl

/- A path leads on where it led, if the directories stay. -/
theorem KeepsDirectories.follow
    {t t' : FileTree}
    (hKeeps : KeepsDirectories t t')
    {names parts found : List Text}
    (hFollow : t.follow names parts = some found) :
    t'.follow names parts = some found := by
  induction parts generalizing names with
  | nil =>
      exact hFollow
  | cons part parts ih =>
      rw [follow_cons] at hFollow ⊢
      by_cases hDirectory : t.at? names = some .directory
      · rw [if_pos hDirectory] at hFollow
        rw [if_pos (hKeeps.directories names hDirectory)]
        rcases Option.bind_eq_some_iff.mp hFollow with
          ⟨next, hNext, hRest⟩
        exact Option.bind_eq_some_iff.mpr ⟨next, hNext, ih hRest⟩
      · rw [if_neg hDirectory] at hFollow
        cases hFollow

theorem KeepsDirectories.locate
    {t t' : FileTree}
    (hKeeps : KeepsDirectories t t')
    {path : Text}
    {names : List Text}
    (hLocate : t.locate path = some names) :
    t'.locate path = some names := by
  have hParts : t'.parts? path = t.parts? path := by
    unfold parts?
    rw [hKeeps.workingDirectory]
  unfold FileTree.locate at hLocate ⊢
  rw [hParts]
  rcases Option.bind_eq_some_iff.mp hLocate with
    ⟨⟨start, parts⟩, hFound, hFollow⟩
  exact Option.bind_eq_some_iff.mpr
    ⟨(start, parts), hFound, hKeeps.follow hFollow⟩

------------------------------------------------------------
-- Reading And Writing
------------------------------------------------------------

theorem read_eq_ok_iff
    {t : FileTree}
    {path content : Text} :
    t.read path = .ok content ↔
      ∃ names, t.locate path = some names ∧
        t.at? names = some (.file content) := by
  have hNode :
      t.read path = .ok content ↔
        t.node? path = some (.file content) := by
    unfold read
    split
    · next hNone => simp [hNone]
    · next hFound => simp [hFound]
    · next hFound => simp [hFound]
  rw [hNode]
  exact Option.bind_eq_some_iff

/- A file is written where its path leads. -/
theorem write_eq_true_iff
    {t t' : FileTree}
    {path content : Text} :
    t.write path content = (t', true) ↔
      ∃ names, t.locate path = some names ∧
        t.at? names ≠ some .directory ∧
        t' = t.put names (.file content) := by
  unfold write
  cases hLocate : t.locate path with
  | none => simp
  | some names =>
      dsimp only
      constructor
      · intro hWrite
        split at hWrite
        · cases hWrite
        · next hFile =>
            cases hWrite
            exact ⟨names, rfl, hFile, rfl⟩
      · rintro ⟨names', hNames, hFile, rfl⟩
        cases hNames
        split
        · next hDirectory => exact absurd hDirectory hFile
        · rfl

/- What is written is read again. -/
theorem read_write
    {t t' : FileTree}
    {path content : Text}
    (hWrite : t.write path content = (t', true)) :
    t'.read path = .ok content := by
  rcases write_eq_true_iff.mp hWrite with
    ⟨names, hLocate, hFile, rfl⟩
  refine read_eq_ok_iff.mpr
    ⟨names, (keepsDirectories_put hFile _).locate hLocate, ?_⟩
  have hNames : names ≠ [] := by
    rintro rfl
    exact hFile rfl
  rw [at?_put, if_neg hNames, if_pos rfl]

theorem Extends.read
    {t t' : FileTree}
    (hExtends : Extends t t')
    {path content : Text}
    (hRead : t.read path = .ok content) :
    t'.read path = .ok content := by
  rcases read_eq_ok_iff.mp hRead with ⟨names, hLocate, hNode⟩
  exact read_eq_ok_iff.mpr
    ⟨names, hExtends.keepsDirectories.locate hLocate,
      hExtends.nodes names _ hNode⟩

/- A file stays if another one is written under other names. -/
theorem read_write_of_join_ne
    {t t' : FileTree}
    {path path' content content' : Text}
    {names names' : List Text}
    (hLocate : t.locate path = some names)
    (hLocate' : t.locate path' = some names')
    (hApart : join names' ≠ join names)
    (hRead : t.read path = .ok content)
    (hWrite : t.write path' content' = (t', true)) :
    t'.read path = .ok content := by
  rcases read_eq_ok_iff.mp hRead with ⟨found, hFound, hNode⟩
  rw [hLocate] at hFound
  cases hFound
  rcases write_eq_true_iff.mp hWrite with
    ⟨found, hFound, hFile, rfl⟩
  rw [hLocate'] at hFound
  cases hFound
  refine read_eq_ok_iff.mpr
    ⟨names, (keepsDirectories_put hFile _).locate hLocate, ?_⟩
  have hNames : names ≠ [] := by
    rintro rfl
    cases hNode
  rw [at?_put, if_neg hNames, if_neg hApart]
  exact hNode

------------------------------------------------------------
-- Files In One Directory
------------------------------------------------------------

/- The part of a path which is followed. -/
def visible (path : Text) : Text :=
  path.takeWhile (· != 0)

/- The front of a path, up to the last slash in it. -/
def IsFolder (folder : Text) : Prop :=
  folder = [] ∨ ∃ front, folder = front ++ [slash]

/- Where a path begins to be followed. -/
def start (t : FileTree) (path : Text) : List Text :=
  if path.head? = some slash then [] else t.workingDirectory

theorem follow_of_locate
    {t : FileTree}
    {path : Text}
    {names : List Text}
    (hLocate : t.locate path = some names) :
    t.follow (t.start (visible path))
        ((visible path).splitOn slash) = some names := by
  rcases Option.bind_eq_some_iff.mp hLocate with
    ⟨⟨start, parts⟩, hParts, hFollow⟩
  unfold parts? at hParts
  dsimp only at hParts hFollow
  unfold FileTree.start visible
  split at hParts
  · cases hParts
  · split at hParts
    · next hSlash =>
        cases hParts
        rw [if_pos hSlash, Text.splitOn_eq]
        exact hFollow
    · next hSlash =>
        cases hParts
        rw [if_neg hSlash, Text.splitOn_eq]
        exact hFollow

/- All of a path in front of its last slash, or none of it, is seen. -/
theorem visible_append
    {front : Text}
    (hZero : 0 ∉ front)
    (back : Text) :
    visible (front ++ back) = front ++ visible back := by
  unfold visible
  apply List.takeWhile_append_of_pos
  intro b hMember
  rw [bne_iff_ne]
  rintro rfl
  exact hZero hMember

theorem visible_eq_self
    {path : Text}
    (hZero : 0 ∉ path) :
    visible path = path := by
  simpa [visible] using visible_append hZero []

theorem visible_append_of_mem
    {front : Text}
    (hZero : 0 ∈ front)
    (back : Text) :
    visible (front ++ back) = visible front := by
  unfold visible
  rw [List.takeWhile_append]
  split
  · next hWhole =>
      have hAll := List.takeWhile_eq_self_iff.mp
        ((List.takeWhile_prefix _).eq_of_length hWhole)
      exact absurd rfl (bne_iff_ne.mp (hAll 0 hZero))
  · rfl

theorem notMem_visible
    {b : UInt8}
    {path : Text}
    (hAbsent : b ∉ path) :
    b ∉ visible path := by
  exact fun hMember =>
    hAbsent ((List.takeWhile_sublist _).subset hMember)

/- The parts of a path in a folder, the last one being the name. -/
theorem splitOn_folder
    {folder : Text}
    (hFolder : IsFolder folder)
    {name : Text}
    (hName : slash ∉ name) :
    (folder ++ name).splitOn slash =
      (folder.splitOn slash).dropLast ++ [name] := by
  rcases hFolder with rfl | ⟨front, rfl⟩
  · exact Text.splitOn_of_notMem hName
  · rw [List.append_assoc, List.singleton_append,
      Text.splitOn_append_cons, Text.splitOn_append_cons,
      Text.splitOn_of_notMem hName]
    exact congrArg (· ++ [name]) List.dropLast_concat.symm

theorem start_folder
    (t : FileTree)
    {folder : Text}
    {name : Text}
    (hName : slash ∉ name) :
    t.start (folder ++ name) = t.start folder := by
  cases folder with
  | nil =>
      have hHead : name.head? ≠ some slash :=
        fun hHead => hName (List.mem_of_mem_head? hHead)
      unfold start
      rw [List.nil_append, if_neg hHead]
      rfl
  | cons b folder =>
      rfl

/- Where a last part leads from a directory. -/
theorem follow_singleton
    {t : FileTree}
    {names found : List Text}
    {part : Text}
    (hFollow : t.follow names [part] = some found) :
    t.at? names = some .directory ∧
      (isStay part = true ∧ found = names ∨
        isUp part = true ∧ found = names.dropLast ∨
        isStay part = false ∧ isUp part = false ∧
          found = names ++ [part]) := by
  rw [follow_cons] at hFollow
  split at hFollow
  · next hDirectory =>
      refine ⟨hDirectory, ?_⟩
      rcases Option.bind_eq_some_iff.mp hFollow with
        ⟨next, hNext, hEnd⟩
      cases hEnd
      unfold next? at hNext
      split_ifs at hNext with hStay hUp <;> cases hNext
      · exact Or.inl ⟨hStay, rfl⟩
      · exact Or.inr (Or.inl ⟨hUp, rfl⟩)
      · exact Or.inr (Or.inr ⟨Bool.not_eq_true _ ▸ hStay,
          Bool.not_eq_true _ ▸ hUp, rfl⟩)
  · cases hFollow

/- Two last parts lead to two places, if not to a directory. -/
theorem join_ne_of_follow
    {t : FileTree}
    {names found found' : List Text}
    {part part' : Text}
    (hFollow : t.follow names [part] = some found)
    (hFollow' : t.follow names [part'] = some found')
    (hFile : t.at? found ≠ some .directory)
    (hFile' : t.at? found' ≠ some .directory)
    (hApart : part ≠ part') :
    join found ≠ join found' := by
  have hSome :
      ∀ {part : Text}, isStay part = false → part ≠ [] := by
    rintro part hStay rfl
    cases hStay
  rcases follow_singleton hFollow with ⟨hDirectory, hCases⟩
  rcases follow_singleton hFollow' with ⟨-, hCases'⟩
  rcases hCases with ⟨-, rfl⟩ | ⟨hUp, rfl⟩ | ⟨hStay, hUp, rfl⟩
  · exact absurd hDirectory hFile
  · rcases hCases' with ⟨-, rfl⟩ | ⟨hUp', rfl⟩ | ⟨hStay', -, rfl⟩
    · exact absurd hDirectory hFile'
    · have hSame : part = part' :=
        (decide_eq_true_iff.mp hUp).trans
          (decide_eq_true_iff.mp hUp').symm
      exact absurd hSame hApart
    · exact join_dropLast_ne names (hSome hStay')
  · rcases hCases' with ⟨-, rfl⟩ | ⟨hUp', rfl⟩ | ⟨-, -, rfl⟩
    · exact absurd hDirectory hFile'
    · exact (join_dropLast_ne names (hSome hStay)).symm
    · exact fun hSame => hApart (join_concat_inj hSame)

/- Paths in one folder go through the same directories. -/
theorem follow_folder
    {t : FileTree}
    {folder name : Text}
    {names : List Text}
    (hFolder : IsFolder folder)
    (hName : slash ∉ name)
    (hZero : 0 ∉ folder)
    (hLocate : t.locate (folder ++ name) = some names) :
    (t.follow (t.start folder) (folder.splitOn slash).dropLast).bind
        (fun found => t.follow found [visible name]) =
      some names := by
  have hFollow := follow_of_locate hLocate
  have hSeen := notMem_visible hName
  rw [visible_append hZero, splitOn_folder hFolder hSeen,
    start_folder t hSeen, follow_append] at hFollow
  exact hFollow

/-
  A file stays as it is if another file is written into the
  same folder, unless the two paths are the same as far as
  they are followed.
-/
theorem read_write_other
    {t t' : FileTree}
    {folder name name' content content' : Text}
    (hFolder : IsFolder folder)
    (hName : slash ∉ name)
    (hName' : slash ∉ name')
    (hApart : visible (folder ++ name) ≠ visible (folder ++ name'))
    (hRead : t.read (folder ++ name) = .ok content)
    (hWrite : t.write (folder ++ name') content' = (t', true)) :
    t'.read (folder ++ name) = .ok content := by
  have hZero : 0 ∉ folder := by
    intro hMember
    rw [visible_append_of_mem hMember, visible_append_of_mem hMember]
      at hApart
    exact hApart rfl
  rw [visible_append hZero, visible_append hZero] at hApart
  rcases read_eq_ok_iff.mp hRead with ⟨names, hLocate, hNode⟩
  rcases write_eq_true_iff.mp hWrite with
    ⟨names', hLocate', hFile', -⟩
  rcases Option.bind_eq_some_iff.mp
      (follow_folder hFolder hName hZero hLocate) with
    ⟨found, hFound, hFollow⟩
  rcases Option.bind_eq_some_iff.mp
      (follow_folder hFolder hName' hZero hLocate') with
    ⟨found', hFound', hFollow'⟩
  rw [hFound] at hFound'
  cases hFound'
  have hFile : t.at? names ≠ some .directory := by
    rw [hNode]
    exact fun hEq => by cases hEq
  refine read_write_of_join_ne hLocate hLocate' ?_ hRead hWrite
  exact (join_ne_of_follow hFollow hFollow' hFile hFile'
    (fun hSame => hApart (congrArg (folder ++ ·) hSame))).symm

end FileTree

end ContractLinker
