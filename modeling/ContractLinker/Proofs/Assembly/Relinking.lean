import ContractLinker.Proofs.Assembly.Flattening
import ContractLinker.Proofs.Text.Hex

/-
  Linking a second time. The entries of a linked section map
  the references which they mapped before. If no path that is
  put in makes one of those references itself, then all
  stands as linking would leave it: the assembly is settled.
  So it is with numerals for keys, because contract paths
  have a colon in them.

  Key definitions include:
    * `Assembly.Settled`
    * `Assembly.SetsOrdered`
    * `Qualified`
    * `Assembly.PathsApart`

  Main statements:
    * `Assembly.get?_extend_linkEntry`
    * `Assembly.settled_link`
    * `Assembly.linked_linked`
    * `Assembly.resolve_resolve`
-/

------------------------------------------------------------
-- Mappings Of Linked Sections
------------------------------------------------------------

namespace ContractLinker

namespace Assembly

/- Linked entries map the references that were mapped before. -/
theorem get?_extend_linkEntry
    (hashes : Dictionary Text)
    (entries : List (Text × DataEntry))
    (ref : Text) :
    (extend hashes
        (Dictionary.mapValues
          (linkEntry (extend hashes entries [])) entries) []).get? ref =
      (extend hashes entries []).get? ref := by
  cases hRef : (extend hashes entries []).get? ref with
  | none =>
      rw [Option.eq_none_iff_forall_ne_some]
      intro path hFound
      rcases exists_entry_of_get?_extend hFound with
        ⟨key, linked, hMember, hKey, hTarget⟩
      rcases Dictionary.mem_mapValues_iff.mp hMember with
        ⟨entry, hEntry, rfl⟩
      -- An entry without a path is left, and still has no target.
      unfold linkEntry linkedPath? at hTarget
      rw [hKey, hRef] at hTarget
      rw [target?_eq_none_of_get?_extend hRef hEntry hKey] at hTarget
      cases hTarget
  | some path =>
      -- Every entry that makes the reference has become the path.
      have hLinked : ∀ key entry, Instruction.reference key = ref →
          linkEntry (extend hashes entries []) key entry =
            .path path := by
        intro key entry hKey
        unfold linkEntry linkedPath?
        rw [hKey, hRef]
      cases hAgain : Dictionary.get? ref _ with
      | none =>
          rcases exists_entry_of_get?_extend hRef with
            ⟨key, entry, hEntry, hKey, -⟩
          have hNone :=
            target?_eq_none_of_get?_extend hAgain
              (Dictionary.mem_mapValues_iff.mpr ⟨entry, hEntry, rfl⟩)
              hKey
          rw [hLinked key entry hKey] at hNone
          cases hNone
      | some other =>
          rcases exists_entry_of_get?_extend hAgain with
            ⟨key, linked, hMember, hKey, hTarget⟩
          rcases Dictionary.mem_mapValues_iff.mp hMember with
            ⟨entry, -, rfl⟩
          rw [hLinked key entry hKey] at hTarget
          exact hTarget.symm

theorem get?_mapping_linked_deploy
    (owner : Text)
    (hashes : Dictionary Text)
    (a : Assembly)
    (ref : Text) :
    ((a.linked owner hashes).mapping hashes .deploy).get? ref =
      (a.mapping hashes .deploy).get? ref := by
  unfold mapping
  rw [entries_deploy_linked]
  exact get?_extend_linkEntry hashes (a.entries .deploy) ref

theorem get?_mapping_linked_runtime
    {owner : Text}
    {hashes : Dictionary Text}
    {a : Assembly}
    (hRuntime : (a.linked owner hashes).runtimeCode ≠ none)
    (ref : Text) :
    ((a.linked owner hashes).mapping hashes .runtime).get? ref =
      (a.mapping hashes .runtime).get? ref := by
  unfold mapping
  rw [entries_runtime_linked hRuntime]
  exact get?_extend_linkEntry hashes (a.entries .runtime) ref

end Assembly

------------------------------------------------------------
-- Settled Assemblies
------------------------------------------------------------

/- What linking makes of an instruction, by what its reference is mapped to. -/
theorem Instruction.link_eq
    (found : Dictionary Text)
    (i : Instruction) :
    i.link found =
      match i.localReference.bind (Dictionary.get? · found) with
      | none => i
      | some path => { i with value := some path } := by
  unfold link
  cases i.localReference with
  | none => rfl
  | some ref => rfl

/-
  An operand which has been replaced makes the reference of
  its path. If that is not mapped, it stays.
-/
theorem Instruction.link_link
    {found found' : Dictionary Text}
    (hSame : ∀ ref, found'.get? ref = found.get? ref)
    (hApart : ∀ ref path, found.get? ref = some path →
      found.get? (reference path) = none)
    (i : Instruction) :
    (i.link found).link found' = i.link found := by
  cases hPath : i.localReference.bind (Dictionary.get? · found) with
  | none =>
      have hKept : i.link found = i := by
        rw [link_eq, hPath]
      rw [hKept, link_eq]
      simp only [hSame, hPath]
  | some path =>
      have hReplaced : i.link found = { i with value := some path } := by
        rw [link_eq, hPath]
      rcases Option.bind_eq_some_iff.mp hPath with ⟨ref, hRef, hFound⟩
      have hAlias : i.isDataAlias = true := by
        by_contra hOther
        rw [localReference, if_neg hOther] at hRef
        cases hRef
      have hLocal :
          localReference { i with value := some path } =
            some (reference path) := by
        rw [localReference]
        exact if_pos hAlias
      rw [hReplaced, link_eq, hLocal, Option.bind_some, hSame,
        hApart ref path hFound]

namespace Assembly

/-
  An assembly on which linking with a mapping has no effect:
  neither on its path, nor on an instruction or an entry, nor
  on the set of contracts it creates.
-/
structure Settled (owner : Text) (found : Dictionary Text)
    (a : Assembly) : Prop where
  fullPath : a.fullPath = some owner
  code : ∀ i ∈ a.code.getD [], i.link found = i
  data : ∀ key entry, (key, entry) ∈ a.data.getD [] →
    linkEntry found key entry = entry
  dependencies : ∀ key entry path, (key, entry) ∈ a.data.getD [] →
    linkedPath? found key = some path →
      path ∈ a.factoryDependencies
  ordered : TextSet.Ordered a.factoryDependencies

/- Assemblies are nested in one another, so this holds by cases only. -/
theorem mk_fields
    (a : Assembly) :
    Assembly.mk a.fullPath a.code a.data a.auxdata
        a.factoryDependencies =
      a := by
  cases a
  rfl

/- Changes without effect leave a data section as it is. -/
theorem map_mapValues_eq_self
    {data : Option (List (Text × DataEntry))}
    {change : Text → DataEntry → DataEntry}
    (hSame : ∀ key entry, (key, entry) ∈ data.getD [] →
      change key entry = entry) :
    data.map (Dictionary.mapValues change) = data := by
  cases data with
  | none =>
      rfl
  | some entries =>
      rw [Option.map_some, Dictionary.mapValues_eq_self]
      intro entry hMember
      exact hSame entry.1 entry.2 hMember

theorem Settled.link_eq
    {owner : Text}
    {found : Dictionary Text}
    {a : Assembly}
    (hSettled : a.Settled owner found) :
    link found (setFullPath owner a) = a := by
  have hCode :
      a.code.map (List.map (Instruction.link found)) = a.code := by
    have hEach := hSettled.code
    cases hSome : a.code with
    | none =>
        rfl
    | some code =>
        rw [hSome, Option.getD_some] at hEach
        rw [Option.map_some, List.map_congr_left hEach, List.map_id']
  have hPaths :
      ∀ path ∈ (a.data.getD []).filterMap
          (fun entry => linkedPath? found entry.1),
        path ∈ a.factoryDependencies := by
    intro path hMember
    rcases List.mem_filterMap.mp hMember with
      ⟨⟨key, entry⟩, hEntry, hPath⟩
    exact hSettled.dependencies key entry path hEntry hPath
  have hUnion := TextSet.union_of_subset hSettled.ordered hPaths
  unfold link setFullPath
  dsimp only
  rw [hCode, map_mapValues_eq_self hSettled.data, hUnion,
    ← hSettled.fullPath]
  exact mk_fields a

/-
  A section which has been linked is settled for every
  mapping that has the same paths.
-/
theorem settled_link
    {found found' : Dictionary Text}
    (hSame : ∀ ref, found'.get? ref = found.get? ref)
    (hApart : ∀ ref path, found.get? ref = some path →
      found.get? (Instruction.reference path) = none)
    {a : Assembly}
    (hOrdered : TextSet.Ordered a.factoryDependencies)
    (owner : Text) :
    (link found (setFullPath owner a)).Settled owner found' := by
  have hLinked : ∀ key,
      linkedPath? found' key = linkedPath? found key :=
    fun key => hSame (Instruction.reference key)
  constructor
  · rfl
  · intro i hMember
    unfold link setFullPath at hMember
    dsimp only at hMember
    cases hCode : a.code with
    | none =>
        rw [hCode] at hMember
        cases hMember
    | some code =>
        rw [hCode] at hMember
        rcases List.mem_map.mp hMember with ⟨before, -, rfl⟩
        exact Instruction.link_link hSame hApart before
  · intro key entry hMember
    unfold link setFullPath at hMember
    dsimp only at hMember
    rw [getD_map_mapValues] at hMember
    rcases Dictionary.mem_mapValues_iff.mp hMember with
      ⟨before, -, rfl⟩
    unfold linkEntry
    rw [hLinked]
    cases linkedPath? found key with
    | none => rfl
    | some path => rfl
  · intro key entry path hMember hPath
    unfold link setFullPath at hMember ⊢
    dsimp only at hMember ⊢
    rw [getD_map_mapValues] at hMember
    rcases Dictionary.mem_mapValues_iff.mp hMember with
      ⟨before, hBefore, -⟩
    rw [hLinked] at hPath
    refine TextSet.mem_union.mpr (Or.inr ?_)
    exact List.mem_filterMap.mpr ⟨(key, before), hBefore, hPath⟩
  · exact TextSet.ordered_union hOrdered _

/- Changes of the runtime code do not touch entries with a path. -/
theorem Settled.linkRuntime
    {owner : Text}
    {found : Dictionary Text}
    {a : Assembly}
    (hSettled : a.Settled owner found)
    (other : Dictionary Text) :
    (linkRuntime owner other a).Settled owner found := by
  unfold Assembly.linkRuntime
  cases a.runtimeCode with
  | none =>
      exact hSettled
  | some r =>
      have hBefore : ∀ key entry,
          (key, entry) ∈ (mapRuntimeCode
              (fun _ => link other (setFullPath owner r)) a).data.getD [] →
            ∃ before, (key, before) ∈ a.data.getD [] ∧
              (before = entry ∨ ∃ b c, before = .nested b ∧
                entry = .nested c) := by
        intro key entry hMember
        unfold mapRuntimeCode at hMember
        dsimp only at hMember
        rw [getD_map_mapValues] at hMember
        rcases Dictionary.mem_mapValues_iff.mp hMember with
          ⟨before, hEntry, hChange⟩
        refine ⟨before, hEntry, ?_⟩
        cases before with
        | nested b =>
            by_cases hKey : key = runtimeKey
            · rw [if_pos hKey] at hChange
              exact Or.inr ⟨b, _, rfl, hChange.symm⟩
            · rw [if_neg hKey] at hChange
              exact Or.inl hChange
        | hash text => exact Or.inl hChange
        | path text => exact Or.inl hChange
      constructor
      · exact hSettled.fullPath
      · exact hSettled.code
      · intro key entry hMember
        rcases hBefore key entry hMember with
          ⟨before, hEntry, rfl | ⟨b, c, rfl, rfl⟩⟩
        · exact hSettled.data key before hEntry
        · have hKept := hSettled.data key _ hEntry
          unfold linkEntry at hKept ⊢
          cases hPath : linkedPath? found key with
          | none =>
              rfl
          | some path =>
              rw [hPath] at hKept
              cases hKept
      · intro key entry path hMember hPath
        rcases hBefore key entry hMember with ⟨before, hEntry, -⟩
        exact TextSet.mem_union.mpr
          (Or.inl (hSettled.dependencies key before path hEntry hPath))
      · exact TextSet.ordered_union hSettled.ordered _

/- A settled runtime code stands where it is linked in its place. -/
theorem linkRuntime_eq_self
    {owner : Text}
    {found : Dictionary Text}
    {a r : Assembly}
    (hRuntime : a.runtimeCode = some r)
    (hSettled : r.Settled owner found)
    (hEntries : ∀ b,
      (runtimeKey, DataEntry.nested b) ∈ a.data.getD [] → b = r)
    (hOrdered : TextSet.Ordered a.factoryDependencies)
    (hTaken : ∀ path ∈ r.factoryDependencies,
      path ∈ a.factoryDependencies) :
    linkRuntime owner found a = a := by
  unfold linkRuntime
  rw [hRuntime]
  dsimp only
  rw [hSettled.link_eq]
  unfold addFactoryDependencies mapRuntimeCode
  dsimp only
  rw [TextSet.union_of_subset hOrdered hTaken, map_mapValues_eq_self]
  · exact mk_fields a
  · intro key entry hMember
    cases entry with
    | nested b =>
        by_cases hKey : key = runtimeKey
        · subst hKey
          rw [if_pos rfl, hEntries b hMember]
        · rw [if_neg hKey]
    | hash text => rfl
    | path text => rfl

------------------------------------------------------------
-- Assemblies Linked Twice
------------------------------------------------------------

/- The sets of created contracts are in order, of both codes. -/
structure SetsOrdered (a : Assembly) : Prop where
  deploy : TextSet.Ordered a.factoryDependencies
  runtime : ∀ r, a.runtimeCode = some r →
    TextSet.Ordered r.factoryDependencies

theorem linked_eq
    (owner : Text)
    (hashes : Dictionary Text)
    (a : Assembly) :
    a.linked owner hashes =
      linkRuntime owner (a.mapping hashes .runtime)
        (link (a.mapping hashes .deploy) (setFullPath owner a)) := by
  rfl

/- All nested assemblies under the runtime key are linked alike. -/
theorem eq_of_nested_linked
    {owner : Text}
    {hashes : Dictionary Text}
    {a r b : Assembly}
    (hRuntime : (a.linked owner hashes).runtimeCode = some r)
    (hMember :
      (runtimeKey, DataEntry.nested b) ∈
        (a.linked owner hashes).data.getD []) :
    b = r := by
  rw [linked_eq, runtimeCode_linkRuntime] at hRuntime
  rcases Option.map_eq_some_iff.mp hRuntime with ⟨r', hSome, rfl⟩
  rw [linked_eq, linkRuntime, hSome] at hMember
  unfold addFactoryDependencies mapRuntimeCode at hMember
  dsimp only at hMember
  rw [getD_map_mapValues] at hMember
  rcases Dictionary.mem_mapValues_iff.mp hMember with
    ⟨before, -, hChange⟩
  cases before with
  | nested c =>
      rw [if_pos rfl] at hChange
      exact (DataEntry.nested.inj hChange).symm
  | hash text => cases hChange
  | path text => cases hChange

/- What the runtime code creates is taken over. -/
theorem factoryDependencies_linked_of_runtime
    {owner : Text}
    {hashes : Dictionary Text}
    {a r : Assembly}
    (hRuntime : (a.linked owner hashes).runtimeCode = some r)
    {path : Text}
    (hMember : path ∈ r.factoryDependencies) :
    path ∈ (a.linked owner hashes).factoryDependencies := by
  rw [linked_eq, runtimeCode_linkRuntime] at hRuntime
  rcases Option.map_eq_some_iff.mp hRuntime with ⟨r', hSome, rfl⟩
  rw [linked_eq, linkRuntime, hSome]
  exact TextSet.mem_union.mpr (Or.inr hMember)

/-
  If the paths that are put in make no reference which is
  mapped, a second linking has no effect.
-/
theorem linked_linked
    {hashes : Dictionary Text}
    {a : Assembly}
    (hSets : a.SetsOrdered)
    (hApart : ∀ s ref path,
      (a.mapping hashes s).get? ref = some path →
        (a.mapping hashes s).get? (Instruction.reference path) = none)
    (owner : Text) :
    (a.linked owner hashes).linked owner hashes =
      a.linked owner hashes := by
  have hSettled :
      (a.linked owner hashes).Settled owner
        ((a.linked owner hashes).mapping hashes .deploy) :=
    (settled_link (get?_mapping_linked_deploy owner hashes a)
      (hApart .deploy) hSets.deploy owner).linkRuntime _
  rw [linked_eq owner hashes (a.linked owner hashes), hSettled.link_eq]
  cases hRuntime : (a.linked owner hashes).runtimeCode with
  | none =>
      unfold linkRuntime
      rw [hRuntime]
  | some r =>
      have hLeft : (a.linked owner hashes).runtimeCode ≠ none := by
        rw [hRuntime]
        exact Option.some_ne_none r
      have hSettledRuntime :
          r.Settled owner
            ((a.linked owner hashes).mapping hashes .runtime) := by
        rcases runtimeCode_linked_cases owner hashes a with
          hNone | hLinked
        · exact absurd hNone hLeft
        · rw [hRuntime] at hLinked
          rcases Option.map_eq_some_iff.mp hLinked.symm with
            ⟨r', hSome, rfl⟩
          exact settled_link (get?_mapping_linked_runtime hLeft)
            (hApart .runtime) (hSets.runtime r' hSome) owner
      apply linkRuntime_eq_self hRuntime hSettledRuntime
      · intro b hMember
        exact eq_of_nested_linked hRuntime hMember
      · exact hSettled.ordered
      · intro path hMember
        exact factoryDependencies_linked_of_runtime hRuntime hMember

------------------------------------------------------------
-- Qualified Paths
------------------------------------------------------------

end Assembly

/- A path which names a contract within a file. -/
def Qualified (path : Text) : Prop :=
  ':'.toUInt8 ∈ path

instance (path : Text) : Decidable (Qualified path) :=
  inferInstanceAs (Decidable (_ ∈ _))

namespace Assembly

/-
  Keys are numerals, and paths are no numerals: those of the
  table, and those which stand in a section already.
-/
structure PathsApart (hashes : Dictionary Text) (a : Assembly) :
    Prop where
  keys : ∀ s, ∀ entry ∈ a.entries s, Hex.isNumeral entry.1 = true
  table : ∀ entry ∈ hashes, Qualified entry.2
  entries : ∀ s key path,
    (key, DataEntry.path path) ∈ a.entries s → Qualified path

/- The path of an entry is one of the table or its own. -/
theorem PathsApart.qualified
    {hashes : Dictionary Text}
    {a : Assembly}
    (hPaths : a.PathsApart hashes)
    {s : Section}
    {key : Text}
    {entry : DataEntry}
    (hMember : (key, entry) ∈ a.entries s)
    {path : Text}
    (hTarget : entry.target? hashes = some path) :
    Qualified path := by
  cases entry with
  | nested b =>
      exact hPaths.table _ (Dictionary.mem_of_get? hTarget)
  | hash text =>
      exact hPaths.table _ (Dictionary.mem_of_get? hTarget)
  | path text =>
      cases hTarget
      exact hPaths.entries s key path hMember

/- A path with a colon makes no reference which a numeral makes. -/
theorem PathsApart.mapping_eq_none
    {hashes : Dictionary Text}
    {a : Assembly}
    (hPaths : a.PathsApart hashes)
    {s : Section}
    {ref path : Text}
    (hFound : (a.mapping hashes s).get? ref = some path) :
    (a.mapping hashes s).get? (Instruction.reference path) = none := by
  rcases exists_entry_of_get?_mapping hFound with
    ⟨key, entry, hMember, -, hTarget⟩
  have hColon : ':'.toUInt8 ∈ Instruction.reference path :=
    List.mem_append_right _ (hPaths.qualified hMember hTarget)
  cases hAgain :
      (a.mapping hashes s).get? (Instruction.reference path) with
  | none =>
      rfl
  | some other =>
      rcases exists_entry_of_get?_mapping hAgain with
        ⟨key', entry', hMember', hReference, -⟩
      rw [← hReference] at hColon
      rcases List.mem_append.mp hColon with hZero | hKey
      · cases List.eq_of_mem_replicate hZero
      · exact absurd hKey
          (Hex.colon_notMem_of_isNumeral (hPaths.keys s _ hMember'))

/- A second resolution of a contract has no effect. -/
theorem resolve_resolve
    {owner : Text}
    {hashes : Dictionary Text}
    {a b : Assembly}
    (hSets : a.SetsOrdered)
    (hPaths : a.PathsApart hashes)
    (hResolve : a.resolve owner hashes = .ok b) :
    b.resolve owner hashes = .ok b := by
  rcases resolve_eq_ok_iff.mp hResolve with ⟨hKnown, rfl⟩
  apply resolve_eq_ok_iff.mpr
  constructor
  · exact firstUnknown?_entries_linked hKnown hashes
  · apply linked_linked hSets
    intro s ref path hFound
    exact hPaths.mapping_eq_none hFound

end Assembly

end ContractLinker
