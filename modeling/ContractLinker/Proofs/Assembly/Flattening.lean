import ContractLinker.Proofs.Assembly.RuntimeCode

/-
  The sections of an assembly after linking. Each is linked
  entry by entry, unless a path has taken the place of the
  runtime code. As every nested assembly in a section had to
  be known, none is left there: a linked assembly is flat.

  Key definitions include:
    * `Assembly.Flat`

  Main statements:
    * `Assembly.entries_deploy_linked`
    * `Assembly.entries_runtime_linked`
    * `Assembly.entries_linked`
    * `Assembly.mem_entries_linked`
    * `Assembly.nested_notMem_entries_linked`
    * `Assembly.firstUnknown?_entries_linked`
    * `Assembly.flat_linked`
-/

------------------------------------------------------------
-- Sections Of A Linked Assembly
------------------------------------------------------------

namespace ContractLinker

namespace Assembly

/- The entries of the deploy section are linked one by one. -/
theorem entries_deploy_link
    (found : Dictionary Text)
    (owner : Text)
    (a : Assembly) :
    (link found (setFullPath owner a)).entries .deploy =
      Dictionary.mapValues (linkEntry found) (a.entries .deploy) := by
  unfold entries link setFullPath
  dsimp only
  rw [getD_map_mapValues]
  exact Dictionary.filter_mapValues (linkEntry found)
    (fun key => key ≠ runtimeKey) (a.data.getD [])

/- What stands in the place of the runtime code is no such entry. -/
theorem entries_deploy_linkRuntime
    (owner : Text)
    (found : Dictionary Text)
    (a : Assembly) :
    (linkRuntime owner found a).entries .deploy =
      a.entries .deploy := by
  unfold linkRuntime
  cases a.runtimeCode with
  | none =>
      rfl
  | some r =>
      unfold entries addFactoryDependencies mapRuntimeCode
      dsimp only
      rw [getD_map_mapValues]
      refine (Dictionary.filter_mapValues _
        (fun key => key ≠ runtimeKey) (a.data.getD [])).trans ?_
      apply Dictionary.mapValues_eq_self
      intro entry hMember
      have hKey : entry.1 ≠ runtimeKey := by
        simpa using (List.mem_filter.mp hMember).2
      cases entry.2 with
      | nested b => exact if_neg hKey
      | hash text => rfl
      | path text => rfl

theorem entries_deploy_linked
    (owner : Text)
    (hashes : Dictionary Text)
    (a : Assembly) :
    (a.linked owner hashes).entries .deploy =
      Dictionary.mapValues (linkEntry (a.mapping hashes .deploy))
        (a.entries .deploy) := by
  unfold linked
  rw [entries_deploy_linkRuntime, entries_deploy_link]

/- Linking the deploy section keeps the runtime code or puts a path there. -/
theorem runtimeCode_link_cases
    (found : Dictionary Text)
    (owner : Text)
    (a : Assembly) :
    (link found (setFullPath owner a)).runtimeCode = none ∨
      (link found (setFullPath owner a)).runtimeCode =
        a.runtimeCode := by
  rw [runtimeCode_eq, get?_data_link, runtimeCode_eq a]
  cases Dictionary.get? runtimeKey (a.data.getD []) with
  | none =>
      exact Or.inl rfl
  | some entry =>
      rw [Option.map_some, Option.bind_some, Option.bind_some]
      unfold linkEntry
      cases linkedPath? found runtimeKey with
      | none => exact Or.inr rfl
      | some path => exact Or.inl rfl

theorem runtimeCode_linkRuntime
    (owner : Text)
    (found : Dictionary Text)
    (a : Assembly) :
    (linkRuntime owner found a).runtimeCode =
      a.runtimeCode.map fun r => link found (setFullPath owner r) := by
  unfold linkRuntime
  cases hRuntime : a.runtimeCode with
  | none =>
      exact hRuntime
  | some r =>
      have hChanged :=
        runtimeCode_mapRuntimeCode
          (fun _ => link found (setFullPath owner r)) a
      rw [hRuntime] at hChanged
      exact hChanged

/- The runtime code is linked in its place, or is there no more. -/
theorem runtimeCode_linked_cases
    (owner : Text)
    (hashes : Dictionary Text)
    (a : Assembly) :
    (a.linked owner hashes).runtimeCode = none ∨
      (a.linked owner hashes).runtimeCode =
        a.runtimeCode.map fun r =>
          link (a.mapping hashes .runtime) (setFullPath owner r) := by
  unfold linked
  rw [runtimeCode_linkRuntime]
  rcases runtimeCode_link_cases (a.mapping hashes .deploy) owner a with
    hNone | hSame
  · rw [hNone]
    exact Or.inl rfl
  · rw [hSame]
    exact Or.inr rfl

/- A runtime section which is left is linked one by one. -/
theorem entries_runtime_linked
    {owner : Text}
    {hashes : Dictionary Text}
    {a : Assembly}
    (hRuntime : (a.linked owner hashes).runtimeCode ≠ none) :
    (a.linked owner hashes).entries .runtime =
      Dictionary.mapValues (linkEntry (a.mapping hashes .runtime))
        (a.entries .runtime) := by
  rcases runtimeCode_linked_cases owner hashes a with hNone | hLinked
  · exact absurd hNone hRuntime
  · unfold entries
    rw [hLinked]
    cases a.runtimeCode with
    | none =>
        rfl
    | some r =>
        rw [Option.map_some, Option.bind_some, Option.bind_some]
        unfold link setFullPath
        dsimp only
        exact getD_map_mapValues _ r.data

/- With references apart both sections are linked one by one. -/
theorem entries_linked
    {a : Assembly}
    (hDistinct : a.ReferencesDistinct)
    (owner : Text)
    (hashes : Dictionary Text)
    (s : Section) :
    (a.linked owner hashes).entries s =
      Dictionary.mapValues (linkEntry (a.mapping hashes s))
        (a.entries s) := by
  cases s with
  | deploy =>
      exact entries_deploy_linked owner hashes a
  | runtime =>
      unfold entries
      rw [runtimeCode_linked hDistinct]
      cases a.runtimeCode with
      | none => rfl
      | some r => exact getD_map_mapValues _ r.data

/- An entry which stands for a contract becomes its path. -/
theorem mem_entries_linked
    {hashes : Dictionary Text}
    {a : Assembly}
    (hDistinct : a.ReferencesDistinct)
    {s : Section}
    {key path : Text}
    {entry : DataEntry}
    (hMember : (key, entry) ∈ a.entries s)
    (hTarget : entry.target? hashes = some path)
    (owner : Text) :
    (key, DataEntry.path path) ∈
      (a.linked owner hashes).entries s := by
  have hMapped :=
    get?_mapping_of_mem hashes (hDistinct.nodup_entries s) hMember
  rw [entries_linked hDistinct, Dictionary.mem_mapValues_iff]
  refine ⟨entry, hMember, ?_⟩
  rw [linkEntry, linkedPath?, hMapped, hTarget]

------------------------------------------------------------
-- Nested Assemblies
------------------------------------------------------------

/- An entry that is left has no path, and so no target. -/
theorem nested_notMem_mapValues_linkEntry
    {hashes : Dictionary Text}
    {a : Assembly}
    {s : Section}
    (hKnown : firstUnknown? hashes (a.entries s) = none)
    (key : Text)
    (b : Assembly) :
    (key, DataEntry.nested b) ∉
      Dictionary.mapValues (linkEntry (a.mapping hashes s))
        (a.entries s) := by
  intro hMember
  rcases Dictionary.mem_mapValues_iff.mp hMember with
    ⟨entry, hEntry, hLinked⟩
  unfold linkEntry linkedPath? at hLinked
  cases hPath :
      (a.mapping hashes s).get? (Instruction.reference key) with
  | some path =>
      rw [hPath] at hLinked
      cases hLinked
  | none =>
      rw [hPath] at hLinked
      dsimp only at hLinked
      subst hLinked
      have hUnknown := List.findSome?_eq_none_iff.mp hKnown _ hEntry
      have hTarget : hashes.get? b.contentHash = none :=
        target?_eq_none_of_get?_mapping hPath hEntry rfl
      exact DataEntry.unknown?_ne_none hTarget hUnknown

/- After linking there is no nested assembly in either section. -/
theorem nested_notMem_entries_linked
    {owner : Text}
    {hashes : Dictionary Text}
    {a : Assembly}
    (hKnown :
      firstUnknown? hashes
        (a.entries .deploy ++ a.entries .runtime) = none)
    (s : Section)
    (key : Text)
    (b : Assembly) :
    (key, DataEntry.nested b) ∉ (a.linked owner hashes).entries s := by
  rw [firstUnknown?_append, Option.or_eq_none_iff] at hKnown
  cases s with
  | deploy =>
      rw [entries_deploy_linked]
      exact nested_notMem_mapValues_linkEntry hKnown.1 key b
  | runtime =>
      by_cases hRuntime : (a.linked owner hashes).runtimeCode = none
      · unfold entries
        rw [hRuntime]
        exact List.not_mem_nil
      · rw [entries_runtime_linked hRuntime]
        exact nested_notMem_mapValues_linkEntry hKnown.2 key b

/-
  A second resolution fails nowhere, whatever the data keys:
  what is left nested in a section had no hash to be found.
-/
theorem firstUnknown?_entries_linked
    {owner : Text}
    {hashes : Dictionary Text}
    {a : Assembly}
    (hKnown :
      firstUnknown? hashes
        (a.entries .deploy ++ a.entries .runtime) = none)
    (others : Dictionary Text) :
    firstUnknown? others
      ((a.linked owner hashes).entries .deploy ++
        (a.linked owner hashes).entries .runtime) = none := by
  have hSection : ∀ s,
      firstUnknown? others ((a.linked owner hashes).entries s) =
        none := by
    intro s
    rw [firstUnknown?, List.findSome?_eq_none_iff]
    rintro ⟨key, entry⟩ hMember
    cases entry with
    | nested b =>
        exact absurd hMember
          (nested_notMem_entries_linked hKnown s key b)
    | hash text => rfl
    | path text => rfl
  rw [firstUnknown?_append, hSection, hSection, Option.none_or]

/-
  The runtime code is the only nested assembly, and there is
  none inside it.
-/
def Flat (a : Assembly) : Prop :=
  ∀ key r, (key, DataEntry.nested r) ∈ a.data.getD [] →
    key = runtimeKey ∧
      ∀ key' b, (key', DataEntry.nested b) ∉ r.data.getD []

theorem map_fst_data_linkRuntime
    (owner : Text)
    (found : Dictionary Text)
    (a : Assembly) :
    ((linkRuntime owner found a).data.getD []).map Prod.fst =
      (a.data.getD []).map Prod.fst := by
  unfold linkRuntime
  cases a.runtimeCode with
  | none =>
      rfl
  | some r =>
      unfold addFactoryDependencies mapRuntimeCode
      dsimp only
      rw [getD_map_mapValues, Dictionary.map_fst_mapValues]

/- Linking keeps the keys of the data section. -/
theorem map_fst_data_linked
    (owner : Text)
    (hashes : Dictionary Text)
    (a : Assembly) :
    ((a.linked owner hashes).data.getD []).map Prod.fst =
      (a.data.getD []).map Prod.fst := by
  unfold linked
  rw [map_fst_data_linkRuntime]
  unfold link setFullPath
  dsimp only
  rw [getD_map_mapValues, Dictionary.map_fst_mapValues]

/-
  If no key is repeated, a nested assembly which is left is
  the runtime code, whose entries are linked themselves.
-/
theorem flat_linked
    {owner : Text}
    {hashes : Dictionary Text}
    {a : Assembly}
    (hKeys : ((a.data.getD []).map Prod.fst).Nodup)
    (hKnown :
      firstUnknown? hashes
        (a.entries .deploy ++ a.entries .runtime) = none) :
    (a.linked owner hashes).Flat := by
  intro key r hMember
  by_cases hKey : key = runtimeKey
  · subst hKey
    rw [← map_fst_data_linked owner hashes] at hKeys
    have hEntries :=
      entries_runtime (runtimeCode_of_mem hKeys hMember)
    refine ⟨rfl, ?_⟩
    intro key' b hNested
    rw [← hEntries] at hNested
    exact nested_notMem_entries_linked hKnown .runtime key' b hNested
  · exact absurd (mem_entries_deploy_iff.mpr ⟨hMember, hKey⟩)
      (nested_notMem_entries_linked hKnown .deploy key r)

end Assembly

end ContractLinker
