import ContractLinker.Proofs.Assembly.Sections
import Mathlib.Data.List.Forall2
import Mathlib.Data.List.Nodup

/-
  What linking makes of an assembly, said without the passes.
  Every entry of a section that stands for a contract becomes
  the path of that contract; every data alias whose operand
  makes the reference of such an entry gets that path as its
  operand; all else stays. The two sections do not mix.

  Key definitions include:
    * `Assembly.Unlinked`
    * `Assembly.ReferencesDistinct`
    * `LinkedEntry`
    * `LinkedInstruction`
    * `LinkedRuntime`
    * `LinkedAssembly`

  Main statements:
    * `Assembly.linkedAssembly_linked`
-/

------------------------------------------------------------
-- Assemblies Before Linking
------------------------------------------------------------

namespace ContractLinker

namespace Assembly

/-
  An assembly as the compiler writes it: at no depth there is
  a path of a contract.
-/
inductive Unlinked : Assembly → Prop where
  | intro {a : Assembly}
      (hFullPath : a.fullPath = none)
      (hDependencies : a.factoryDependencies = [])
      (hPaths : ∀ key text, (key, DataEntry.path text) ∉ a.data.getD [])
      (hNested : ∀ key b, (key, DataEntry.nested b) ∈ a.data.getD [] →
        Unlinked b) :
      Unlinked a

/-
  The keys of a data section stay different when they are
  padded to references, in the deploy data with its runtime
  code and in the runtime data.
-/
def ReferencesDistinct (a : Assembly) : Prop :=
  ((a.data.getD []).map fun entry =>
      Instruction.reference entry.1).Nodup ∧
    ((a.entries .runtime).map fun entry =>
      Instruction.reference entry.1).Nodup

instance (a : Assembly) : Decidable a.ReferencesDistinct :=
  inferInstanceAs (Decidable (_ ∧ _))

end Assembly

------------------------------------------------------------
-- Linked Entries And Instructions
------------------------------------------------------------

/- An entry before and after linking. -/
inductive LinkedEntry (hashes : Dictionary Text) :
    DataEntry → DataEntry → Prop where
  | nested {a : Assembly} {path : Text}
      (hKnown : hashes.get? a.contentHash = some path) :
      LinkedEntry hashes (.nested a) (.path path)
  | known {text path : Text}
      (hKnown : hashes.get? text = some path) :
      LinkedEntry hashes (.hash text) (.path path)
  | plain {text : Text}
      (hUnknown : hashes.get? text = none) :
      LinkedEntry hashes (.hash text) (.hash text)

/- The names of the instructions whose operand is a data key. -/
def dataAliasNames : List Text :=
  [ascii "PUSH [$]", ascii "PUSH #[$]", ascii "PUSH data"]

/-
  Whether the operand of an instruction refers to an entry
  which linking replaces by a path.
-/
def RefersTo (hashes : Dictionary Text)
    (entries : List (Text × DataEntry)) (i : Instruction)
    (path : Text) : Prop :=
  i.name ∈ dataAliasNames ∧
    ∃ operand key entry,
      i.value = some operand ∧
      (key, entry) ∈ entries ∧
      Instruction.reference key = Instruction.reference operand ∧
      LinkedEntry hashes entry (.path path)

/-
  An instruction before and after linking, with the entries
  of its section before linking.
-/
inductive LinkedInstruction (hashes : Dictionary Text)
    (entries : List (Text × DataEntry)) :
    Instruction → Instruction → Prop where
  | replaced {i : Instruction} {path : Text}
      (hRefers : RefersTo hashes entries i path) :
      LinkedInstruction hashes entries i { i with value := some path }
  | kept {i : Instruction}
      (hNone : ∀ path, ¬ RefersTo hashes entries i path) :
      LinkedInstruction hashes entries i i

/- A listing before and after linking. -/
def LinkedListing (hashes : Dictionary Text)
    (entries : List (Text × DataEntry)) :
    Option (List Instruction) → Option (List Instruction) → Prop :=
  Option.Rel (List.Forall₂ (LinkedInstruction hashes entries))

------------------------------------------------------------
-- Linked Assemblies
------------------------------------------------------------

/- The runtime code of a contract before and after linking. -/
structure LinkedRuntime (owner : Text)
    (hashes : Dictionary Text) (a b : Assembly) : Prop where
  fullPath : b.fullPath = some owner
  auxdata : b.auxdata = a.auxdata
  code : LinkedListing hashes (a.data.getD []) a.code b.code
  data :
    Option.Rel
      (List.Forall₂ fun x y =>
        x.1 = y.1 ∧ LinkedEntry hashes x.2 y.2)
      a.data b.data
  dependencies : ∀ path,
    path ∈ b.factoryDependencies ↔
      ∃ key, (key, DataEntry.path path) ∈ b.data.getD []

/-
  The entry with the key of the runtime code before and after
  linking. A text under that key is left alone.
-/
inductive LinkedRuntimeEntry (owner : Text)
    (hashes : Dictionary Text) : DataEntry → DataEntry → Prop where
  | code {a b : Assembly}
      (hLinked : LinkedRuntime owner hashes a b) :
      LinkedRuntimeEntry owner hashes (.nested a) (.nested b)
  | text {text : Text} :
      LinkedRuntimeEntry owner hashes (.hash text) (.hash text)

/- The assembly of a contract before and after linking. -/
structure LinkedAssembly (owner : Text)
    (hashes : Dictionary Text) (a b : Assembly) : Prop where
  fullPath : b.fullPath = some owner
  auxdata : b.auxdata = a.auxdata
  code : LinkedListing hashes (a.entries .deploy) a.code b.code
  data :
    Option.Rel
      (List.Forall₂ fun x y =>
        x.1 = y.1 ∧
          if x.1 = Assembly.runtimeKey then
            LinkedRuntimeEntry owner hashes x.2 y.2
          else
            LinkedEntry hashes x.2 y.2)
      a.data b.data
  dependencies : ∀ path,
    path ∈ b.factoryDependencies ↔
      (∃ key, (key, DataEntry.path path) ∈ b.data.getD []) ∨
        ∃ key, (key, DataEntry.path path) ∈ b.entries .runtime

------------------------------------------------------------
-- Entries And Their Targets
------------------------------------------------------------

/- An entry is replaced by the path of its target. -/
theorem linkedEntry_path_iff
    {hashes : Dictionary Text}
    {entry : DataEntry}
    {path : Text}
    (hNoPath : ∀ text, entry ≠ .path text) :
    LinkedEntry hashes entry (.path path) ↔
      entry.target? hashes = some path := by
  constructor
  · intro hLinked
    cases hLinked with
    | nested hKnown => exact hKnown
    | known hKnown => exact hKnown
  · intro hTarget
    cases entry with
    | nested a => exact LinkedEntry.nested hTarget
    | hash text => exact LinkedEntry.known hTarget
    | path text => exact absurd rfl (hNoPath text)

theorem isDataAlias_iff
    (i : Instruction) :
    i.isDataAlias = true ↔ i.name ∈ dataAliasNames := by
  unfold Instruction.isDataAlias Instruction.kind dataAliasNames
  simp only [List.mem_cons, List.not_mem_nil, or_false]
  split
  · next hOffset => simp [hOffset]
  · next hOffset =>
      split
      · next hSize => simp [hSize]
      · next hSize =>
          split
          · next hData => simp [hData]
          · next hData => simp [hOffset, hSize, hData]

/- An instruction refers to what its reference is mapped to. -/
theorem refersTo_iff
    {hashes : Dictionary Text}
    {a : Assembly}
    {s : Section}
    {i : Instruction}
    {path : Text} :
    RefersTo hashes (a.entries s) i path ↔
      ∃ ref, i.localReference = some ref ∧
        ∃ key entry, (key, entry) ∈ a.entries s ∧
          Instruction.reference key = ref ∧
          LinkedEntry hashes entry (.path path) := by
  unfold RefersTo Instruction.localReference
  rw [← isDataAlias_iff]
  constructor
  · intro hBoth
    rcases hBoth with ⟨hAlias, operand, key, entry, hValue, hMember, hRef, hLinked⟩
    refine ⟨Instruction.reference operand, ?_,
      key, entry, hMember, hRef, hLinked⟩
    rw [if_pos hAlias, hValue]
    rfl
  · intro hExists
    rcases hExists with ⟨ref, hLocal, key, entry, hMember, hRef, hLinked⟩
    by_cases hAlias : i.isDataAlias = true
    · rw [if_pos hAlias] at hLocal
      rcases Option.map_eq_some_iff.mp hLocal with
        ⟨operand, hValue, rfl⟩
      exact ⟨hAlias, operand, key, entry, hValue, hMember,
        hRef, hLinked⟩
    · rw [if_neg hAlias] at hLocal
      cases hLocal

------------------------------------------------------------
-- Listings
------------------------------------------------------------

namespace Assembly

theorem linkedInstruction_link
    {hashes : Dictionary Text}
    {a : Assembly}
    {s : Section}
    (hNoPath : ∀ key text, (key, DataEntry.path text) ∉ a.entries s)
    (i : Instruction) :
    LinkedInstruction hashes (a.entries s) i
      (i.link (a.mapping hashes s)) := by
  have hTarget :
      ∀ key entry, (key, entry) ∈ a.entries s → ∀ path,
        LinkedEntry hashes entry (.path path) ↔
          entry.target? hashes = some path := by
    intro key entry hMember path
    apply linkedEntry_path_iff
    rintro text rfl
    exact hNoPath key text hMember
  unfold Instruction.link
  cases hLocal : i.localReference with
  | none =>
      apply LinkedInstruction.kept
      intro path hRefers
      rcases refersTo_iff.mp hRefers with ⟨ref, hRef, -⟩
      rw [hLocal] at hRef
      cases hRef
  | some ref =>
      dsimp only
      cases hMapped : (a.mapping hashes s).get? ref with
      | none =>
          apply LinkedInstruction.kept
          intro path hRefers
          rcases refersTo_iff.mp hRefers with
            ⟨ref', hRef', key, entry, hMember, hKey, hLinked⟩
          rw [hLocal] at hRef'
          cases hRef'
          rw [hTarget key entry hMember,
            target?_eq_none_of_get?_mapping hMapped hMember hKey]
            at hLinked
          cases hLinked
      | some path =>
          apply LinkedInstruction.replaced
          rcases exists_entry_of_get?_mapping hMapped with
            ⟨key, entry, hMember, hKey, hEntry⟩
          exact refersTo_iff.mpr
            ⟨ref, hLocal, key, entry, hMember, hKey,
              (hTarget key entry hMember path).mpr hEntry⟩

/- A listing whose instructions are linked one by one. -/
theorem linkedListing_link
    {hashes : Dictionary Text}
    {a : Assembly}
    {s : Section}
    (hNoPath : ∀ key text, (key, DataEntry.path text) ∉ a.entries s)
    (code : Option (List Instruction)) :
    LinkedListing hashes (a.entries s) code
      (code.map fun instructions =>
        instructions.map (Instruction.link (a.mapping hashes s))) := by
  cases code with
  | none =>
      exact Option.Rel.none
  | some instructions =>
      apply Option.Rel.some
      rw [List.forall₂_map_right_iff, List.forall₂_same]
      intro i _
      exact linkedInstruction_link hNoPath i

------------------------------------------------------------
-- Data Sections
------------------------------------------------------------

/- An entry of a section, if all its assemblies are known. -/
theorem linkedEntry_linkEntry
    {hashes : Dictionary Text}
    {a : Assembly}
    {s : Section}
    (hNoPath : ∀ key text, (key, DataEntry.path text) ∉ a.entries s)
    (hDistinct :
      ((a.entries s).map fun entry =>
        Instruction.reference entry.1).Nodup)
    (hKnown : firstUnknown? hashes (a.entries s) = none)
    {key : Text}
    {entry : DataEntry}
    (hMember : (key, entry) ∈ a.entries s) :
    LinkedEntry hashes entry
      (linkEntry (a.mapping hashes s) key entry) := by
  have hMapped := get?_mapping_of_mem hashes hDistinct hMember
  unfold linkEntry linkedPath?
  rw [hMapped]
  cases entry with
  | nested b =>
      have hFound :=
        List.findSome?_eq_none_iff.mp hKnown _ hMember
      rw [DataEntry.unknown?] at hFound
      cases hTarget : hashes.get? b.contentHash with
      | none =>
          simp [Dictionary.contains, hTarget] at hFound
      | some path =>
          rw [DataEntry.target?, hTarget]
          exact LinkedEntry.nested hTarget
  | hash text =>
      rw [DataEntry.target?]
      cases hTarget : hashes.get? text with
      | none =>
          exact LinkedEntry.plain hTarget
      | some path =>
          exact LinkedEntry.known hTarget
  | path text =>
      exact absurd hMember (hNoPath key text)

/- The paths which linking puts in are those found afterwards. -/
theorem mem_linkedPaths_iff
    (mapping : Dictionary Text)
    {data : List (Text × DataEntry)}
    {change : Text → DataEntry → DataEntry}
    (hChange : ∀ key entry, (key, entry) ∈ data → ∀ path,
      change key entry = .path path ↔
        linkedPath? mapping key = some path)
    {path : Text} :
    (path ∈ data.filterMap fun (key, _) => linkedPath? mapping key) ↔
      ∃ key, (key, DataEntry.path path) ∈
        Dictionary.mapValues change data := by
  rw [List.mem_filterMap]
  constructor
  · intro hExists
    rcases hExists with ⟨⟨key, entry⟩, hMember, hPath⟩
    refine ⟨key, List.mem_map.mpr ⟨(key, entry), hMember, ?_⟩⟩
    exact congrArg (Prod.mk key)
      ((hChange key entry hMember path).mpr hPath)
  · intro hExists
    rcases hExists with ⟨key, hMember⟩
    rcases List.mem_map.mp hMember with ⟨⟨k, entry⟩, hEntry, hEq⟩
    rcases Prod.mk.inj hEq with ⟨rfl, hPath⟩
    exact ⟨(k, entry), hEntry, (hChange k entry hEntry path).mp hPath⟩

theorem linkEntry_eq_path_iff
    {mapping : Dictionary Text}
    {key : Text}
    {entry : DataEntry}
    (hNoPath : ∀ text, entry ≠ .path text)
    {path : Text} :
    linkEntry mapping key entry = .path path ↔
      linkedPath? mapping key = some path := by
  unfold linkEntry
  cases linkedPath? mapping key with
  | none =>
      simp [hNoPath]
  | some other =>
      simp

theorem getD_map_mapValues
    (change : Text → DataEntry → DataEntry)
    (data : Option (List (Text × DataEntry))) :
    (data.map (Dictionary.mapValues change)).getD [] =
      Dictionary.mapValues change (data.getD []) := by
  cases data with
  | none => rfl
  | some data => rfl

theorem map_mapValues_congr
    {data : Option (List (Text × DataEntry))}
    {change change' : Text → DataEntry → DataEntry}
    (hSame : ∀ key entry, (key, entry) ∈ data.getD [] →
      change key entry = change' key entry) :
    data.map (Dictionary.mapValues change) =
      data.map (Dictionary.mapValues change') := by
  cases data with
  | none =>
      rfl
  | some entries =>
      rw [Option.map_some, Option.map_some,
        Dictionary.mapValues_congr]
      intro entry hMember
      exact hSame entry.1 entry.2 hMember

/- Entries changed one by one are related one by one. -/
theorem rel_map_mapValues
    {related : Text × DataEntry → Text × DataEntry → Prop}
    {change : Text → DataEntry → DataEntry}
    {data : Option (List (Text × DataEntry))}
    (hEntries : ∀ key entry, (key, entry) ∈ data.getD [] →
      related (key, entry) (key, change key entry)) :
    Option.Rel (List.Forall₂ related) data
      (data.map (Dictionary.mapValues change)) := by
  cases data with
  | none =>
      exact Option.Rel.none
  | some entries =>
      apply Option.Rel.some
      unfold Dictionary.mapValues
      rw [List.forall₂_map_right_iff, List.forall₂_same]
      intro entry hMember
      exact hEntries entry.1 entry.2 hMember

theorem entries_runtime
    {a r : Assembly}
    (hRuntime : a.runtimeCode = some r) :
    a.entries .runtime = r.data.getD [] := by
  rw [entries, hRuntime]
  rfl

/- The runtime code is linked as a section of its own. -/
theorem linkedRuntime_link
    {owner : Text}
    {hashes : Dictionary Text}
    {a r : Assembly}
    (hRuntime : a.runtimeCode = some r)
    (hUnlinked : a.Unlinked)
    (hDistinct : a.ReferencesDistinct)
    (hKnown : firstUnknown? hashes (a.entries .runtime) = none) :
    LinkedRuntime owner hashes r
      (link (a.mapping hashes .runtime) (setFullPath owner r)) := by
  rcases hUnlinked with ⟨-, -, -, hNested⟩
  rcases hNested _ r (mem_of_runtimeCode hRuntime) with
    ⟨-, hDependencies, hPaths, -⟩
  have hEntries := entries_runtime hRuntime
  have hNoPath := hPaths
  rw [← hEntries] at hNoPath
  refine ⟨rfl, rfl, ?_, ?_, ?_⟩
  · rw [← hEntries]
    exact linkedListing_link hNoPath r.code
  · apply rel_map_mapValues
    intro key entry hMember
    refine ⟨rfl, ?_⟩
    apply linkedEntry_linkEntry hNoPath hDistinct.2 hKnown
    rw [hEntries]
    exact hMember
  · intro path
    unfold link setFullPath
    dsimp only
    rw [TextSet.mem_union, hDependencies, getD_map_mapValues,
      ← mem_linkedPaths_iff (a.mapping hashes .runtime)]
    · simp
    · intro key entry hMember path
      apply linkEntry_eq_path_iff
      rintro text rfl
      exact hPaths key text hMember

------------------------------------------------------------
-- Deploy And Runtime Code Together
------------------------------------------------------------

/- Different references come from different keys. -/
theorem ReferencesDistinct.nodup
    {a : Assembly}
    (hDistinct : a.ReferencesDistinct) :
    ((a.data.getD []).map Prod.fst).Nodup := by
  have hReferences := hDistinct.1
  have hCompose :
      ((a.data.getD []).map fun entry =>
          Instruction.reference entry.1) =
        ((a.data.getD []).map Prod.fst).map
          Instruction.reference := by
    rw [List.map_map]
    rfl
  rw [hCompose] at hReferences
  exact List.Nodup.of_map _ hReferences

/- The entries of one section make different references. -/
theorem ReferencesDistinct.nodup_entries
    {a : Assembly}
    (hDistinct : a.ReferencesDistinct)
    (s : Section) :
    ((a.entries s).map fun entry =>
      Instruction.reference entry.1).Nodup := by
  cases s with
  | deploy => exact hDistinct.1.sublist (List.filter_sublist.map _)
  | runtime => exact hDistinct.2

theorem runtimeCode_of_mem
    {a r : Assembly}
    (hKeys : ((a.data.getD []).map Prod.fst).Nodup)
    (hMember :
      (runtimeKey, DataEntry.nested r) ∈ a.data.getD []) :
    a.runtimeCode = some r := by
  unfold runtimeCode
  cases hData : a.data with
  | none =>
      rw [hData] at hMember
      cases hMember
  | some data =>
      rw [hData] at hKeys hMember
      have hFound := Dictionary.get?_of_mem hKeys hMember
      exact Option.bind_eq_some_iff.mpr ⟨_, hFound, rfl⟩

/- The runtime code is the nested assembly with its key. -/
theorem runtimeCode_eq_some_iff
    {a : Assembly}
    (hDistinct : a.ReferencesDistinct)
    {r : Assembly} :
    a.runtimeCode = some r ↔
      (runtimeKey, DataEntry.nested r) ∈ a.data.getD [] := by
  constructor
  · exact mem_of_runtimeCode
  · exact runtimeCode_of_mem hDistinct.nodup

/- Nothing takes the place of the entry of the runtime code. -/
theorem linkedPath?_runtimeKey
    {a : Assembly}
    (hDistinct : a.ReferencesDistinct)
    (hashes : Dictionary Text)
    {entry : DataEntry}
    (hMember : (runtimeKey, entry) ∈ a.data.getD []) :
    linkedPath? (a.mapping hashes .deploy) runtimeKey = none := by
  cases hPath : linkedPath? (a.mapping hashes .deploy) runtimeKey with
  | none =>
      rfl
  | some path =>
      rcases exists_entry_of_get?_mapping hPath with
        ⟨key, other, hOther, hReference, -⟩
      rcases List.mem_filter.mp hOther with ⟨hData, hKey⟩
      -- The runtime key shares its reference with no other key.
      have hSame : (key, other) = (runtimeKey, entry) :=
        List.inj_on_of_nodup_map hDistinct.1 hData hMember hReference
      have hEq : key = runtimeKey := congrArg Prod.fst hSame
      simp [hEq] at hKey

theorem linkEntry_runtimeKey
    {a : Assembly}
    (hDistinct : a.ReferencesDistinct)
    (hashes : Dictionary Text)
    {entry : DataEntry}
    (hMember : (runtimeKey, entry) ∈ a.data.getD []) :
    linkEntry (a.mapping hashes .deploy) runtimeKey entry = entry := by
  rw [linkEntry, linkedPath?_runtimeKey hDistinct hashes hMember]

/- What becomes of the entries of the deploy data. -/
def linkedDeployEntry (owner : Text) (hashes : Dictionary Text)
    (a : Assembly) (key : Text) (entry : DataEntry) : DataEntry :=
  if key = runtimeKey then
    match entry with
    | .nested r =>
        .nested
          (link (a.mapping hashes .runtime) (setFullPath owner r))
    | .hash text => .hash text
    | .path text => .path text
  else
    linkEntry (a.mapping hashes .deploy) key entry

theorem linkedDeployEntry_of_ne
    {owner key : Text}
    {hashes : Dictionary Text}
    {a : Assembly}
    (hKey : key ≠ runtimeKey)
    (entry : DataEntry) :
    linkedDeployEntry owner hashes a key entry =
      linkEntry (a.mapping hashes .deploy) key entry := by
  exact if_neg hKey

/- Linking the deploy section does not touch the runtime code. -/
theorem runtimeCode_link
    {a : Assembly}
    (hDistinct : a.ReferencesDistinct)
    (owner : Text)
    (hashes : Dictionary Text) :
    (link (a.mapping hashes .deploy)
        (setFullPath owner a)).runtimeCode =
      a.runtimeCode := by
  unfold link setFullPath runtimeCode
  dsimp only
  cases hData : a.data with
  | none =>
      rfl
  | some data =>
      dsimp only [Option.map_some]
      rw [Dictionary.get?_mapValues]
      cases hFound : Dictionary.get? runtimeKey data with
      | none =>
          rfl
      | some entry =>
          have hMember : (runtimeKey, entry) ∈ a.data.getD [] := by
            rw [hData]
            exact Dictionary.mem_of_get? hFound
          rw [Option.map_some,
            linkEntry_runtimeKey hDistinct hashes hMember]

/- Each entry of the deploy data is replaced on its own. -/
theorem linked_data
    {a : Assembly}
    (hDistinct : a.ReferencesDistinct)
    (owner : Text)
    (hashes : Dictionary Text) :
    (a.linked owner hashes).data =
      a.data.map
        (Dictionary.mapValues (linkedDeployEntry owner hashes a)) := by
  unfold linked linkRuntime
  rw [runtimeCode_link hDistinct]
  cases hRuntime : a.runtimeCode with
  | none =>
      unfold link setFullPath
      apply map_mapValues_congr
      intro key entry hMember
      by_cases hKey : key = runtimeKey
      · subst hKey
        rw [linkEntry_runtimeKey hDistinct hashes hMember]
        cases entry with
        | nested r =>
            rw [(runtimeCode_eq_some_iff hDistinct).mpr hMember]
              at hRuntime
            cases hRuntime
        | hash text => rfl
        | path text => rfl
      · rw [linkedDeployEntry_of_ne hKey]
  | some r =>
      unfold addFactoryDependencies mapRuntimeCode link setFullPath
      dsimp only
      rw [Option.map_map, Dictionary.mapValues_comp]
      apply map_mapValues_congr
      intro key entry hMember
      by_cases hKey : key = runtimeKey
      · subst hKey
        rw [linkEntry_runtimeKey hDistinct hashes hMember]
        cases entry with
        | nested b =>
            rw [(runtimeCode_eq_some_iff hDistinct).mpr hMember]
              at hRuntime
            cases hRuntime
            rfl
        | hash text => rfl
        | path text => rfl
      · rw [linkedDeployEntry_of_ne hKey]
        cases linkEntry (a.mapping hashes .deploy) key entry with
        | nested b => rw [if_neg hKey]
        | hash text => rfl
        | path text => rfl

theorem linked_factoryDependencies
    {a : Assembly}
    (hDistinct : a.ReferencesDistinct)
    (owner : Text)
    (hashes : Dictionary Text) :
    (a.linked owner hashes).factoryDependencies =
      match a.runtimeCode with
      | none => (link (a.mapping hashes .deploy) a).factoryDependencies
      | some r =>
          TextSet.union
            (link (a.mapping hashes .deploy) a).factoryDependencies
            (link (a.mapping hashes .runtime) r).factoryDependencies := by
  unfold linked linkRuntime
  rw [runtimeCode_link hDistinct]
  cases a.runtimeCode with
  | none => rfl
  | some r => rfl

theorem linked_code
    (a : Assembly)
    (owner : Text)
    (hashes : Dictionary Text) :
    (a.linked owner hashes).code =
      a.code.map fun instructions =>
        instructions.map
          (Instruction.link (a.mapping hashes .deploy)) := by
  unfold linked linkRuntime
  split <;> rfl

theorem linked_auxdata
    (a : Assembly)
    (owner : Text)
    (hashes : Dictionary Text) :
    (a.linked owner hashes).auxdata = a.auxdata := by
  unfold linked linkRuntime
  split <;> rfl

theorem linked_fullPath
    (a : Assembly)
    (owner : Text)
    (hashes : Dictionary Text) :
    (a.linked owner hashes).fullPath = some owner := by
  unfold linked linkRuntime
  split <;> rfl

/- The runtime code stands where it stood, and is linked. -/
theorem runtimeCode_linked
    {a : Assembly}
    (hDistinct : a.ReferencesDistinct)
    (owner : Text)
    (hashes : Dictionary Text) :
    (a.linked owner hashes).runtimeCode =
      a.runtimeCode.map fun r =>
        link (a.mapping hashes .runtime) (setFullPath owner r) := by
  unfold runtimeCode
  rw [linked_data hDistinct]
  cases a.data with
  | none =>
      rfl
  | some data =>
      dsimp only [Option.map_some]
      rw [Dictionary.get?_mapValues]
      cases hFound : Dictionary.get? runtimeKey data with
      | none => rfl
      | some entry =>
          cases entry with
          | nested r => rfl
          | hash text => rfl
          | path text => rfl

/- The deploy section takes over what its own mapping puts in. -/
theorem mem_deployDependencies_iff
    {owner : Text}
    {hashes : Dictionary Text}
    {a : Assembly}
    (hUnlinked : a.Unlinked)
    (hDistinct : a.ReferencesDistinct)
    (path : Text) :
    path ∈ (link (a.mapping hashes .deploy) a).factoryDependencies ↔
      ∃ key, (key, DataEntry.path path) ∈
        (a.linked owner hashes).data.getD [] := by
  rcases hUnlinked with ⟨-, hDependencies, hPaths, -⟩
  rw [linked_data hDistinct, getD_map_mapValues,
    ← mem_linkedPaths_iff (a.mapping hashes .deploy)]
  · unfold link
    dsimp only
    rw [TextSet.mem_union, hDependencies]
    simp
  · intro key entry hMember path
    by_cases hKey : key = runtimeKey
    · subst hKey
      rw [linkedPath?_runtimeKey hDistinct hashes hMember]
      cases entry with
      | nested r => simp [linkedDeployEntry]
      | hash text => simp [linkedDeployEntry]
      | path text => exact absurd hMember (hPaths _ text)
    · rw [linkedDeployEntry_of_ne hKey]
      apply linkEntry_eq_path_iff
      rintro text rfl
      exact hPaths key text hMember

theorem mem_entries_deploy_iff
    {a : Assembly}
    {key : Text}
    {entry : DataEntry} :
    (key, entry) ∈ a.entries .deploy ↔
      (key, entry) ∈ a.data.getD [] ∧ key ≠ runtimeKey := by
  unfold entries
  rw [List.mem_filter]
  simp

/- No path stands in a section before linking. -/
theorem path_notMem_entries_deploy
    {a : Assembly}
    (hUnlinked : a.Unlinked)
    (key text : Text) :
    (key, DataEntry.path text) ∉ a.entries .deploy := by
  rcases hUnlinked with ⟨-, -, hPaths, -⟩
  intro hMember
  exact hPaths key text (mem_entries_deploy_iff.mp hMember).1

/- The entry of the runtime code is linked on its own. -/
theorem linkedRuntimeEntry_linkedDeployEntry
    {owner : Text}
    {hashes : Dictionary Text}
    {a : Assembly}
    (hUnlinked : a.Unlinked)
    (hDistinct : a.ReferencesDistinct)
    (hKnown : firstUnknown? hashes (a.entries .runtime) = none)
    {entry : DataEntry}
    (hMember : (runtimeKey, entry) ∈ a.data.getD []) :
    LinkedRuntimeEntry owner hashes entry
      (linkedDeployEntry owner hashes a runtimeKey entry) := by
  cases entry with
  | nested r =>
      have hCode := (runtimeCode_eq_some_iff hDistinct).mpr hMember
      exact LinkedRuntimeEntry.code
        (linkedRuntime_link hCode hUnlinked hDistinct hKnown)
  | hash text =>
      exact LinkedRuntimeEntry.text
  | path text =>
      rcases hUnlinked with ⟨-, -, hPaths, -⟩
      exact absurd hMember (hPaths _ text)

/- The paths of both sections are all taken over. -/
theorem mem_linked_factoryDependencies_iff
    {owner : Text}
    {hashes : Dictionary Text}
    {a : Assembly}
    (hUnlinked : a.Unlinked)
    (hDistinct : a.ReferencesDistinct)
    (hKnown : firstUnknown? hashes (a.entries .runtime) = none)
    (path : Text) :
    path ∈ (a.linked owner hashes).factoryDependencies ↔
      (∃ key, (key, DataEntry.path path) ∈
        (a.linked owner hashes).data.getD []) ∨
        ∃ key, (key, DataEntry.path path) ∈
          (a.linked owner hashes).entries .runtime := by
  have hRuntime :
      (a.linked owner hashes).runtimeCode =
        a.runtimeCode.map fun r =>
          link (a.mapping hashes .runtime) (setFullPath owner r) :=
    runtimeCode_linked hDistinct owner hashes
  rw [linked_factoryDependencies hDistinct,
    ← mem_deployDependencies_iff hUnlinked hDistinct]
  cases hCode : a.runtimeCode with
  | none =>
      rw [hCode] at hRuntime
      unfold entries
      rw [hRuntime]
      simp
  | some r =>
      rw [hCode] at hRuntime
      have hLinked : LinkedRuntime owner hashes r _ :=
        linkedRuntime_link hCode hUnlinked hDistinct hKnown
      rw [entries_runtime hRuntime, ← hLinked.dependencies path]
      exact TextSet.mem_union

/-
  If both passes find every nested assembly, the assembly is
  linked as its sections say.
-/
theorem linkedAssembly_linked
    {owner : Text}
    {hashes : Dictionary Text}
    {a : Assembly}
    (hUnlinked : a.Unlinked)
    (hDistinct : a.ReferencesDistinct)
    (hKnown :
      firstUnknown? hashes
        (a.entries .deploy ++ a.entries .runtime) = none) :
    LinkedAssembly owner hashes a (a.linked owner hashes) := by
  rw [firstUnknown?_append, Option.or_eq_none_iff] at hKnown
  have hNoPath := path_notMem_entries_deploy hUnlinked
  constructor
  · exact linked_fullPath a owner hashes
  · exact linked_auxdata a owner hashes
  · rw [linked_code]
    exact linkedListing_link hNoPath a.code
  · rw [linked_data hDistinct]
    apply rel_map_mapValues
    intro key entry hMember
    refine ⟨rfl, ?_⟩
    by_cases hKey : key = runtimeKey
    · subst hKey
      rw [if_pos rfl]
      exact linkedRuntimeEntry_linkedDeployEntry hUnlinked hDistinct
        hKnown.2 hMember
    · rw [if_neg hKey]
      have hEntry : (key, entry) ∈ a.entries .deploy :=
        mem_entries_deploy_iff.mpr ⟨hMember, hKey⟩
      dsimp only
      rw [linkedDeployEntry_of_ne hKey]
      exact linkedEntry_linkEntry hNoPath
        (hDistinct.nodup_entries .deploy) hKnown.1 hEntry
  · exact mem_linked_factoryDependencies_iff hUnlinked hDistinct
      hKnown.2

end Assembly

end ContractLinker
