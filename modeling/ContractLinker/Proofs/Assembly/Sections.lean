import ContractLinker.Proofs.Dictionary
import ContractLinker.Assembly.Linking

/-
  The two sections of an assembly that linking looks at, and
  what the passes over them compute. A pass fails with the
  first nested assembly whose content hash is unknown;
  otherwise it maps each reference to the path of the first
  entry which makes that reference and stands for a contract.

  Key definitions include:
    * `Section`
    * `Assembly.entries`
    * `Assembly.Ordered`
    * `DataEntry.target?`
    * `DataEntry.unknown?`
    * `Assembly.mapping`
    * `Assembly.linked`

  Main statements:
    * `Assembly.sectionPass_eq`
    * `Assembly.resolve_eq`
    * `Assembly.resolve_eq_ok_iff`
    * `Assembly.get?_mapping_of_mem`
-/

------------------------------------------------------------
-- Sections
------------------------------------------------------------

namespace ContractLinker

/- The deploy code and the runtime code of an assembly. -/
inductive Section where
  | deploy
  | runtime
deriving DecidableEq, Repr

namespace Assembly

/-
  The entries of a section that are linked. The runtime code
  is no entry of the deploy section.
-/
def entries (a : Assembly) : Section → List (Text × DataEntry)
  | .deploy =>
      (a.data.getD []).filter fun entry => entry.1 ≠ runtimeKey
  | .runtime => (a.runtimeCode.bind Assembly.data).getD []

/- The data sections are in order, at every depth. -/
inductive Ordered : Assembly → Prop where
  | intro {a : Assembly}
      (hData : Dictionary.Ordered (a.data.getD []))
      (hNested : ∀ key b, (key, DataEntry.nested b) ∈ a.data.getD [] →
        Ordered b) :
      Ordered a

/- The runtime code is one of the nested assemblies. -/
theorem mem_of_runtimeCode
    {a r : Assembly}
    (hRuntime : a.runtimeCode = some r) :
    (runtimeKey, DataEntry.nested r) ∈ a.data.getD [] := by
  unfold runtimeCode at hRuntime
  cases hData : a.data with
  | none =>
      rw [hData] at hRuntime
      cases hRuntime
  | some data =>
      rw [hData] at hRuntime
      rcases Option.bind_eq_some_iff.mp hRuntime with
        ⟨entry, hFound, hNested⟩
      cases entry with
      | nested b =>
          cases hNested
          exact Dictionary.mem_of_get? hFound
      | hash text => cases hNested
      | path text => cases hNested

/- Without data there are no entries. -/
theorem notMem_entries_of_data
    {a : Assembly}
    (hData : a.data = none)
    (s : Section)
    (entry : Text × DataEntry) :
    entry ∉ a.entries s := by
  cases s with
  | deploy => simp [entries, hData]
  | runtime => simp [entries, runtimeCode, hData]

/- The entries of a section are in order if the assembly is. -/
theorem ordered_entries
    {a : Assembly}
    (hOrdered : a.Ordered)
    (s : Section) :
    Dictionary.Ordered (a.entries s) := by
  rcases hOrdered with ⟨hData, hNested⟩
  cases s with
  | deploy =>
      exact hData.sublist List.filter_sublist
  | runtime =>
      rw [entries]
      cases hRuntime : a.runtimeCode with
      | none =>
          exact List.Pairwise.nil
      | some r =>
          rcases hNested _ r (mem_of_runtimeCode hRuntime) with
            ⟨hRuntimeData, -⟩
          exact hRuntimeData

end Assembly

------------------------------------------------------------
-- Entries
------------------------------------------------------------

namespace DataEntry

/- The path of the contract which an entry stands for. -/
def target? (hashes : Dictionary Text) : DataEntry → Option Text
  | .nested a => hashes.get? a.contentHash
  | .hash text => hashes.get? text
  | .path text => some text

/- The content hash of a nested assembly which is not known. -/
def unknown? (hashes : Dictionary Text) : DataEntry → Option Text
  | .nested a =>
      if hashes.contains a.contentHash then none
      else some a.contentHash
  | .hash _ | .path _ => none

theorem unknown?_eq_some_iff
    {hashes : Dictionary Text}
    {entry : DataEntry}
    {unknown : Text} :
    entry.unknown? hashes = some unknown ↔
      ∃ a, entry = .nested a ∧ a.contentHash = unknown ∧
        hashes.get? unknown = none := by
  cases entry with
  | nested a =>
      rw [unknown?]
      cases hKnown : hashes.contains a.contentHash with
      | true =>
          rw [if_pos rfl]
          constructor
          · intro hNone
            cases hNone
          · intro hExists
            rcases hExists with ⟨b, hEq, rfl, hNone⟩
            cases hEq
            rw [Dictionary.contains, hNone] at hKnown
            cases hKnown
      | false =>
          rw [if_neg (by simp)]
          constructor
          · intro hEq
            cases hEq
            exact ⟨a, rfl, rfl,
              Dictionary.contains_eq_false_iff.mp hKnown⟩
          · intro hExists
            rcases hExists with ⟨b, hEq, rfl, -⟩
            cases hEq
            rfl
  | hash text =>
      simp [unknown?]
  | path text =>
      simp [unknown?]

/- A nested assembly which is not among the known ones. -/
theorem unknown?_ne_none
    {hashes : Dictionary Text}
    {a : Assembly}
    (hUnknown : hashes.get? a.contentHash = none) :
    (nested a).unknown? hashes ≠ none := by
  intro hNone
  have hSome :=
    unknown?_eq_some_iff.mpr ⟨a, rfl, rfl, hUnknown⟩
  rw [hNone] at hSome
  cases hSome

/- What resolving an entry comes to. -/
theorem resolveEntry_eq
    (fullPath : Text)
    (hashes : Dictionary Text)
    (entry : DataEntry) :
    Assembly.resolveEntry fullPath hashes entry =
      match entry.unknown? hashes with
      | some unknown => .error ⟨unknown, fullPath⟩
      | none => .ok (entry.target? hashes) := by
  cases entry with
  | nested a =>
      rw [Assembly.resolveEntry, unknown?, target?,
        Dictionary.contains]
      cases hashes.get? a.contentHash <;> rfl
  | hash text =>
      rfl
  | path text =>
      rfl

end DataEntry

------------------------------------------------------------
-- Passes
------------------------------------------------------------

namespace Assembly

/- The first unknown content hash among some entries. -/
def firstUnknown? (hashes : Dictionary Text)
    (entries : List (Text × DataEntry)) : Option Text :=
  entries.findSome? fun entry => entry.2.unknown? hashes

theorem firstUnknown?_append
    (hashes : Dictionary Text)
    (front back : List (Text × DataEntry)) :
    firstUnknown? hashes (front ++ back) =
      (firstUnknown? hashes front).or
        (firstUnknown? hashes back) := by
  exact List.findSome?_append

/- Add the references of some entries to a mapping. -/
def extend (hashes : Dictionary Text)
    (entries : List (Text × DataEntry))
    (mapping : Dictionary Text) : Dictionary Text :=
  entries.foldl
    (fun mapping entry =>
      match entry.2.target? hashes with
      | some path =>
          mapping.insertNew (Instruction.reference entry.1) path
      | none => mapping)
    mapping

/-
  A pass looks for the first unknown content hash among the
  entries it does not skip, and maps their references.
-/
theorem sectionPass_eq
    (skip : Text → Bool)
    (fullPath : Text)
    (hashes : Dictionary Text)
    (data : List (Text × DataEntry))
    (mapping : Dictionary Text) :
    sectionPass skip fullPath hashes data mapping =
      match firstUnknown? hashes
          (data.filter fun entry => !skip entry.1) with
      | some hash => .error ⟨hash, fullPath⟩
      | none =>
          .ok
            (extend hashes
              (data.filter fun entry => !skip entry.1) mapping) := by
  induction data generalizing mapping with
  | nil =>
      rfl
  | cons first data ih =>
      rcases first with ⟨key, entry⟩
      rw [sectionPass]
      by_cases hSkip : skip key = true
      · rw [if_pos hSkip, ih,
          List.filter_cons_of_neg (by simp [hSkip])]
      · rw [if_neg hSkip, DataEntry.resolveEntry_eq,
          List.filter_cons_of_pos (by simp [hSkip]),
          firstUnknown?, List.findSome?_cons]
        cases hUnknown : entry.unknown? hashes with
        | some hash =>
            rfl
        | none =>
            cases hTarget : entry.target? hashes with
            | none =>
                dsimp only
                rw [ih, extend, extend, List.foldl_cons, hTarget]
                rfl
            | some path =>
                dsimp only
                rw [ih, extend, extend, List.foldl_cons, hTarget]
                rfl

/- The references of a section and the paths they stand for. -/
def mapping (hashes : Dictionary Text) (a : Assembly)
    (s : Section) : Dictionary Text :=
  extend hashes (a.entries s) []

theorem deployPass_eq
    (fullPath : Text)
    (hashes : Dictionary Text)
    (a : Assembly) :
    a.deployPass fullPath hashes =
      match firstUnknown? hashes (a.entries .deploy) with
      | some hash => .error ⟨hash, fullPath⟩
      | none => .ok (a.mapping hashes .deploy) := by
  unfold deployPass mapping entries
  cases a.data with
  | none =>
      rfl
  | some data =>
      dsimp only
      rw [sectionPass_eq]
      simp

theorem runtimePass_eq
    (fullPath : Text)
    (hashes : Dictionary Text)
    (a : Assembly) :
    a.runtimePass fullPath hashes =
      match firstUnknown? hashes (a.entries .runtime) with
      | some hash => .error ⟨hash, fullPath⟩
      | none => .ok (a.mapping hashes .runtime) := by
  unfold runtimePass mapping entries
  cases a.runtimeCode.bind Assembly.data with
  | none =>
      rfl
  | some data =>
      have hAll :
          (data.filter fun _ : Text × DataEntry => !false) = data := by
        simp
      dsimp only
      rw [sectionPass_eq, hAll]
      rfl

------------------------------------------------------------
-- Resolution
------------------------------------------------------------

/- An assembly with the mappings of its sections put in. -/
def linked (fullPath : Text) (hashes : Dictionary Text)
    (a : Assembly) : Assembly :=
  linkRuntime fullPath (a.mapping hashes .runtime)
    (link (a.mapping hashes .deploy) (setFullPath fullPath a))

/-
  Resolution fails with the first unknown content hash, of
  the deploy section before the runtime section.
-/
theorem resolve_eq
    (fullPath : Text)
    (hashes : Dictionary Text)
    (a : Assembly) :
    a.resolve fullPath hashes =
      match firstUnknown? hashes
          (a.entries .deploy ++ a.entries .runtime) with
      | some hash => .error ⟨hash, fullPath⟩
      | none => .ok (a.linked fullPath hashes) := by
  unfold resolve
  rw [deployPass_eq, runtimePass_eq, firstUnknown?_append]
  cases firstUnknown? hashes (a.entries .deploy) with
  | some hash =>
      rfl
  | none =>
      rw [Option.none_or]
      cases firstUnknown? hashes (a.entries .runtime) with
      | some hash =>
          rfl
      | none =>
          rfl

/- A resolution which succeeds links an assembly all of whose parts are known. -/
theorem resolve_eq_ok_iff
    {fullPath : Text}
    {hashes : Dictionary Text}
    {a b : Assembly} :
    a.resolve fullPath hashes = .ok b ↔
      firstUnknown? hashes (a.entries .deploy ++ a.entries .runtime) =
          none ∧
        a.linked fullPath hashes = b := by
  rw [resolve_eq]
  cases firstUnknown? hashes
      (a.entries .deploy ++ a.entries .runtime) with
  | some hash => simp
  | none => simp

------------------------------------------------------------
-- Mappings
------------------------------------------------------------

theorem get?_extend
    (hashes : Dictionary Text)
    (entries : List (Text × DataEntry))
    (mapping : Dictionary Text)
    (ref : Text) :
    (extend hashes entries mapping).get? ref =
      (mapping.get? ref).or
        (entries.findSome? fun entry =>
          if Instruction.reference entry.1 = ref then
            entry.2.target? hashes
          else
            none) := by
  induction entries generalizing mapping with
  | nil =>
      simp [extend]
  | cons first entries ih =>
      rcases first with ⟨key, entry⟩
      rw [extend, List.foldl_cons, ← extend, ih,
        List.findSome?_cons]
      cases hTarget : entry.target? hashes with
      | none =>
          simp
      | some path =>
          dsimp only
          rw [Dictionary.get?_insertNew, Option.or_assoc]
          split <;> simp

/- A pass which begins with nothing finds its paths in the entries. -/
theorem get?_extend_nil
    (hashes : Dictionary Text)
    (entries : List (Text × DataEntry))
    (ref : Text) :
    (extend hashes entries []).get? ref =
      entries.findSome? fun entry =>
        if Instruction.reference entry.1 = ref then
          entry.2.target? hashes
        else
          none := by
  rw [get?_extend, Dictionary.get?_nil, Option.none_or]

theorem exists_entry_of_get?_extend
    {hashes : Dictionary Text}
    {entries : List (Text × DataEntry)}
    {ref path : Text}
    (hFound : (extend hashes entries []).get? ref = some path) :
    ∃ key entry, (key, entry) ∈ entries ∧
      Instruction.reference key = ref ∧
      entry.target? hashes = some path := by
  rw [get?_extend_nil] at hFound
  rcases List.exists_of_findSome?_eq_some hFound with
    ⟨⟨key, entry⟩, hMember, hEntry⟩
  by_cases hRef : Instruction.reference key = ref
  · rw [if_pos hRef] at hEntry
    exact ⟨key, entry, hMember, hRef, hEntry⟩
  · rw [if_neg hRef] at hEntry
    cases hEntry

theorem target?_eq_none_of_get?_extend
    {hashes : Dictionary Text}
    {entries : List (Text × DataEntry)}
    {ref : Text}
    (hAbsent : (extend hashes entries []).get? ref = none)
    {key : Text}
    {entry : DataEntry}
    (hMember : (key, entry) ∈ entries)
    (hRef : Instruction.reference key = ref) :
    entry.target? hashes = none := by
  rw [get?_extend_nil] at hAbsent
  have hEntry := List.findSome?_eq_none_iff.mp hAbsent _ hMember
  rw [if_pos hRef] at hEntry
  exact hEntry

/- A reference is mapped to the path of an entry which makes it. -/
theorem exists_entry_of_get?_mapping
    {hashes : Dictionary Text}
    {a : Assembly}
    {s : Section}
    {ref path : Text}
    (hFound : (a.mapping hashes s).get? ref = some path) :
    ∃ key entry, (key, entry) ∈ a.entries s ∧
      Instruction.reference key = ref ∧
      entry.target? hashes = some path := by
  exact exists_entry_of_get?_extend hFound

/- A reference which is not mapped makes no replacement. -/
theorem target?_eq_none_of_get?_mapping
    {hashes : Dictionary Text}
    {a : Assembly}
    {s : Section}
    {ref : Text}
    (hAbsent : (a.mapping hashes s).get? ref = none)
    {key : Text}
    {entry : DataEntry}
    (hMember : (key, entry) ∈ a.entries s)
    (hRef : Instruction.reference key = ref) :
    entry.target? hashes = none := by
  exact target?_eq_none_of_get?_extend hAbsent hMember hRef

/- If no two keys make one reference, every entry decides its own. -/
theorem get?_mapping_of_mem
    (hashes : Dictionary Text)
    {a : Assembly}
    {s : Section}
    (hDistinct :
      ((a.entries s).map fun entry =>
        Instruction.reference entry.1).Nodup)
    {key : Text}
    {entry : DataEntry}
    (hMember : (key, entry) ∈ a.entries s) :
    (a.mapping hashes s).get? (Instruction.reference key) =
      entry.target? hashes := by
  rw [mapping, get?_extend_nil]
  generalize a.entries s = entries at hDistinct hMember ⊢
  induction entries with
  | nil =>
      simp at hMember
  | cons first entries ih =>
      rcases first with ⟨k, e⟩
      rw [List.map_cons, List.nodup_cons] at hDistinct
      -- Entries that make another reference do not count.
      have hOther :
          ∀ l f, (l, f) ∈ entries →
            Instruction.reference l ≠ Instruction.reference k := by
        intro l f hEntry hEq
        apply hDistinct.1
        exact List.mem_map.mpr ⟨(l, f), hEntry, hEq⟩
      rw [List.findSome?_cons]
      rcases List.mem_cons.mp hMember with hHead | hTail
      · cases hHead
        rw [if_pos rfl]
        cases hTarget : entry.target? hashes with
        | some path =>
            rfl
        | none =>
            apply List.findSome?_eq_none_iff.mpr
            intro entry hEntry
            rcases entry with ⟨l, f⟩
            rw [if_neg (hOther l f hEntry)]
      · rw [if_neg (hOther key entry hTail).symm]
        exact ih hDistinct.2 hTail

end Assembly

end ContractLinker
