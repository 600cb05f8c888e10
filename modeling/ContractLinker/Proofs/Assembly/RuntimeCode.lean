import ContractLinker.Proofs.Assembly.Linking

/-
  What linking makes of the runtime code. The pass over the
  deploy data leaves out the key of the runtime code, but
  entries and operands are replaced by reference, and other
  keys may make the reference of that key, such as `00`. If
  no entry under such a key stands for a contract, the
  runtime code stays and so do the references to it. If one
  does, the path of its contract takes the place of both.

  Key definitions include:
    * `Assembly.runtimeTarget?`
    * `KeptRuntime`
    * `ReplacedRuntime`

  Main statements:
    * `Assembly.kept_or_replaced_of_resolve`
    * `Assembly.not_forall_isSome_runtimeCode`
-/

------------------------------------------------------------
-- Runtime Code Before And After
------------------------------------------------------------

namespace ContractLinker

/-
  The contract whose path is put in for the reference of the
  runtime key: that of the first entry of the deploy data
  which makes this reference and stands for a contract.
-/
def Assembly.runtimeTarget? (hashes : Dictionary Text)
    (a : Assembly) : Option Text :=
  (a.entries .deploy).findSome? fun entry =>
    if Instruction.reference entry.1 =
        Instruction.reference Assembly.runtimeKey then
      entry.2.target? hashes
    else
      none

/- An instruction whose operand makes the reference of the runtime key. -/
def Instruction.RefersToRuntime (i : Instruction) : Prop :=
  ∃ operand, i.value = some operand ∧
    Instruction.reference operand =
      Instruction.reference Assembly.runtimeKey

/-
  The runtime code stands where it stood, its operands
  replaced by the paths of its own data section only, and no
  reference to it is rewritten.
-/
structure KeptRuntime (owner : Text) (hashes : Dictionary Text)
    (a b : Assembly) : Prop where
  code : ∃ r r' mapping,
    a.runtimeCode = some r ∧
    b.runtimeCode = some r' ∧
    a.runtimePass owner hashes = .ok mapping ∧
    r'.code = r.code.map (List.map (Instruction.link mapping))
  references :
    Option.Rel
      (List.Forall₂ fun i i' => i.RefersToRuntime → i' = i)
      a.code b.code

/-
  A path stands in the place of the runtime code, and in that
  of all data aliases which referred to it.
-/
structure ReplacedRuntime (path : Text) (a b : Assembly) :
    Prop where
  code : b.runtimeCode = none
  entry :
    Dictionary.get? Assembly.runtimeKey (b.data.getD []) =
      some (.path path)
  references :
    Option.Rel
      (List.Forall₂ fun i i' =>
        i.isDataAlias = true → i.RefersToRuntime →
          i' = { i with value := some path })
      a.code b.code
  dependency : path ∈ b.factoryDependencies

------------------------------------------------------------
-- References To The Runtime Code
------------------------------------------------------------

namespace Instruction

/- An operand whose reference is not mapped stays. -/
theorem link_of_unmapped
    {mapping : Dictionary Text}
    (hUnmapped :
      mapping.get? (reference Assembly.runtimeKey) = none)
    {i : Instruction}
    (hRefers : i.RefersToRuntime) :
    i.link mapping = i := by
  rcases hRefers with ⟨operand, hValue, hReference⟩
  unfold link localReference
  rw [hValue, Option.map_some, hReference]
  by_cases hAlias : i.isDataAlias = true
  · rw [if_pos hAlias]
    dsimp only
    rw [hUnmapped]
  · rw [if_neg hAlias]

theorem link_of_mapped
    {mapping : Dictionary Text}
    {path : Text}
    (hMapped :
      mapping.get? (reference Assembly.runtimeKey) = some path)
    {i : Instruction}
    (hAlias : i.isDataAlias = true)
    (hRefers : i.RefersToRuntime) :
    i.link mapping = { i with value := some path } := by
  rcases hRefers with ⟨operand, hValue, hReference⟩
  unfold link localReference
  rw [if_pos hAlias, hValue, Option.map_some, hReference]
  dsimp only
  rw [hMapped]

end Instruction

namespace Assembly

/- The deploy mapping has the runtime key's reference if there is a target. -/
theorem linkedPath?_eq_runtimeTarget?
    (hashes : Dictionary Text)
    (a : Assembly) :
    linkedPath? (a.mapping hashes .deploy) runtimeKey =
      a.runtimeTarget? hashes := by
  rw [linkedPath?, mapping, get?_extend_nil]
  rfl

/- A listing of which each instruction becomes what it is linked to. -/
theorem rel_linked_code
    {owner : Text}
    {hashes : Dictionary Text}
    {a : Assembly}
    {related : Instruction → Instruction → Prop}
    (hEach : ∀ i, related i (i.link (a.mapping hashes .deploy))) :
    Option.Rel (List.Forall₂ related)
      a.code (a.linked owner hashes).code := by
  rw [linked_code]
  cases a.code with
  | none =>
      exact Option.Rel.none
  | some instructions =>
      apply Option.Rel.some
      rw [List.forall₂_map_right_iff, List.forall₂_same]
      intro i _
      exact hEach i

------------------------------------------------------------
-- Where The Runtime Code Stands
------------------------------------------------------------

/- The entry of the runtime key is linked by its reference. -/
theorem get?_data_link
    (mapping : Dictionary Text)
    (owner : Text)
    (a : Assembly) :
    Dictionary.get? runtimeKey
        ((link mapping (setFullPath owner a)).data.getD []) =
      (Dictionary.get? runtimeKey (a.data.getD [])).map
        (linkEntry mapping runtimeKey) := by
  unfold link setFullPath
  dsimp only
  rw [getD_map_mapValues, Dictionary.get?_mapValues]

theorem runtimeCode_eq
    (a : Assembly) :
    a.runtimeCode =
      (Dictionary.get? runtimeKey (a.data.getD [])).bind
        DataEntry.nested? := by
  unfold runtimeCode
  cases a.data with
  | none => rfl
  | some data => rfl

/- Without a path for its reference, the runtime code stays. -/
theorem runtimeCode_link_of_none
    {mapping : Dictionary Text}
    (hPath : linkedPath? mapping runtimeKey = none)
    (owner : Text)
    (a : Assembly) :
    (link mapping (setFullPath owner a)).runtimeCode =
      a.runtimeCode := by
  have hEntry : linkEntry mapping runtimeKey = id := by
    funext entry
    unfold linkEntry
    rw [hPath]
    rfl
  rw [runtimeCode_eq, get?_data_link, hEntry, Option.map_id, id,
    ← runtimeCode_eq]

/- With a path for its reference, the path is all that is left. -/
theorem get?_data_link_of_some
    {mapping : Dictionary Text}
    {path : Text}
    (hPath : linkedPath? mapping runtimeKey = some path)
    (owner : Text)
    {a r : Assembly}
    (hRuntime : a.runtimeCode = some r) :
    Dictionary.get? runtimeKey
        ((link mapping (setFullPath owner a)).data.getD []) =
      some (.path path) := by
  rw [runtimeCode_eq] at hRuntime
  rcases Option.bind_eq_some_iff.mp hRuntime with ⟨entry, hFound, -⟩
  rw [get?_data_link, hFound, Option.map_some, linkEntry, hPath]

theorem runtimeCode_mapRuntimeCode
    (f : Assembly → Assembly)
    (a : Assembly) :
    (mapRuntimeCode f a).runtimeCode = a.runtimeCode.map f := by
  rw [runtimeCode_eq, runtimeCode_eq]
  unfold mapRuntimeCode
  dsimp only
  rw [getD_map_mapValues, Dictionary.get?_mapValues]
  cases Dictionary.get? runtimeKey (a.data.getD []) with
  | none =>
      rfl
  | some entry =>
      cases entry with
      | nested b => rfl
      | hash text => rfl
      | path text => rfl

/- The runtime code is linked in its place, with the runtime mapping. -/
theorem runtimeCode_linked_of_none
    {hashes : Dictionary Text}
    {a r : Assembly}
    (hTarget : a.runtimeTarget? hashes = none)
    (hRuntime : a.runtimeCode = some r)
    (owner : Text) :
    (a.linked owner hashes).runtimeCode =
      some (link (a.mapping hashes .runtime) (setFullPath owner r)) := by
  have hStays :
      (link (a.mapping hashes .deploy)
          (setFullPath owner a)).runtimeCode = some r := by
    rw [← linkedPath?_eq_runtimeTarget?] at hTarget
    rw [runtimeCode_link_of_none hTarget, hRuntime]
  unfold linked linkRuntime
  rw [hStays]
  calc
    _ = (mapRuntimeCode
            (fun _ => link (a.mapping hashes .runtime) (setFullPath owner r))
            (link (a.mapping hashes .deploy)
              (setFullPath owner a))).runtimeCode := by
      rfl
    _ = _ := by
      rw [runtimeCode_mapRuntimeCode, hStays, Option.map_some]

/- Nothing is linked in the place of a runtime code which is replaced. -/
theorem linked_of_some
    {hashes : Dictionary Text}
    {path : Text}
    {a r : Assembly}
    (hTarget : a.runtimeTarget? hashes = some path)
    (hRuntime : a.runtimeCode = some r)
    (owner : Text) :
    a.linked owner hashes =
      link (a.mapping hashes .deploy) (setFullPath owner a) := by
  rw [← linkedPath?_eq_runtimeTarget?] at hTarget
  have hGone :
      (link (a.mapping hashes .deploy)
          (setFullPath owner a)).runtimeCode = none := by
    rw [runtimeCode_eq, get?_data_link_of_some hTarget owner hRuntime]
    rfl
  unfold linked linkRuntime
  rw [hGone]

------------------------------------------------------------
-- Both Outcomes
------------------------------------------------------------

theorem keptRuntime_linked
    {hashes : Dictionary Text}
    {a r : Assembly}
    (hTarget : a.runtimeTarget? hashes = none)
    (hRuntime : a.runtimeCode = some r)
    {owner : Text}
    (hKnown : firstUnknown? hashes (a.entries .runtime) = none) :
    KeptRuntime owner hashes a (a.linked owner hashes) := by
  constructor
  · refine ⟨r, _, a.mapping hashes .runtime, hRuntime,
      runtimeCode_linked_of_none hTarget hRuntime owner, ?_, rfl⟩
    rw [runtimePass_eq, hKnown]
  · apply rel_linked_code
    intro i
    apply Instruction.link_of_unmapped
    rw [← linkedPath?_eq_runtimeTarget?] at hTarget
    exact hTarget

theorem replacedRuntime_linked
    {hashes : Dictionary Text}
    {path : Text}
    {a r : Assembly}
    (hTarget : a.runtimeTarget? hashes = some path)
    (hRuntime : a.runtimeCode = some r)
    {owner : Text} :
    ReplacedRuntime path a (a.linked owner hashes) := by
  have hPath :
      linkedPath? (a.mapping hashes .deploy) runtimeKey =
        some path := by
    rw [linkedPath?_eq_runtimeTarget?, hTarget]
  have hEntry :
      Dictionary.get? runtimeKey
          ((a.linked owner hashes).data.getD []) =
        some (.path path) := by
    rw [linked_of_some hTarget hRuntime]
    exact get?_data_link_of_some hPath owner hRuntime
  constructor
  · rw [runtimeCode_eq, hEntry]
    rfl
  · exact hEntry
  · apply rel_linked_code
    intro i hAlias hRefers
    exact Instruction.link_of_mapped hPath hAlias hRefers
  · rw [linked_of_some hTarget hRuntime]
    unfold link
    dsimp only
    rw [TextSet.mem_union]
    refine Or.inr (List.mem_filterMap.mpr ?_)
    exact ⟨_, mem_of_runtimeCode hRuntime, hPath⟩

/-
  A resolution which succeeds keeps the runtime code and the
  references to it, unless an entry under another key with
  the same reference stands for a contract.
-/
theorem kept_or_replaced_of_resolve
    {owner : Text}
    {hashes : Dictionary Text}
    {a b r : Assembly}
    (hRuntime : a.runtimeCode = some r)
    (hResolve : a.resolve owner hashes = .ok b) :
    (a.runtimeTarget? hashes = none ∧ KeptRuntime owner hashes a b) ∨
      ∃ path, a.runtimeTarget? hashes = some path ∧
        ReplacedRuntime path a b := by
  rw [resolve_eq] at hResolve
  cases hKnown : firstUnknown? hashes
      (a.entries .deploy ++ a.entries .runtime) with
  | some unknown =>
      rw [hKnown] at hResolve
      cases hResolve
  | none =>
      rw [hKnown] at hResolve
      cases hResolve
      rw [firstUnknown?_append, Option.or_eq_none_iff] at hKnown
      cases hTarget : a.runtimeTarget? hashes with
      | none =>
          exact Or.inl
            ⟨rfl, keptRuntime_linked hTarget hRuntime hKnown.2⟩
      | some path =>
          exact Or.inr
            ⟨path, rfl, replacedRuntime_linked hTarget hRuntime⟩

/-
  An assembly whose data has a text under `00` beside the
  runtime code, to which its only instruction refers.
-/
def shadowed : Assembly where
  fullPath := none
  code :=
    some
      [ { name := ascii "PUSH [$]"
          value := some (ascii "0")
          source := none
          rangeBegin := none
          rangeEnd := none
          jumpType := none } ]
  data :=
    some
      [ (runtimeKey,
          .nested
            { fullPath := none
              code := some []
              data := none
              auxdata := none
              factoryDependencies := [] }),
        (ascii "00", .hash (ascii "aa")) ]
  auxdata := none
  factoryDependencies := []

/- A table in which the text of the shadowed assembly is a hash. -/
def shadowingHashes : Dictionary Text :=
  [(ascii "aa", ascii "b.sol:B")]

theorem replacedRuntime_shadowed :
    shadowed.runtimeCode.isSome ∧
      (∃ b, shadowed.resolve (ascii "a.sol:A") [] = .ok b ∧
        KeptRuntime (ascii "a.sol:A") [] shadowed b) ∧
      ∃ b, shadowed.resolve (ascii "a.sol:A") shadowingHashes = .ok b ∧
        ReplacedRuntime (ascii "b.sol:B") shadowed b := by
  have hPlain :
      ∃ b, shadowed.resolve (ascii "a.sol:A") [] = .ok b :=
    ⟨_, rfl⟩
  have hShadowed :
      ∃ b, shadowed.resolve (ascii "a.sol:A") shadowingHashes =
        .ok b :=
    ⟨_, rfl⟩
  rcases hPlain with ⟨b, hPlain⟩
  rcases hShadowed with ⟨b', hShadowed⟩
  refine ⟨rfl, ⟨b, hPlain, ?_⟩, b', hShadowed, ?_⟩
  · rcases kept_or_replaced_of_resolve rfl hPlain with
      ⟨-, hKept⟩ | ⟨path, hTarget, -⟩
    · exact hKept
    · cases hTarget
  · rcases kept_or_replaced_of_resolve rfl hShadowed with
      ⟨hTarget, -⟩ | ⟨path, hTarget, hReplaced⟩
    · cases hTarget
    · cases hTarget
      exact hReplaced

/- The runtime code does not always stay. -/
theorem not_forall_isSome_runtimeCode :
    ¬ ∀ owner hashes (a b : Assembly),
        a.runtimeCode.isSome → a.resolve owner hashes = .ok b →
          b.runtimeCode.isSome := by
  intro hAll
  have hSome :=
    hAll (ascii "a.sol:A") shadowingHashes shadowed _ rfl rfl
  cases hSome

end Assembly

end ContractLinker
