import ContractLinker.Proofs.Assembly.Paths
import ContractLinker.Proofs.Assembly.Relinking

/-
  References as numbers. A key and an operand of at most 64
  digits make the same reference if they denote the same
  number and spell its letters in the same cases; zeros in
  front of either make no difference. With such keys, and no
  two for one number, an operand is replaced just when it is
  spelled like the key of an entry that stands for a contract.

  Key definitions include:
    * `IsReference`
    * `NumeralKeys`
    * `Dereferenced`

  Main statements:
    * `reference_eq_iff`
    * `Assembly.mem_entries_linked_iff`
    * `Assembly.dereferenced_of_resolve`
    * `Assembly.not_forall_number_eq`
-/

------------------------------------------------------------
-- Numerals As References
------------------------------------------------------------

namespace ContractLinker

/- A numeral in hexadecimal which has room in a reference. -/
structure IsReference (s : Text) : Prop where
  nonempty : s ≠ []
  short : s.length ≤ Instruction.referenceWidth
  digits : Hex.AllDigits s

instance (s : Text) : Decidable (IsReference s) :=
  decidable_of_iff
    (s ≠ [] ∧ s.length ≤ Instruction.referenceWidth ∧
      Hex.AllDigits s)
    ⟨fun ⟨hNonempty, hShort, hDigits⟩ => ⟨hNonempty, hShort, hDigits⟩,
      fun ⟨hNonempty, hShort, hDigits⟩ => ⟨hNonempty, hShort, hDigits⟩⟩

/- Entries under numerals of which no two denote one number. -/
structure NumeralKeys (entries : List (Text × DataEntry)) :
    Prop where
  numerals : ∀ entry ∈ entries, IsReference entry.1
  distinct : (entries.map fun entry => Hex.number entry.1).Nodup

instance (entries : List (Text × DataEntry)) :
    Decidable (NumeralKeys entries) :=
  decidable_of_iff
    ((∀ entry ∈ entries, IsReference entry.1) ∧
      (entries.map fun entry => Hex.number entry.1).Nodup)
    ⟨fun ⟨hNumerals, hDistinct⟩ => ⟨hNumerals, hDistinct⟩,
      fun ⟨hNumerals, hDistinct⟩ => ⟨hNumerals, hDistinct⟩⟩

/-
  What becomes of an instruction with an operand: it gets the
  path of an entry whose key is spelled like the operand, and
  stays if there is none.
-/
structure Dereferenced (entries : List (Text × DataEntry))
    (operand : Text) (i i' : Instruction) : Prop where
  replaced : ∀ key path, (key, DataEntry.path path) ∈ entries →
    Hex.Alike key operand → i' = { i with value := some path }
  kept :
    (∀ key path, (key, DataEntry.path path) ∈ entries →
      ¬ Hex.Alike key operand) →
    i' = i

theorem reference_eq_iff
    {s t : Text}
    (hNumeral : IsReference s)
    (hNumeral' : IsReference t) :
    Instruction.reference s = Instruction.reference t ↔
      Hex.Alike s t := by
  exact Hex.padLeft_eq_iff hNumeral.digits hNumeral'.digits
    hNumeral.short hNumeral'.short

/- Keys for different numbers make different references. -/
theorem NumeralKeys.nodup_references
    {entries : List (Text × DataEntry)}
    (hKeys : NumeralKeys entries) :
    (entries.map fun entry =>
      Instruction.reference entry.1).Nodup := by
  have hNumbers :
      (entries.map fun entry => Hex.number entry.1) =
        (entries.map fun entry =>
          Instruction.reference entry.1).map Hex.number := by
    rw [List.map_map]
    apply List.map_congr_left
    intro entry _
    exact (Hex.number_padLeft _ entry.1).symm
  apply List.Nodup.of_map Hex.number
  rw [← hNumbers]
  exact hKeys.distinct

------------------------------------------------------------
-- Sections After Linking
------------------------------------------------------------

namespace Assembly

/- The mapping of a section is put into its entries and its listing. -/
theorem section_linked
    {owner : Text}
    {hashes : Dictionary Text}
    {a : Assembly}
    {s : Section}
    (hData : NumeralKeys (a.data.getD []))
    (hSection : NumeralKeys (a.entries s)) :
    (a.linked owner hashes).entries s =
        Dictionary.mapValues (linkEntry (a.mapping hashes s))
          (a.entries s) ∧
      (a.linked owner hashes).listing s =
        (a.listing s).map
          (List.map (Instruction.link (a.mapping hashes s))) := by
  cases s with
  | deploy =>
      exact ⟨entries_deploy_linked owner hashes a,
        linked_code a owner hashes⟩
  | runtime =>
      have hDistinct : a.ReferencesDistinct :=
        ⟨hData.nodup_references, hSection.nodup_references⟩
      refine ⟨entries_linked hDistinct owner hashes .runtime, ?_⟩
      unfold listing
      rw [runtimeCode_linked hDistinct]
      cases a.runtimeCode with
      | none => rfl
      | some r => rfl

/- A path stands in a linked section where an entry stood for it. -/
theorem mem_mapValues_linkEntry_iff
    {hashes : Dictionary Text}
    {a : Assembly}
    {s : Section}
    (hSection : NumeralKeys (a.entries s))
    (key path : Text) :
    (key, DataEntry.path path) ∈
        Dictionary.mapValues (linkEntry (a.mapping hashes s))
          (a.entries s) ↔
      ∃ entry, (key, entry) ∈ a.entries s ∧
        entry.target? hashes = some path := by
  rw [Dictionary.mem_mapValues_iff]
  refine exists_congr fun entry => and_congr_right fun hMember => ?_
  have hMapped :=
    get?_mapping_of_mem hashes hSection.nodup_references hMember
  unfold linkEntry linkedPath?
  rw [hMapped]
  cases hTarget : entry.target? hashes with
  | some other =>
      simp
  | none =>
      -- An entry without a target is no path already.
      constructor
      · rintro rfl
        cases hTarget
      · intro hSome
        cases hSome

/- What the mapping of a section makes of an operand that is a numeral. -/
theorem dereferenced_link
    {hashes : Dictionary Text}
    {a : Assembly}
    {s : Section}
    (hSection : NumeralKeys (a.entries s))
    {i : Instruction}
    {operand : Text}
    (hAlias : i.isDataAlias = true)
    (hValue : i.value = some operand)
    (hOperand : IsReference operand) :
    Dereferenced
      (Dictionary.mapValues (linkEntry (a.mapping hashes s))
        (a.entries s))
      operand i (i.link (a.mapping hashes s)) := by
  have hLocal :
      i.localReference = some (Instruction.reference operand) := by
    rw [Instruction.localReference, if_pos hAlias, hValue,
      Option.map_some]
  constructor
  · intro key path hMember hAlike
    rcases (mem_mapValues_linkEntry_iff hSection key path).mp hMember
      with ⟨entry, hEntry, hTarget⟩
    have hMapped :=
      get?_mapping_of_mem hashes hSection.nodup_references hEntry
    rw [(reference_eq_iff (hSection.numerals _ hEntry) hOperand).mpr
      hAlike, hTarget] at hMapped
    rw [Instruction.link_eq, hLocal, Option.bind_some, hMapped]
  · intro hNone
    cases hMapped :
        (a.mapping hashes s).get? (Instruction.reference operand) with
    | none =>
        rw [Instruction.link_eq, hLocal, Option.bind_some, hMapped]
    | some path =>
        rcases exists_entry_of_get?_mapping hMapped with
          ⟨key, entry, hEntry, hReference, hTarget⟩
        have hAlike :=
          (reference_eq_iff (hSection.numerals _ hEntry)
            hOperand).mp hReference
        exact absurd hAlike
          (hNone key path
            ((mem_mapValues_linkEntry_iff hSection key path).mpr
              ⟨entry, hEntry, hTarget⟩))

------------------------------------------------------------
-- Resolution
------------------------------------------------------------

/-
  After a resolution which succeeds, the paths in a section
  are those its entries stood for, and an operand that is a
  numeral has been replaced by the path under the key which
  is spelled like it, or stays if there is no such path.
-/
theorem dereferenced_of_resolve
    {owner : Text}
    {hashes : Dictionary Text}
    {a b : Assembly}
    {s : Section}
    (hData : NumeralKeys (a.data.getD []))
    (hSection : NumeralKeys (a.entries s))
    (hResolve : a.resolve owner hashes = .ok b) :
    (∀ key path,
        (key, DataEntry.path path) ∈ b.entries s ↔
          ∃ entry, (key, entry) ∈ a.entries s ∧
            entry.target? hashes = some path) ∧
      Option.Rel
        (List.Forall₂ fun i i' =>
          ∀ operand,
            i.isDataAlias = true →
              i.value = some operand →
                IsReference operand →
                  Dereferenced (b.entries s) operand i i')
        (a.listing s) (b.listing s) := by
  rcases resolve_eq_ok_iff.mp hResolve with ⟨-, rfl⟩
  rcases section_linked hData hSection with ⟨hEntries, hListing⟩
  rw [hEntries, hListing]
  refine ⟨mem_mapValues_linkEntry_iff hSection, ?_⟩
  cases a.listing s with
  | none =>
      exact Option.Rel.none
  | some instructions =>
      apply Option.Rel.some
      rw [List.forall₂_map_right_iff, List.forall₂_same]
      intro i _ operand hAlias hValue hOperand
      exact dereferenced_link hSection hAlias hValue hOperand

/-
  An assembly whose operands are padded differently from the
  keys, in both codes.
-/
def spelledOut : Assembly where
  fullPath := none
  code :=
    some
      [ { name := ascii "PUSH [$]"
          value := some (ascii "001a")
          source := none
          rangeBegin := none
          rangeEnd := none
          jumpType := none },
        { name := ascii "PUSH data"
          value := some (ascii "2")
          source := none
          rangeBegin := none
          rangeEnd := none
          jumpType := none } ]
  data :=
    some
      [ (runtimeKey,
          .nested
            { fullPath := none
              code :=
                some
                  [ { name := ascii "PUSH #[$]"
                      value := some (ascii "B")
                      source := none
                      rangeBegin := none
                      rangeEnd := none
                      jumpType := none } ]
              data := some [(ascii "0B", .hash (ascii "aa"))]
              auxdata := none
              factoryDependencies := [] }),
        (ascii "02", .hash (ascii "bb")),
        (ascii "1a", .hash (ascii "aa")) ]
  auxdata := none
  factoryDependencies := []

theorem numeralKeys_spelledOut :
    NumeralKeys (spelledOut.data.getD []) ∧
      ∀ s, NumeralKeys (spelledOut.entries s) := by
  refine ⟨by decide +kernel, ?_⟩
  intro s
  cases s with
  | deploy => decide +kernel
  | runtime => decide +kernel

theorem dereferenced_spelledOut :
    NumeralKeys (spelledOut.data.getD []) ∧
      (∀ s, NumeralKeys (spelledOut.entries s)) ∧
      ∃ b, spelledOut.resolve (ascii "a.sol:A") shadowingHashes =
          .ok b ∧
        ∀ s,
          (∀ key path,
            (key, DataEntry.path path) ∈ b.entries s ↔
              ∃ entry, (key, entry) ∈ spelledOut.entries s ∧
                entry.target? shadowingHashes = some path) ∧
          Option.Rel
            (List.Forall₂ fun i i' =>
              ∀ operand,
                i.isDataAlias = true →
                  i.value = some operand →
                    IsReference operand →
                      Dereferenced (b.entries s) operand i i')
            (spelledOut.listing s) (b.listing s) := by
  have hResolve :
      ∃ b, spelledOut.resolve (ascii "a.sol:A") shadowingHashes =
        .ok b :=
    ⟨_, rfl⟩
  rcases numeralKeys_spelledOut with ⟨hData, hSections⟩
  rcases hResolve with ⟨b, hResolve⟩
  refine ⟨hData, hSections, b, hResolve, ?_⟩
  intro s
  exact dereferenced_of_resolve hData (hSections s) hResolve

/-
  An assembly whose operand is a key of its data, but in
  capitals, and whose runtime code refers to a key `0` of its
  own.
-/
def capitalized : Assembly where
  fullPath := none
  code :=
    some
      [ { name := ascii "PUSH [$]"
          value := some (ascii "A")
          source := none
          rangeBegin := none
          rangeEnd := none
          jumpType := none } ]
  data :=
    some
      [ (runtimeKey,
          .nested
            { fullPath := none
              code :=
                some
                  [ { name := ascii "PUSH [$]"
                      value := some (ascii "0")
                      source := none
                      rangeBegin := none
                      rangeEnd := none
                      jumpType := none } ]
              data := some [(runtimeKey, .hash (ascii "aa"))]
              auxdata := none
              factoryDependencies := [] }),
        (ascii "a", .hash (ascii "aa")) ]
  auxdata := none
  factoryDependencies := []

/-
  A key which denotes the number of the operand is not enough,
  and the key of the runtime code is not left out of the data
  of the runtime code itself.
-/
theorem not_forall_number_eq :
    (¬ ∀ owner hashes (a b : Assembly),
        NumeralKeys (a.data.getD []) →
          a.resolve owner hashes = .ok b →
            Option.Rel
              (List.Forall₂ fun i i' =>
                ∀ operand,
                  i.isDataAlias = true →
                    i.value = some operand →
                      IsReference operand →
                        ∀ key path,
                          (key, DataEntry.path path) ∈
                              b.entries .deploy →
                            Hex.number key = Hex.number operand →
                              i' = { i with value := some path })
              (a.listing .deploy) (b.listing .deploy)) ∧
      ¬ ∀ owner hashes (a b : Assembly),
          NumeralKeys (a.data.getD []) →
            NumeralKeys (a.entries .runtime) →
              a.resolve owner hashes = .ok b →
                Option.Rel
                  (List.Forall₂ fun i i' =>
                    ∀ operand,
                      i.value = some operand →
                        (∀ key path,
                          (key, DataEntry.path path) ∈
                              b.entries .runtime →
                            key ≠ runtimeKey →
                              Hex.number key ≠
                                Hex.number operand) →
                          i' = i)
                  (a.listing .runtime) (b.listing .runtime) := by
  constructor
  · intro hAll
    have hRel :=
      hAll (ascii "a.sol:A") shadowingHashes capitalized _
        (by decide +kernel) rfl
    rcases hRel with hList | -
    rcases hList with - | ⟨hFirst, -⟩
    have hReplaced :=
      hFirst (ascii "A") rfl rfl (by decide +kernel) (ascii "a")
        (ascii "b.sol:B") List.mem_cons_self (by decide +kernel)
    revert hReplaced
    decide +kernel
  · intro hAll
    have hRel :=
      hAll (ascii "a.sol:A") shadowingHashes capitalized _
        (by decide +kernel) (by decide +kernel) rfl
    rcases hRel with hList | -
    rcases hList with - | ⟨hFirst, -⟩
    have hKept := hFirst (ascii "0") rfl (by
      intro key path hMember hKey
      cases List.mem_singleton.mp hMember
      exact absurd rfl hKey)
    revert hKept
    decide +kernel

end Assembly

end ContractLinker
