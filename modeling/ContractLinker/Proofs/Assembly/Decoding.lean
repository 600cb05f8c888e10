import ContractLinker.Proofs.Assembly.Linking
import ContractLinker.Proofs.Json.Decoding

/-
  Decoded assemblies. What is read from JSON has not been
  linked at any depth, and its data sections are in order if
  the objects of the JSON are.

  Key definitions include:
    * `DataEntry.Decoded`

  Main statements:
    * `Assembly.ofMembers_eq_ok`
    * `Assembly.unlinked_of_ofJson`
    * `Assembly.ordered_of_ofJson`
-/

namespace ContractLinker

/- An entry which was read, in order if `ordered` holds. -/
def DataEntry.Decoded (ordered : Prop) : DataEntry → Prop
  | .nested a => a.Unlinked ∧ (ordered → a.Ordered)
  | .hash _ => True
  | .path _ => False

/- Less may be known of the order. -/
theorem DataEntry.Decoded.imp
    {p q : Prop}
    {entry : DataEntry}
    (hDecoded : entry.Decoded p)
    (hImp : q → p) :
    entry.Decoded q := by
  cases entry with
  | nested a => exact ⟨hDecoded.1, fun hq => hDecoded.2 (hImp hq)⟩
  | hash text => exact trivial
  | path text => exact hDecoded

/- Entries which were read, in order if `ordered` holds. -/
structure DecodedEntries (ordered : Prop)
    (entries : List (Text × DataEntry)) : Prop where
  entry : ∀ key entry, (key, entry) ∈ entries →
    entry.Decoded ordered
  keys : ordered → Dictionary.Ordered entries

namespace DecodedEntries

variable {p q : Prop} {a : Assembly}

theorem imp
    {entries : List (Text × DataEntry)}
    (hEntries : DecodedEntries p entries)
    (hImp : q → p) :
    DecodedEntries q entries := by
  constructor
  · intro key entry hMember
    exact (hEntries.entry key entry hMember).imp hImp
  · intro hq
    exact hEntries.keys (hImp hq)

theorem unlinked
    (hEntries : DecodedEntries p (a.data.getD []))
    (hFullPath : a.fullPath = none)
    (hDependencies : a.factoryDependencies = []) :
    a.Unlinked := by
  apply Assembly.Unlinked.intro hFullPath hDependencies
  · intro key text hMember
    exact hEntries.entry key _ hMember
  · intro key b hMember
    exact (hEntries.entry key _ hMember).1

theorem ordered
    (hEntries : DecodedEntries p (a.data.getD []))
    (hOrdered : p) :
    a.Ordered := by
  apply Assembly.Ordered.intro (hEntries.keys hOrdered)
  intro key b hMember
  exact (hEntries.entry key _ hMember).2 hOrdered

end DecodedEntries

/- What a decoded assembly holds apart from its code. -/
theorem Assembly.ofMembers_eq_ok
    {members : List (Text × Json)}
    {data : Except DecodeError (Option (List (Text × DataEntry)))}
    {a : Assembly}
    (hDecode : ofMembers members data = .ok a) :
    a.fullPath = none ∧ a.factoryDependencies = [] ∧
      data = .ok a.data := by
  rcases bind_eq_ok_iff.mp hDecode with ⟨code, -, hDecode⟩
  rcases bind_eq_ok_iff.mp hDecode with ⟨entries, hData, hDecode⟩
  rcases bind_eq_ok_iff.mp hDecode with ⟨auxdata, -, hEq⟩
  cases hEq
  exact ⟨rfl, rfl, hData⟩

/- Entries keep the keys of the members they are read from. -/
theorem map_fst_of_decodeEntries
    {members : List (Text × Json)}
    {entries : List (Text × DataEntry)}
    (hDecode : decodeEntries members = .ok entries) :
    entries.map Prod.fst = members.map Prod.fst := by
  induction members generalizing entries with
  | nil =>
      cases hDecode
      rfl
  | cons member members ih =>
      rcases member with ⟨key, j⟩
      rw [decodeEntries] at hDecode
      cases hEntry : DataEntry.ofJson j with
      | error e =>
          rw [hEntry] at hDecode
          cases hDecode
      | ok first =>
          rw [hEntry] at hDecode
          rcases map_eq_ok_iff.mp hDecode with ⟨others, hRest, rfl⟩
          rw [List.map_cons, List.map_cons, ih hRest]

mutual

theorem DataEntry.decoded_of_ofJson :
    ∀ (j : Json) {entry : DataEntry},
      DataEntry.ofJson j = .ok entry →
        entry.Decoded (j.isOrdered = true)
  | .obj members, entry, hDecode => by
      rw [DataEntry.ofJson] at hDecode
      rcases map_eq_ok_iff.mp hDecode with ⟨a, hMembers, rfl⟩
      rcases Assembly.ofMembers_eq_ok hMembers with
        ⟨hFullPath, hDependencies, hData⟩
      have hEntries := decodedEntries_of_decodeData members hData
      refine ⟨hEntries.unlinked hFullPath hDependencies, ?_⟩
      intro hOrdered
      rw [Json.isOrdered, Bool.and_eq_true] at hOrdered
      exact hEntries.ordered hOrdered.2
  | .str text, entry, hDecode => by
      rw [DataEntry.ofJson] at hDecode
      cases hDecode
      exact trivial
  | .null, entry, hDecode => by
      cases hDecode
  | .bool _, entry, hDecode => by
      cases hDecode
  | .int _, entry, hDecode => by
      cases hDecode
  | .double _, entry, hDecode => by
      cases hDecode
  | .arr _, entry, hDecode => by
      cases hDecode
termination_by structural j => j

theorem decodedEntries_of_decodeData :
    ∀ (members : List (Text × Json))
      {data : Option (List (Text × DataEntry))},
      decodeData members = .ok data →
        DecodedEntries (Json.areOrderedMembers members = true)
          (data.getD [])
  | [], data, hDecode => by
      cases hDecode
      exact ⟨by simp, fun _ => List.Pairwise.nil⟩
  | (key, j) :: rest, data, hDecode => by
      rw [decodeData] at hDecode
      rw [Json.areOrderedMembers, Bool.and_eq_true]
      by_cases hKey : key = ascii ".data"
      · rw [if_pos hKey] at hDecode
        rcases map_eq_ok_iff.mp hDecode with ⟨entries, hSection, rfl⟩
        have hEntries := decodedEntries_of_decodeSection j hSection
        exact hEntries.imp And.left
      · rw [if_neg hKey] at hDecode
        have hEntries := decodedEntries_of_decodeData rest hDecode
        exact hEntries.imp And.right
termination_by structural members => members

theorem decodedEntries_of_decodeSection :
    ∀ (j : Json) {entries : List (Text × DataEntry)},
      decodeSection j = .ok entries →
        DecodedEntries (j.isOrdered = true) entries
  | .obj members, entries, hDecode => by
      rw [decodeSection] at hDecode
      constructor
      · intro key entry hMember
        have hEntry :=
          decoded_of_decodeEntries members hDecode key entry hMember
        apply hEntry.imp
        intro hOrdered
        rw [Json.isOrdered, Bool.and_eq_true] at hOrdered
        exact hOrdered.2
      · intro hOrdered
        exact Dictionary.ordered_of_keys_eq
          (map_fst_of_decodeEntries hDecode)
          (Json.ordered_of_isOrdered hOrdered)
  | .null, entries, hDecode => by
      cases hDecode
  | .bool _, entries, hDecode => by
      cases hDecode
  | .int _, entries, hDecode => by
      cases hDecode
  | .double _, entries, hDecode => by
      cases hDecode
  | .str _, entries, hDecode => by
      cases hDecode
  | .arr _, entries, hDecode => by
      cases hDecode
termination_by structural j => j

theorem decoded_of_decodeEntries :
    ∀ (members : List (Text × Json))
      {entries : List (Text × DataEntry)},
      decodeEntries members = .ok entries →
        ∀ key entry, (key, entry) ∈ entries →
          entry.Decoded (Json.areOrderedMembers members = true)
  | [], entries, hDecode => by
      cases hDecode
      simp
  | (k, j) :: rest, entries, hDecode => by
      rw [decodeEntries] at hDecode
      rw [Json.areOrderedMembers, Bool.and_eq_true]
      cases hEntry : DataEntry.ofJson j with
      | error e =>
          rw [hEntry] at hDecode
          cases hDecode
      | ok first =>
          rw [hEntry] at hDecode
          rcases map_eq_ok_iff.mp hDecode with ⟨others, hRest, rfl⟩
          intro key entry hMember
          rcases List.mem_cons.mp hMember with hEq | hTail
          · cases hEq
            exact (DataEntry.decoded_of_ofJson j hEntry).imp And.left
          · have hOther :=
              decoded_of_decodeEntries rest hRest key entry hTail
            exact hOther.imp And.right
termination_by structural members => members

end

namespace Assembly

/- A decoded assembly has not been linked. -/
theorem unlinked_of_ofJson
    {j : Json}
    {a : Assembly}
    (hDecode : ofJson j = .ok a) :
    a.Unlinked := by
  rcases bind_eq_ok_iff.mp hDecode with ⟨members, -, hMembers⟩
  rcases ofMembers_eq_ok hMembers with
    ⟨hFullPath, hDependencies, hData⟩
  exact (decodedEntries_of_decodeData members hData).unlinked
    hFullPath hDependencies

/- An assembly which is decoded from ordered JSON is in order. -/
theorem ordered_of_ofJson
    {j : Json}
    {a : Assembly}
    (hOrdered : j.isOrdered = true)
    (hDecode : ofJson j = .ok a) :
    a.Ordered := by
  rcases bind_eq_ok_iff.mp hDecode with ⟨members, hObject, hMembers⟩
  rw [Json.requireObject_eq_ok_iff] at hObject
  subst hObject
  rcases ofMembers_eq_ok hMembers with ⟨-, -, hData⟩
  rw [Json.isOrdered, Bool.and_eq_true] at hOrdered
  exact (decodedEntries_of_decodeData members hData).ordered
    hOrdered.2

end Assembly

end ContractLinker
