import ContractLinker.Proofs.Assembly.Decoding
import ContractLinker.Proofs.Json.Spelling

/-
  The canonical text of an assembly and what it identifies.
  The JSON of an assembly is decoded as what it keeps of the
  assembly; and since a text spells one value only, two
  assemblies have the same canonical text just when their
  code and data are the same at every depth.

  Key definitions include:
    * `Assembly.content`
    * `Assembly.TextsValid`

  Main statements:
    * `Instruction.ofJson_toJson`
    * `Assembly.encode_content`
    * `Assembly.ofJson_encode`
    * `Assembly.ofJson_toJson`
    * `Assembly.content_eq_self`
    * `Assembly.isPlain_encode`
    * `Assembly.canonicalText_eq_iff`
-/

namespace ContractLinker

------------------------------------------------------------
-- Instructions
------------------------------------------------------------

namespace Instruction

theorem decodeInteger_of_member?
    {j : Json}
    {name : Text}
    {n : Option Int64}
    (hMember : j.member? name = n.map .ofInt64) :
    decodeInteger name j = .ok n := by
  unfold decodeInteger
  rw [hMember]
  cases n with
  | none =>
      rfl
  | some n =>
      dsimp only [Option.map_some]
      rw [Json.int64?_ofInt64]

/- The members of an encoded instruction. -/
theorem member?_toJson
    (i : Instruction)
    (name : Text) :
    i.toJson.member? name =
      (Dictionary.get? name
        [ (ascii "begin", i.rangeBegin.map .ofInt64),
          (ascii "end", i.rangeEnd.map .ofInt64),
          (ascii "jumpType", i.jumpType.map .str),
          (ascii "name", some (Json.str i.name)),
          (ascii "source", i.source.map .ofInt64),
          (ascii "value", i.value.map .str) ]).join := by
  apply Json.member?_object
  exact (by decide :
    [ascii "begin", ascii "end", ascii "jumpType", ascii "name",
      ascii "source", ascii "value"].Nodup)

/- An instruction is decoded as it was encoded. -/
theorem ofJson_toJson
    (i : Instruction) :
    ofJson i.toJson = .ok i := by
  have hName :
      i.toJson.member? (ascii "name") = some (.str i.name) :=
    member?_toJson i _
  have hValue :
      i.toJson.optionalString (ascii "value") = .ok i.value :=
    Json.optionalString_of_member? (member?_toJson i _)
  have hSource :
      decodeInteger (ascii "source") i.toJson = .ok i.source :=
    decodeInteger_of_member? (member?_toJson i _)
  have hBegin :
      decodeInteger (ascii "begin") i.toJson = .ok i.rangeBegin :=
    decodeInteger_of_member? (member?_toJson i _)
  have hEnd :
      decodeInteger (ascii "end") i.toJson = .ok i.rangeEnd :=
    decodeInteger_of_member? (member?_toJson i _)
  have hJump :
      i.toJson.optionalString (ascii "jumpType") = .ok i.jumpType :=
    Json.optionalString_of_member? (member?_toJson i _)
  unfold ofJson
  rw [hName, hValue, hSource, hBegin, hEnd, hJump]
  rfl

end Instruction

------------------------------------------------------------
-- Content
------------------------------------------------------------

mutual

/- What the JSON of an entry keeps of it. -/
def DataEntry.content (withAuxdata : Bool) : DataEntry → DataEntry
  | .nested a => .nested (Assembly.content withAuxdata a)
  | .hash text => .hash text
  | .path text => .hash text
termination_by structural e => e

/-
  What the JSON of an assembly keeps of it: code and data at
  every depth, and the auxiliary data if it is asked for.
-/
def Assembly.content (withAuxdata : Bool) : Assembly → Assembly
  | ⟨_, code, data, auxdata, _⟩ =>
      { fullPath := none
        code := code
        data := contentData withAuxdata data
        auxdata := if withAuxdata then auxdata else none
        factoryDependencies := [] }
termination_by structural a => a

def contentData (withAuxdata : Bool) :
    Option (List (Text × DataEntry)) →
      Option (List (Text × DataEntry))
  | none => none
  | some entries => some (contentEntries withAuxdata entries)
termination_by structural d => d

def contentEntries (withAuxdata : Bool) :
    List (Text × DataEntry) → List (Text × DataEntry)
  | [] => []
  | (key, entry) :: rest =>
      (key, entry.content withAuxdata) ::
        contentEntries withAuxdata rest
termination_by structural entries => entries

end

mutual

/- Nothing but its content is encoded of an entry. -/
theorem DataEntry.encode_content
    (withAuxdata : Bool) :
    ∀ e : DataEntry,
      (e.content withAuxdata).encode withAuxdata =
        e.encode withAuxdata
  | .nested a => by
      rw [DataEntry.content, DataEntry.encode, DataEntry.encode]
      exact Assembly.encode_content withAuxdata a
  | .hash text => rfl
  | .path text => rfl
termination_by structural e => e

theorem Assembly.encode_content
    (withAuxdata : Bool) :
    ∀ a : Assembly,
      (a.content withAuxdata).encode withAuxdata =
        a.encode withAuxdata
  | ⟨_, code, data, auxdata, _⟩ => by
      rw [Assembly.content, Assembly.encode, Assembly.encode,
        encodeData_contentData withAuxdata data]
      cases withAuxdata with
      | false => rfl
      | true => rfl
termination_by structural a => a

theorem encodeData_contentData
    (withAuxdata : Bool) :
    ∀ data : Option (List (Text × DataEntry)),
      encodeData withAuxdata (contentData withAuxdata data) =
        encodeData withAuxdata data
  | none => rfl
  | some entries => by
      rw [contentData, encodeData, encodeData,
        encodeEntries_contentEntries withAuxdata entries]
termination_by structural data => data

theorem encodeEntries_contentEntries
    (withAuxdata : Bool) :
    ∀ entries : List (Text × DataEntry),
      encodeEntries withAuxdata (contentEntries withAuxdata entries) =
        encodeEntries withAuxdata entries
  | [] => rfl
  | (key, entry) :: rest => by
      rw [contentEntries, encodeEntries, encodeEntries,
        DataEntry.encode_content withAuxdata entry,
        encodeEntries_contentEntries withAuxdata rest]
termination_by structural entries => entries

end

------------------------------------------------------------
-- Decoding Of What Was Encoded
------------------------------------------------------------

/- The data section is the member of its name. -/
theorem decodeData_eq
    (members : List (Text × Json)) :
    decodeData members =
      match Dictionary.get? (ascii ".data") members with
      | none => .ok none
      | some j => (decodeSection j).map some := by
  induction members with
  | nil =>
      rfl
  | cons member members ih =>
      rcases member with ⟨key, j⟩
      rw [decodeData, Dictionary.get?_cons]
      by_cases hKey : key = ascii ".data"
      · rw [if_pos hKey, if_pos hKey]
      · rw [if_neg hKey, if_neg hKey, ih]

namespace Assembly

theorem decodeCode_of_member?
    {members : List (Text × Json)}
    {code : Option (List Instruction)}
    (hMember :
      Json.member? (ascii ".code") (.obj members) =
        code.map fun instructions =>
          .arr (instructions.map Instruction.toJson)) :
    decodeCode members = .ok code := by
  unfold decodeCode Json.optional
  rw [hMember]
  cases code with
  | none =>
      rfl
  | some instructions =>
      have hItems :
          (instructions.map Instruction.toJson).mapM
              Instruction.ofJson =
            .ok instructions :=
        mapM_map_eq_ok Instruction.ofJson_toJson instructions
      change ((instructions.map Instruction.toJson).mapM
        Instruction.ofJson).map some = _
      rw [hItems]
      rfl

/- An object of encoded parts is decoded as those parts. -/
theorem ofJson_object
    (code : Option (List Instruction))
    {data : Option Json}
    {entries : Option (List (Text × DataEntry))}
    (hEntries :
      (match data with
        | none => .ok none
        | some j => (decodeSection j).map some) =
        Except.ok entries)
    (auxdata : Option Text) :
    DataEntry.ofJson
        (.object
          [ (ascii ".auxdata", auxdata.map .str),
            (ascii ".code",
              code.map fun instructions =>
                .arr (instructions.map Instruction.toJson)),
            (ascii ".data", data) ]) =
      .ok (.nested ⟨none, code, entries, auxdata, []⟩) := by
  have hKeys :
      [ascii ".auxdata", ascii ".code", ascii ".data"].Nodup := by
    decide
  generalize hObject : Json.object _ = j
  have hCode :
      j.member? (ascii ".code") =
        code.map fun instructions =>
          .arr (instructions.map Instruction.toJson) := by
    rw [← hObject]
    apply Json.member?_object
    exact hKeys
  have hData : j.member? (ascii ".data") = data := by
    rw [← hObject, Json.member?_object]
    · cases data with
      | none => rfl
      | some j => rfl
    · exact hKeys
  have hAuxdata :
      j.member? (ascii ".auxdata") = auxdata.map .str := by
    rw [← hObject]
    apply Json.member?_object
    exact hKeys
  unfold Json.object at hObject
  subst hObject
  generalize List.filterMap _ _ = members at hCode hData hAuxdata ⊢
  have hFound :
      Dictionary.get? (ascii ".data") members = data := hData
  have hDecodeData : decodeData members = .ok entries := by
    rw [decodeData_eq, hFound]
    exact hEntries
  rw [DataEntry.ofJson, ofMembers, decodeCode_of_member? hCode,
    hDecodeData, Json.optionalString_of_member? hAuxdata]
  rfl

end Assembly

mutual

/- The JSON of an entry is decoded as its content. -/
theorem DataEntry.ofJson_encode
    (withAuxdata : Bool) :
    ∀ e : DataEntry,
      DataEntry.ofJson (e.encode withAuxdata) =
        .ok (e.content withAuxdata)
  | .nested a => by
      rw [DataEntry.encode, DataEntry.content]
      exact Assembly.ofJson_encode withAuxdata a
  | .hash text => rfl
  | .path text => rfl
termination_by structural e => e

theorem Assembly.ofJson_encode
    (withAuxdata : Bool) :
    ∀ a : Assembly,
      DataEntry.ofJson (a.encode withAuxdata) =
        .ok (.nested (a.content withAuxdata))
  | ⟨_, code, data, auxdata, _⟩ => by
      have hEntries := decodeSection_encodeData withAuxdata data
      rw [Assembly.encode, Assembly.content]
      cases withAuxdata with
      | false => exact Assembly.ofJson_object code hEntries none
      | true => exact Assembly.ofJson_object code hEntries auxdata
termination_by structural a => a

theorem decodeSection_encodeData
    (withAuxdata : Bool) :
    ∀ data : Option (List (Text × DataEntry)),
      (match encodeData withAuxdata data with
        | none => .ok none
        | some j => (decodeSection j).map some) =
        Except.ok (contentData withAuxdata data)
  | none => rfl
  | some entries => by
      rw [encodeData, contentData]
      dsimp only
      rw [decodeSection, decodeEntries_encodeEntries withAuxdata entries]
      rfl
termination_by structural data => data

theorem decodeEntries_encodeEntries
    (withAuxdata : Bool) :
    ∀ entries : List (Text × DataEntry),
      decodeEntries (encodeEntries withAuxdata entries) =
        .ok (contentEntries withAuxdata entries)
  | [] => rfl
  | (key, entry) :: rest => by
      rw [encodeEntries, decodeEntries,
        DataEntry.ofJson_encode withAuxdata entry,
        decodeEntries_encodeEntries withAuxdata rest]
      rfl
termination_by structural entries => entries

end

/- An object is decoded as an entry if it is an assembly. -/
theorem DataEntry.ofJson_obj
    (members : List (Text × Json)) :
    DataEntry.ofJson (.obj members) =
      (Assembly.ofJson (.obj members)).map .nested := by
  rw [DataEntry.ofJson]
  rfl

namespace Assembly

/- The JSON of an assembly is an object. -/
theorem toJson_eq_obj
    (a : Assembly) :
    ∃ members, a.toJson = .obj members := by
  rcases a with ⟨_, code, data, auxdata, _⟩
  exact ⟨_, rfl⟩

/- The JSON of an assembly is decoded as its content. -/
theorem ofJson_toJson
    (a : Assembly) :
    ofJson a.toJson = .ok (a.content true) := by
  have hEntry : DataEntry.ofJson a.toJson = .ok (.nested (a.content true)) :=
    ofJson_encode true a
  rcases toJson_eq_obj a with ⟨members, hObject⟩
  rw [hObject, DataEntry.ofJson_obj] at hEntry
  rcases map_eq_ok_iff.mp hEntry with ⟨b, hDecode, hNested⟩
  injection hNested with hContent
  rw [hObject, hDecode, hContent]

end Assembly

/- The entries of a section are kept one by one. -/
theorem contentEntries_eq_map
    (withAuxdata : Bool)
    (entries : List (Text × DataEntry)) :
    contentEntries withAuxdata entries =
      entries.map fun entry =>
        (entry.1, entry.2.content withAuxdata) := by
  induction entries with
  | nil =>
      rfl
  | cons first entries ih =>
      rcases first with ⟨key, entry⟩
      rw [contentEntries, ih, List.map_cons]

namespace Assembly

/- An assembly which has not been linked is its content. -/
theorem content_eq_self
    {a : Assembly}
    (hUnlinked : a.Unlinked) :
    a.content true = a := by
  induction hUnlinked with
  | @intro a hFullPath hDependencies hPaths hNested ih =>
      have hEntry :
          ∀ key entry, (key, entry) ∈ a.data.getD [] →
            entry.content true = entry := by
        intro key entry hMember
        cases entry with
        | nested b => rw [DataEntry.content, ih key b hMember]
        | hash text => rfl
        | path text => exact absurd hMember (hPaths key text)
      rcases a with ⟨fullPath, code, data, auxdata, dependencies⟩
      have hData : contentData true data = data := by
        cases data with
        | none =>
            rfl
        | some entries =>
            have hEntries :
                Dictionary.mapValues
                    (fun _ entry => entry.content true) entries =
                  entries := by
              apply Dictionary.mapValues_eq_self
              intro entry hMember
              exact hEntry entry.1 entry.2 hMember
            rw [contentData, contentEntries_eq_map]
            exact congrArg some hEntries
      cases hFullPath
      cases hDependencies
      rw [content, hData]
      rfl

end Assembly

------------------------------------------------------------
-- Canonical Forms That Can Be Written
------------------------------------------------------------

namespace Instruction

/- The texts of an instruction are sequences of code points. -/
structure TextsValid (i : Instruction) : Prop where
  name : Utf8.isValid i.name = true
  value : ∀ text ∈ i.value, Utf8.isValid text = true
  jumpType : ∀ text ∈ i.jumpType, Utf8.isValid text = true

theorem isPlain_toJson
    {i : Instruction}
    (hValid : i.TextsValid) :
    i.toJson.isPlain = true := by
  have hText :
      ∀ text : Option Text,
        (∀ t ∈ text, Utf8.isValid t = true) →
          ∀ j ∈ text.map Json.str, j.isPlain = true := by
    intro text hTexts j hJson
    rcases Option.map_eq_some_iff.mp hJson with ⟨t, hSome, rfl⟩
    exact hTexts t hSome
  have hInteger :
      ∀ n : Option Int64,
        ∀ j ∈ n.map Json.ofInt64, j.isPlain = true := by
    intro n j hJson
    rcases Option.map_eq_some_iff.mp hJson with ⟨m, -, rfl⟩
    exact Json.isPlain_ofInt64 m
  have hName :
      ∀ j ∈ some (Json.str i.name), j.isPlain = true := by
    intro j hJson
    cases hJson
    exact hValid.name
  have hNames :
      [ascii "begin", ascii "end", ascii "jumpType", ascii "name",
          ascii "source", ascii "value"].Pairwise (· < ·) ∧
        ∀ key ∈ [ascii "begin", ascii "end", ascii "jumpType",
          ascii "name", ascii "source", ascii "value"],
          Utf8.isValid key = true := by
    decide +kernel
  have hValues :
      ∀ value ∈
          [i.rangeBegin.map Json.ofInt64, i.rangeEnd.map Json.ofInt64,
            i.jumpType.map Json.str, some (Json.str i.name),
            i.source.map Json.ofInt64, i.value.map Json.str],
        ∀ j ∈ value, j.isPlain = true := by
    simp only [List.forall_mem_cons, List.not_mem_nil]
    exact ⟨hInteger _, hInteger _, hText _ hValid.jumpType, hName,
      hInteger _, hText _ hValid.value, by simp⟩
  unfold toJson
  apply Json.isPlain_object
  · exact hNames.1
  · exact hNames.2
  · exact hValues

end Instruction

namespace Assembly

/- The texts of code and data are sequences of code points. -/
inductive TextsValid : Assembly → Prop where
  | intro {a : Assembly}
      (hCode : ∀ i ∈ a.code.getD [], i.TextsValid)
      (hKeys : ∀ key ∈ (a.data.getD []).map Prod.fst,
        Utf8.isValid key = true)
      (hHashes : ∀ key text, (key, DataEntry.hash text) ∈ a.data.getD [] →
        Utf8.isValid text = true)
      (hPaths : ∀ key text, (key, DataEntry.path text) ∈ a.data.getD [] →
        Utf8.isValid text = true)
      (hNested : ∀ key b, (key, DataEntry.nested b) ∈ a.data.getD [] →
        TextsValid b) :
      TextsValid a

end Assembly

/- The entries of a section are encoded one by one. -/
theorem encodeEntries_eq_map
    (withAuxdata : Bool)
    (entries : List (Text × DataEntry)) :
    encodeEntries withAuxdata entries =
      entries.map fun entry =>
        (entry.1, entry.2.encode withAuxdata) := by
  induction entries with
  | nil =>
      rfl
  | cons first entries ih =>
      rcases first with ⟨key, entry⟩
      rw [encodeEntries, ih, List.map_cons]

/- A section in order is plain if its encoded entries are. -/
theorem isPlain_of_encodeData
    {data : Option (List (Text × DataEntry))}
    (hOrdered : Dictionary.Ordered (data.getD []))
    (hEntries : ∀ key entry, (key, entry) ∈ data.getD [] →
      Utf8.isValid key = true ∧
        (entry.encode false).isPlain = true) :
    ∀ j ∈ encodeData false data, j.isPlain = true := by
  intro j hJson
  cases data with
  | none =>
      cases hJson
  | some entries =>
      cases hJson
      have hKeys :
          (encodeEntries false entries).map Prod.fst =
            entries.map Prod.fst := by
        rw [encodeEntries_eq_map, List.map_map]
        rfl
      have hMembers :
          Json.arePlainMembers (encodeEntries false entries) = true := by
        rw [encodeEntries_eq_map, Json.arePlainMembers_iff]
        intro m hMember
        rcases List.mem_map.mp hMember with ⟨⟨key, entry⟩, hEntry, rfl⟩
        exact hEntries key entry hEntry
      rw [Json.isPlain, Bool.and_eq_true, decide_eq_true_iff]
      exact ⟨Dictionary.ordered_of_keys_eq hKeys hOrdered, hMembers⟩

namespace Assembly

/- The canonical form holds no auxiliary data. -/
theorem encode_false
    (a : Assembly) :
    a.encode false =
      .object
        [ (ascii ".auxdata", none),
          (ascii ".code",
            a.code.map fun instructions =>
              .arr (instructions.map Instruction.toJson)),
          (ascii ".data", encodeData false a.data) ] := by
  cases a
  rfl

/- The canonical form can be written. -/
theorem isPlain_encode
    {a : Assembly}
    (hOrdered : a.Ordered)
    (hValid : a.TextsValid) :
    (a.encode false).isPlain = true := by
  induction hValid with
  | @intro a hCode hKeys hHashes hPaths hNested ih =>
      rcases hOrdered with ⟨hData, hInner⟩
      have hEntries :
          ∀ key entry, (key, entry) ∈ a.data.getD [] →
            Utf8.isValid key = true ∧
              (entry.encode false).isPlain = true := by
        intro key entry hMember
        refine ⟨hKeys key (List.mem_map_of_mem hMember), ?_⟩
        cases entry with
        | nested b => exact ih key b hMember (hInner key b hMember)
        | hash text => exact hHashes key text hMember
        | path text => exact hPaths key text hMember
      have hSection := isPlain_of_encodeData hData hEntries
      have hInstructions :
          ∀ j ∈ a.code.map fun instructions =>
              Json.arr (instructions.map Instruction.toJson),
            j.isPlain = true := by
        intro j hJson
        rcases Option.map_eq_some_iff.mp hJson with
          ⟨instructions, hSome, rfl⟩
        rw [hSome, Option.getD_some] at hCode
        rw [Json.isPlain, Json.arePlainItems_iff]
        intro item hItem
        rcases List.mem_map.mp hItem with ⟨i, hMember, rfl⟩
        exact Instruction.isPlain_toJson (hCode i hMember)
      have hNames :
          [ascii ".auxdata", ascii ".code", ascii ".data"].Pairwise
              (· < ·) ∧
            ∀ key ∈ [ascii ".auxdata", ascii ".code", ascii ".data"],
              Utf8.isValid key = true := by
        decide +kernel
      have hValues :
          ∀ value ∈
              [none,
                a.code.map fun instructions =>
                  .arr (instructions.map Instruction.toJson),
                encodeData false a.data],
            ∀ j ∈ value, j.isPlain = true := by
        simp only [List.forall_mem_cons, List.not_mem_nil]
        exact ⟨by simp, hInstructions, hSection, by simp⟩
      rw [encode_false]
      apply Json.isPlain_object
      · exact hNames.1
      · exact hNames.2
      · exact hValues

------------------------------------------------------------
-- Identity Of Code And Data
------------------------------------------------------------

/-
  Two assemblies have the same canonical text just when they
  are the same up to auxiliary data, full paths and factory
  dependencies at every depth, and up to the difference of
  hashes and paths; and then they have the same content hash.
-/
theorem canonicalText_eq_iff
    {a b : Assembly}
    (hOrdered : a.Ordered)
    (hValid : a.TextsValid)
    (hOrdered' : b.Ordered)
    (hValid' : b.TextsValid) :
    (a.canonicalText = b.canonicalText ↔
      a.content false = b.content false) ∧
      (a.content false = b.content false →
        a.contentHash = b.contentHash) := by
  have hText :
      a.content false = b.content false →
        a.canonicalText = b.canonicalText := by
    intro hContent
    unfold canonicalText
    rw [← encode_content false a, hContent, encode_content false b]
  refine ⟨⟨?_, hText⟩, ?_⟩
  · intro hEq
    have hJson : a.encode false = b.encode false :=
      Json.compact_injective (isPlain_encode hOrdered hValid)
        (isPlain_encode hOrdered' hValid') hEq
    have hDecoded := ofJson_encode false a
    rw [hJson, ofJson_encode false b] at hDecoded
    injection hDecoded with hNested
    injection hNested with hContent
    exact hContent.symm
  · intro hContent
    unfold contentHash
    rw [hText hContent]

/- Runtime code with auxiliary data of its own. -/
def runtimeSample (auxdata : Option Text) : Assembly :=
  ⟨none, some [], none, auxdata, []⟩

/- Deploy code with a hash in its data, before linking. -/
def unlinkedSample : Assembly :=
  { fullPath := none
    code := none
    data := some
      [ (ascii "0", .nested (runtimeSample (some (ascii "a1")))),
        (ascii "1", .hash (ascii "b.sol:B")) ]
    auxdata := none
    factoryDependencies := [] }

/- The same code and data in another context. -/
def linkedSample : Assembly :=
  { fullPath := some (ascii "a.sol:A")
    code := none
    data := some
      [ (ascii "0", .nested (runtimeSample none)),
        (ascii "1", .path (ascii "b.sol:B")) ]
    auxdata := some (ascii "a2")
    factoryDependencies := [ascii "b.sol:B"] }

theorem canonicalText_linkedSample :
    unlinkedSample.canonicalText = linkedSample.canonicalText ∧
      unlinkedSample.contentHash = linkedSample.contentHash := by
  have hRuntime :
      ∀ auxdata, (runtimeSample auxdata).Ordered ∧
        (runtimeSample auxdata).TextsValid := by
    intro auxdata
    constructor
    · constructor
      · exact List.Pairwise.nil
      · simp [runtimeSample]
    · constructor <;> simp [runtimeSample]
  have hText : Utf8.isValid (ascii "b.sol:B") = true := by
    decide +kernel
  have hOrdered : unlinkedSample.Ordered := by
    constructor
    · decide +kernel
    · simp [unlinkedSample, hRuntime]
  have hOrdered' : linkedSample.Ordered := by
    constructor
    · decide +kernel
    · simp [linkedSample, hRuntime]
  have hValid : unlinkedSample.TextsValid := by
    apply TextsValid.intro _ (by decide +kernel)
    · simp [unlinkedSample, hText]
    · simp [unlinkedSample]
    · simp [unlinkedSample, hRuntime]
    · simp [unlinkedSample]
  have hValid' : linkedSample.TextsValid := by
    apply TextsValid.intro _ (by decide +kernel)
    · simp [linkedSample]
    · simp [linkedSample, hText]
    · simp [linkedSample, hRuntime]
    · simp [linkedSample]
  have hSame :=
    canonicalText_eq_iff hOrdered hValid hOrdered' hValid'
  exact ⟨hSame.1.mpr rfl, hSame.2 rfl⟩

end Assembly

end ContractLinker
