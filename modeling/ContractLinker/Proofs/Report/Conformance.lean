import ContractLinker.Proofs.Json.Reading
import ContractLinker.Proofs.Report.Encoding
import ContractLinker.Proofs.Report.Schema

/-
  Decoding and the schema of reports. A value is decoded just
  if it fits the schema, and what was decoded is encoded as
  what the schema keeps of the value. Both are proved at once
  for every decoder, along the steps it consists of.

  Key definitions include:
    * `Agrees`
    * `Follows`
    * `Conforms`
    * `FollowsOptional`, `FollowsRequired`

  Main statements:
    * `conforms_list`, `conforms_table`
    * `agrees_record`
    * `DataEntry.follows_schema`
    * `Report.conforms_schema`
    * `Report.encode_decode`
    * `Report.read_of_parse?`
-/

------------------------------------------------------------
-- Outcomes
------------------------------------------------------------

namespace ContractLinker

variable {α β ε : Type}

/- A step succeeds just if `P` holds, and its result has `Q`. -/
def Agrees (x : Except ε α) (P : Prop) (Q : α → Prop) : Prop :=
  match x with
  | .ok a => P ∧ Q a
  | .error _ => ¬P

namespace Agrees

variable {x : Except ε α} {P P' : Prop} {Q Q' : α → Prop}

/- Steps one after the other have to succeed one and all. -/
theorem bind
    {f : α → Except ε β}
    {R : β → Prop}
    (hFirst : Agrees x P Q)
    (hRest : ∀ a, Q a → Agrees (f a) P' R) :
    Agrees (x >>= f) (P ∧ P') R := by
  cases x with
  | error e =>
      intro hBoth
      exact hFirst hBoth.1
  | ok a =>
      have hNext := hRest a hFirst.2
      change Agrees (f a) (P ∧ P') R
      cases hResult : f a with
      | error e =>
          rw [hResult] at hNext
          intro hBoth
          exact hNext hBoth.2
      | ok b =>
          rw [hResult] at hNext
          exact ⟨⟨hFirst.1, hNext.1⟩, hNext.2⟩

theorem map
    {f : α → β}
    {R : β → Prop}
    (hAgrees : Agrees x P Q)
    (hResult : ∀ a, Q a → R (f a)) :
    Agrees (x.map f) P R := by
  cases x with
  | error e => exact hAgrees
  | ok a => exact ⟨hAgrees.1, hResult a hAgrees.2⟩

/- The last step hands its result on. -/
theorem bind_pure
    {f : α → β}
    {R : β → Prop}
    (hLast : Agrees x P Q)
    (hResult : ∀ a, Q a → R (f a)) :
    Agrees (x >>= fun a => pure (f a)) P R := by
  cases x with
  | error e => exact hLast
  | ok a => exact ⟨hLast.1, hResult a hLast.2⟩

theorem congr
    (hAgrees : Agrees x P Q)
    (hIff : P' ↔ P)
    (hImp : ∀ a, Q a → Q' a) :
    Agrees x P' Q' := by
  cases x with
  | error e => exact fun hP' => hAgrees (hIff.mp hP')
  | ok a => exact ⟨hIff.mpr hAgrees.1, hImp a hAgrees.2⟩

theorem of_iff
    (hIff : P' ↔ P)
    (hAgrees : Agrees x P Q) :
    Agrees x P' Q := by
  exact hAgrees.congr hIff fun _ hResult => hResult

end Agrees

/- Decoding a value and encoding the result follow a schema. -/
def Follows (decode : Json → Except DecodeError α)
    (encode : α → Json) (schema : Schema) (j : Json) : Prop :=
  Agrees (decode j) (j.fits schema = true) fun a =>
    encode a = j.canonical schema

/- Decoding ordered values and encoding the results follow a schema. -/
def Conforms (decode : Json → Except DecodeError α)
    (encode : α → Json) (schema : Schema) : Prop :=
  ∀ j, j.isOrdered = true → Follows decode encode schema j

namespace Follows

variable {decode : Json → Except DecodeError α} {encode : α → Json}
variable {schema : Schema} {j : Json}

/- A value is refused just if it does not fit. -/
theorem refused_iff
    (hFollows : Follows decode encode schema j) :
    (∃ e, decode j = .error e) ↔ j.fits schema = false := by
  unfold Follows Agrees at hFollows
  cases hDecode : decode j with
  | error e =>
      rw [hDecode] at hFollows
      exact ⟨fun _ => Bool.eq_false_iff.mpr hFollows,
        fun _ => ⟨e, rfl⟩⟩
  | ok a =>
      rw [hDecode] at hFollows
      constructor
      · intro hError
        rcases hError with ⟨e, hEq⟩
        cases hEq
      · intro hFails
        rw [hFollows.1] at hFails
        cases hFails

/- A value which fits is decoded, and what is kept of it encoded. -/
theorem accepted
    (hFollows : Follows decode encode schema j)
    (hFits : j.fits schema = true) :
    ∃ a, decode j = .ok a ∧ encode a = j.canonical schema := by
  unfold Follows Agrees at hFollows
  cases hDecode : decode j with
  | error e =>
      rw [hDecode] at hFollows
      exact absurd hFits hFollows
  | ok a =>
      rw [hDecode] at hFollows
      exact ⟨a, rfl, hFollows.2⟩

end Follows

/- Reading a member, which may be absent, follows a field. -/
def FollowsOptional (x : Except DecodeError (Option α))
    (encode : α → Json) (field : Field)
    (value : Option Json) : Prop :=
  Agrees x (field.Fits value) fun a =>
    a.map encode = field.canonical value

/- Reading a member which has to be there follows a field. -/
def FollowsRequired (x : Except DecodeError α)
    (encode : α → Json) (field : Field)
    (value : Option Json) : Prop :=
  Agrees x (field.Fits value) fun a =>
    some (encode a) = field.canonical value

------------------------------------------------------------
-- Texts And Numbers
------------------------------------------------------------

namespace Json

/- Read a text, with an error of one's own for anything else. -/
def decodeText (e : DecodeError) : Json → Except DecodeError Text
  | .str s => .ok s
  | _ => .error e

def decodeSigned (e : DecodeError) (j : Json) :
    Except DecodeError Int64 :=
  match j.int64? with
  | some n => .ok n
  | none => .error e

def decodeUnsigned (e : DecodeError) (j : Json) :
    Except DecodeError UInt64 :=
  match j.uint64? with
  | some n => .ok n
  | none => .error e

theorem follows_decodeText
    (e : DecodeError)
    (j : Json) :
    Follows (decodeText e) .str .text j := by
  cases j with
  | str s => exact ⟨rfl, rfl⟩
  | null | bool _ | int _ | double _ | arr _ | obj _ =>
      exact Bool.false_ne_true

theorem follows_decodeSigned
    (e : DecodeError)
    (j : Json) :
    Follows (decodeSigned e) .ofInt64 .signed j := by
  unfold Follows decodeSigned int64?
  rw [fits_signed, canonical_signed]
  unfold isSigned asInteger
  cases j.integral? with
  | none =>
      exact Bool.false_ne_true
  | some n =>
      dsimp only
      by_cases hRange :
          Int64.minValue.toInt ≤ n ∧ n ≤ Int64.maxValue.toInt
      · rw [if_pos hRange]
        have hHigh := Int.lt_of_le_of_lt hRange.2
          (by decide : Int64.maxValue.toInt < 9223372036854775808)
        exact ⟨decide_eq_true hRange,
          congrArg Json.int
            (Int64.toInt_ofInt_of_le hRange.1 hHigh)⟩
      · rw [if_neg hRange]
        exact fun hFits => hRange (of_decide_eq_true hFits)

theorem follows_decodeUnsigned
    (e : DecodeError)
    (j : Json) :
    Follows (decodeUnsigned e) .ofUInt64 .unsigned j := by
  unfold Follows decodeUnsigned uint64?
  rw [fits_unsigned, canonical_unsigned]
  unfold isUnsigned asInteger
  cases j.integral? with
  | none =>
      exact Bool.false_ne_true
  | some n =>
      dsimp only
      by_cases hRange : 0 ≤ n ∧ n < UInt64.size
      · rw [if_pos hRange]
        have hNat : n.toNat < UInt64.size := by
          have hSize := hRange.2
          omega
        have hValue : ((UInt64.ofNat n.toNat).toNat : Int) = n := by
          rw [UInt64.toNat_ofNat_of_lt' hNat,
            Int.toNat_of_nonneg hRange.1]
        exact ⟨decide_eq_true
            ⟨hRange.1, Int.le_sub_one_of_lt hRange.2⟩,
          congrArg Json.int hValue⟩
      · rw [if_neg hRange]
        intro hFits
        have hBounds := of_decide_eq_true hFits
        exact hRange ⟨hBounds.1, Int.lt_of_le_sub_one hBounds.2⟩

end Json

------------------------------------------------------------
-- Members
------------------------------------------------------------

/- A present member follows its field if its value does. -/
theorem Follows.optional
    {decode : Json → Except DecodeError α}
    {encode : α → Json}
    {schema : Schema}
    {j : Json}
    (hFollows : Follows decode encode schema j) :
    FollowsOptional ((decode j).map some) encode
      (.optional schema) (some j) := by
  have hFits :
      (Field.optional schema).Fits (some j) ↔
        j.fits schema = true := by
    exact or_iff_right Bool.false_ne_true
  exact (hFollows.of_iff hFits).map fun _ hEncode =>
    congrArg some hEncode

theorem Follows.required
    {decode : Json → Except DecodeError α}
    {encode : α → Json}
    {schema : Schema}
    {j : Json}
    (hFollows : Follows decode encode schema j) :
    FollowsRequired (decode j) encode (.required schema)
      (some j) := by
  refine hFollows.congr (or_iff_right Bool.false_ne_true) ?_
  exact fun _ hEncode => congrArg some hEncode

/- Members of ordered objects are decoded along their fields. -/
theorem Conforms.optional
    {decode : Json → Except DecodeError α}
    {encode : α → Json}
    {schema : Schema}
    (hConforms : Conforms decode encode schema)
    {j : Json}
    (hOrdered : j.isOrdered = true)
    (name : Text) :
    FollowsOptional (j.optional name decode) encode
      (.optional schema) (j.member? name) := by
  unfold Json.optional
  cases hMember : j.member? name with
  | none =>
      exact ⟨Presence.noConfusion, rfl⟩
  | some value =>
      have hValue := Json.isOrdered_of_member? hOrdered hMember
      exact (hConforms value hValue).optional

theorem follows_optionalString
    (j : Json)
    (name : Text) :
    FollowsOptional (j.optionalString name) .str (.optional .text)
      (j.member? name) := by
  unfold Json.optionalString
  cases j.member? name with
  | none =>
      exact ⟨Presence.noConfusion, rfl⟩
  | some value =>
      have hValue := value.follows_decodeText (.notString name)
      cases value <;> exact hValue.optional

theorem follows_requiredString
    (j : Json)
    (name : Text) :
    FollowsRequired (j.requiredString name) .str (.required .text)
      (j.member? name) := by
  unfold Json.requiredString Json.optionalString
  cases j.member? name with
  | none =>
      exact fun hPresent => hPresent rfl
  | some value =>
      have hValue := value.follows_decodeText (.notString name)
      cases value <;> exact hValue.required

------------------------------------------------------------
-- Arrays, Tables And Records
------------------------------------------------------------

theorem agrees_items
    {decode : Json → Except DecodeError α}
    {encode : α → Json}
    {schema : Schema}
    (hItem : Conforms decode encode schema)
    {items : List Json}
    (hOrdered : Json.areOrderedItems items = true) :
    Agrees (items.mapM decode) (Json.fitItems items schema = true)
      fun results =>
        results.map encode = Json.canonicalItems items schema := by
  induction items with
  | nil =>
      exact ⟨rfl, rfl⟩
  | cons j items ih =>
      rw [Json.areOrderedItems, Bool.and_eq_true] at hOrdered
      have hHead := hItem j hOrdered.1
      have hTail := ih hOrdered.2
      rw [List.mapM_cons, Json.fitItems, Bool.and_eq_true,
        Json.canonicalItems]
      refine hHead.bind fun a hEncode => ?_
      refine hTail.bind_pure fun results hResults => ?_
      rw [List.map_cons, hEncode, hResults]

theorem agrees_values
    {decode : Text → Json → Except DecodeError α}
    {encode : α → Json}
    {schema : Schema}
    (hValue : ∀ key, Conforms (decode key) encode schema)
    {members : Dictionary Json}
    (hOrdered : Json.areOrderedMembers members = true) :
    Agrees (Dictionary.traverse decode members)
      (Json.fitValues members schema = true)
      fun results =>
        Dictionary.mapValues (fun _ a => encode a) results =
          Json.canonicalValues members schema := by
  induction members with
  | nil =>
      exact ⟨rfl, rfl⟩
  | cons member members ih =>
      rcases member with ⟨key, j⟩
      rw [Json.areOrderedMembers, Bool.and_eq_true] at hOrdered
      have hHead := hValue key j hOrdered.1
      have hTail := ih hOrdered.2
      rw [Dictionary.traverse, Json.fitValues, Bool.and_eq_true,
        Json.canonicalValues]
      refine hHead.bind fun a hEncode => ?_
      refine hTail.bind_pure fun results hResults => ?_
      rw [Dictionary.mapValues_cons, hEncode, hResults]

/- An array is decoded item by item. -/
theorem conforms_list
    {what : Text}
    {decode : Json → Except DecodeError α}
    {encode : α → Json}
    {schema : Schema}
    (hItem : Conforms decode encode schema) :
    Conforms
      (fun j => do
        let items ← j.requireArray what
        items.mapM decode)
      (fun results => .arr (results.map encode)) (.list schema) := by
  intro j hOrdered
  cases j with
  | arr items =>
      rw [Json.isOrdered] at hOrdered
      have hItems := agrees_items hItem hOrdered
      exact hItems.congr (by rw [Json.fits]) fun _ hEncode =>
        congrArg Json.arr hEncode
  | null | bool _ | int _ | double _ | str _ | obj _ =>
      exact Bool.false_ne_true

/- A table is decoded value by value. -/
theorem conforms_table
    {what : Text}
    {decode : Text → Json → Except DecodeError α}
    {encode : α → Json}
    {schema : Schema}
    (hValue : ∀ key, Conforms (decode key) encode schema) :
    Conforms
      (fun j => do
        let members ← j.requireObject what
        Dictionary.traverse decode members)
      (fun results =>
        .obj (Dictionary.mapValues (fun _ a => encode a) results))
      (.table schema) := by
  intro j hOrdered
  cases j with
  | obj members =>
      have hValues :=
        agrees_values hValue
          (Json.areOrderedMembers_of_isOrdered hOrdered)
      exact hValues.congr (by rw [Json.fits]) fun _ hEncode =>
        congrArg Json.obj hEncode
  | null | bool _ | int _ | double _ | str _ | arr _ =>
      exact Bool.false_ne_true

/-
  A record is decoded member by member: the steps succeed if
  all fields fit, and the encoding is made of the fields.
-/
theorem agrees_record
    {fields : Dictionary Field}
    (hFields : fields.Ordered)
    {j : Json}
    (hOrdered : j.isOrdered = true)
    {what : Text}
    {read : Dictionary Json → Except DecodeError α}
    {encode : α → Json}
    (hRead : ∀ members, j = .obj members →
      Agrees (read members)
        (∀ entry ∈ fields, entry.2.Fits (j.member? entry.1))
        fun a =>
          encode a =
            .object
              (Dictionary.mapValues
                (fun name field => field.canonical (j.member? name))
                fields)) :
    Agrees (j.requireObject what >>= read)
      (j.fits (.record fields) = true) fun a =>
        encode a = j.canonical (.record fields) := by
  cases j with
  | obj members =>
      have hMembers := Json.ordered_of_isOrdered hOrdered
      refine (hRead members rfl).congr
        (Json.fits_record_iff hMembers hFields) fun a hEncode => ?_
      rw [Json.canonical_record hMembers hFields]
      exact hEncode
  | null | bool _ | int _ | double _ | str _ | arr _ =>
      exact Bool.false_ne_true

------------------------------------------------------------
-- Instructions
------------------------------------------------------------

namespace Instruction

theorem follows_decodeInteger
    (j : Json)
    (name : Text) :
    FollowsOptional (decodeInteger name j) .ofInt64
      (.optional .signed) (j.member? name) := by
  unfold decodeInteger
  cases j.member? name with
  | none =>
      exact ⟨Presence.noConfusion, rfl⟩
  | some value =>
      have hValue :=
        value.follows_decodeSigned (.instructionField name)
      have hOptional := hValue.optional
      unfold Json.decodeSigned at hOptional
      dsimp only
      cases hNumber : value.int64? with
      | none =>
          rw [hNumber] at hOptional
          exact hOptional
      | some n =>
          rw [hNumber] at hOptional
          exact hOptional

/- The name of an instruction, which has to be a text. -/
def decodeName (j : Json) : Except DecodeError Text :=
  match j.member? (ascii "name") with
  | some (.str name) => .ok name
  | _ => .error .instructionName

theorem follows_decodeName
    (j : Json) :
    FollowsRequired (decodeName j) .str (.required .text)
      (j.member? (ascii "name")) := by
  unfold decodeName
  cases j.member? (ascii "name") with
  | none =>
      exact fun hPresent => hPresent rfl
  | some value =>
      have hValue := value.follows_decodeText .instructionName
      cases value <;> exact hValue.required

theorem ofJson_eq
    (j : Json) :
    ofJson j = do
      let _ ← j.requireObject (ascii "instruction")
      let name ← decodeName j
      let value ← j.optionalString (ascii "value")
      let source ← decodeInteger (ascii "source") j
      let rangeBegin ← decodeInteger (ascii "begin") j
      let rangeEnd ← decodeInteger (ascii "end") j
      let jumpType ← j.optionalString (ascii "jumpType")
      return {
        name, value, source, rangeBegin, rangeEnd, jumpType
      } := by
  unfold ofJson decodeName
  cases j.member? (ascii "name") with
  | none => rfl
  | some value => cases value <;> rfl

theorem conforms_schema :
    Conforms ofJson toJson schema := by
  intro j hOrdered
  unfold Follows
  rw [ofJson_eq]
  refine agrees_record ?_ hOrdered fun members hObject => ?_
  · decide
  · refine Agrees.of_iff ?_ <|
      (follows_decodeName j).bind fun name hName =>
      (follows_optionalString j _).bind fun value hValue =>
      (follows_decodeInteger j _).bind fun source hSource =>
      (follows_decodeInteger j _).bind fun start hStart =>
      (follows_decodeInteger j _).bind fun stop hStop =>
      (follows_optionalString j _).bind_pure fun jump hJump => ?_
    -- Fields are in key order, steps in the order of decoding.
    · simp only [List.forall_mem_cons, List.not_mem_nil]
      grind
    · unfold toJson
      rw [hName, hValue, hSource, hStart, hStop, hJump]
      rfl

end Instruction

------------------------------------------------------------
-- Assemblies
------------------------------------------------------------

theorem encodeData_eq_map
    (withAuxdata : Bool)
    (data : Option (List (Text × DataEntry))) :
    encodeData withAuxdata data =
      data.map fun entries =>
        .obj (encodeEntries withAuxdata entries) := by
  cases data <;> rfl

namespace Assembly

/- An assembly follows its fields if its data section does. -/
theorem follows_fields
    {members : Dictionary Json}
    (hOrdered : (Json.obj members).isOrdered = true)
    (hData : FollowsOptional (decodeData members)
      (fun entries => .obj (encodeEntries true entries))
      (.optional (.table .dataEntry))
      (Dictionary.get? (ascii ".data") members)) :
    Follows ofJson toJson (.record fields) (.obj members) := by
  have hCode :
      FollowsOptional (decodeCode members)
        (fun instructions =>
          .arr (instructions.map Instruction.toJson))
        (.optional (.list Instruction.schema))
        ((Json.obj members).member? (ascii ".code")) :=
    (conforms_list Instruction.conforms_schema).optional hOrdered _
  unfold Follows ofJson
  refine agrees_record ?_ hOrdered fun read hObject => ?_
  · decide
  · cases hObject
    unfold ofMembers fields
    refine Agrees.of_iff ?_ <|
      hCode.bind fun code hCode =>
      hData.bind fun entries hEntries =>
      (follows_optionalString _ _).bind_pure fun auxdata hAuxdata => ?_
    · simp only [List.forall_mem_cons, List.not_mem_nil]
      unfold Json.member?
      grind
    · unfold toJson
      rw [encode, encodeData_eq_map, hCode, hEntries, if_pos rfl,
        hAuxdata]
      rfl

end Assembly

mutual

/- Entries of a data section are decoded along their schema. -/
theorem DataEntry.follows_schema :
    ∀ j : Json, j.isOrdered = true →
      Follows DataEntry.ofJson DataEntry.toJson .dataEntry j
  | .obj members, hOrdered => by
      have hMembers := Json.areOrderedMembers_of_isOrdered hOrdered
      have hAssembly :=
        Assembly.follows_fields hOrdered
          (follows_decodeData members hMembers)
      unfold Follows
      rw [DataEntry.ofJson_obj, Json.fits_dataEntry_obj,
        Json.canonical_dataEntry_obj]
      exact hAssembly.map fun _ hEncode => hEncode
  | .str text, _ => ⟨rfl, rfl⟩
  | .null, _ => Bool.false_ne_true
  | .bool _, _ => Bool.false_ne_true
  | .int _, _ => Bool.false_ne_true
  | .double _, _ => Bool.false_ne_true
  | .arr _, _ => Bool.false_ne_true
termination_by structural j => j

theorem follows_decodeData :
    ∀ members : List (Text × Json),
      Json.areOrderedMembers members = true →
        FollowsOptional (decodeData members)
          (fun entries => .obj (encodeEntries true entries))
          (.optional (.table .dataEntry))
          (Dictionary.get? (ascii ".data") members)
  | [], _ => ⟨Presence.noConfusion, rfl⟩
  | (key, j) :: rest, hOrdered => by
      rw [Json.areOrderedMembers, Bool.and_eq_true] at hOrdered
      rw [decodeData, Dictionary.get?_cons]
      by_cases hKey : key = ascii ".data"
      · rw [if_pos hKey, if_pos hKey]
        exact (follows_decodeSection j hOrdered.1).optional
      · rw [if_neg hKey, if_neg hKey]
        exact follows_decodeData rest hOrdered.2
termination_by structural members => members

theorem follows_decodeSection :
    ∀ j : Json, j.isOrdered = true →
      Follows decodeSection
        (fun entries => .obj (encodeEntries true entries))
        (.table .dataEntry) j
  | .obj entries, hOrdered => by
      have hEntries :=
        agrees_decodeEntries entries
          (Json.areOrderedMembers_of_isOrdered hOrdered)
      unfold Follows
      rw [decodeSection, Json.fits, Json.canonical]
      exact hEntries.congr Iff.rfl fun _ hEncode =>
        congrArg Json.obj hEncode
  | .null, _ => Bool.false_ne_true
  | .bool _, _ => Bool.false_ne_true
  | .int _, _ => Bool.false_ne_true
  | .double _, _ => Bool.false_ne_true
  | .str _, _ => Bool.false_ne_true
  | .arr _, _ => Bool.false_ne_true
termination_by structural j => j

theorem agrees_decodeEntries :
    ∀ entries : List (Text × Json),
      Json.areOrderedMembers entries = true →
        Agrees (decodeEntries entries)
          (Json.fitValues entries .dataEntry = true)
          fun decoded =>
            encodeEntries true decoded =
              Json.canonicalValues entries .dataEntry
  | [], _ => ⟨rfl, rfl⟩
  | (key, j) :: rest, hOrdered => by
      rw [Json.areOrderedMembers, Bool.and_eq_true] at hOrdered
      have hHead := DataEntry.follows_schema j hOrdered.1
      have hTail := agrees_decodeEntries rest hOrdered.2
      have hSteps :
          decodeEntries ((key, j) :: rest) =
            DataEntry.ofJson j >>= fun entry =>
              (decodeEntries rest).map fun entries =>
                (key, entry) :: entries := by
        rw [decodeEntries]
        cases DataEntry.ofJson j <;> rfl
      rw [hSteps, Json.fitValues, Bool.and_eq_true,
        Json.canonicalValues]
      refine hHead.bind fun entry hEntry => ?_
      refine hTail.map fun entries hEntries => ?_
      rw [encodeEntries, hEntries]
      exact congrArg (fun value => (key, value) :: _) hEntry
termination_by structural entries => entries

end

/- Assemblies are decoded along their fields. -/
theorem Assembly.conforms_fields :
    Conforms Assembly.ofJson Assembly.toJson
      (.record Assembly.fields) := by
  intro j hOrdered
  cases j with
  | obj members =>
      have hMembers := Json.areOrderedMembers_of_isOrdered hOrdered
      exact Assembly.follows_fields hOrdered
        (follows_decodeData members hMembers)
  | null | bool _ | int _ | double _ | str _ | arr _ =>
      exact Bool.false_ne_true

------------------------------------------------------------
-- Contracts
------------------------------------------------------------

namespace MachineOutput

theorem decodeAssembly_of_ne_null
    {j value : Json}
    (hMember : j.member? (ascii "legacyAssembly") = some value)
    (hNull : value ≠ .null) :
    decodeAssembly j = (Assembly.ofJson value).map some := by
  unfold decodeAssembly
  rw [hMember]
  cases value with
  | null => exact absurd rfl hNull
  | bool _ | int _ | double _ | str _ | arr _ | obj _ => rfl

/- The assembly, for which `null` is as good as nothing. -/
theorem follows_decodeAssembly
    {j : Json}
    (hOrdered : j.isOrdered = true) :
    FollowsOptional (decodeAssembly j) Assembly.toJson
      (.nullable (.record Assembly.fields))
      (j.member? (ascii "legacyAssembly")) := by
  cases hMember : j.member? (ascii "legacyAssembly") with
  | none =>
      unfold decodeAssembly
      rw [hMember]
      exact ⟨Presence.noConfusion, rfl⟩
  | some value =>
      by_cases hNull : value = .null
      · unfold decodeAssembly
        rw [hMember, hNull]
        exact ⟨Or.inl rfl, rfl⟩
      · have hFollows :=
          Assembly.conforms_fields value
            (Json.isOrdered_of_member? hOrdered hMember)
        have hIgnores :
            ¬ (Field.nullable (.record Assembly.fields)).ignores
              value = true := by
          intro hIgnores
          exact hNull
            (of_decide_eq_true (Bool.and_eq_true_iff.mp hIgnores).2)
        rw [decodeAssembly_of_ne_null hMember hNull]
        refine (hFollows.of_iff (or_iff_right hIgnores)).map
          fun a hEncode => ?_
        rw [Field.canonical, if_neg hIgnores]
        exact congrArg some hEncode

theorem conforms_schema :
    Conforms ofJson toJson schema := by
  intro j hOrdered
  unfold Follows ofJson
  refine agrees_record ?_ hOrdered fun members hObject => ?_
  · decide
  · refine Agrees.of_iff ?_ <|
      (follows_decodeAssembly hOrdered).bind fun assembly hAssembly =>
      (follows_optionalString j _).bind_pure fun text hText => ?_
    · simp only [List.forall_mem_cons, List.not_mem_nil,
        Field.fits_optional_any]
      grind
    · unfold toJson
      rw [hText, hAssembly]
      simp only [Dictionary.mapValues_cons,
        Field.canonical_optional_any]
      rfl

end MachineOutput

namespace Contract

theorem conforms_decodePaths :
    Conforms decodePaths
      (fun paths =>
        .obj (Dictionary.mapValues (fun _ path => .str path) paths))
      (.table .text) := by
  apply conforms_table
  intro key j hOrdered
  have hValue := j.follows_decodeText .factoryDependency
  cases j <;> exact hValue

theorem conforms_schema :
    Conforms ofJson toJson schema := by
  intro j hOrdered
  unfold Follows ofJson
  refine agrees_record ?_ hOrdered fun members hObject => ?_
  · decide
  · refine Agrees.of_iff ?_ <|
      (MachineOutput.conforms_schema.optional hOrdered _).bind
        fun evm hEvm =>
      (follows_optionalString j _).bind fun optimized hOptimized =>
      (follows_optionalString j _).bind fun hash hHash =>
      (conforms_decodePaths.optional hOrdered _).bind_pure
        fun paths hPaths => ?_
    · simp only [List.forall_mem_cons, List.not_mem_nil,
        Field.fits_optional_any]
      grind
    · unfold toJson
      rw [hEvm, hOptimized, hHash, hPaths]
      simp only [Dictionary.mapValues_cons,
        Field.canonical_optional_any]
      rfl

end Contract

------------------------------------------------------------
-- Diagnostics And Sources
------------------------------------------------------------

namespace SourceLocation

theorem follows_requiredInteger
    (j : Json)
    (name : Text) :
    FollowsRequired (requiredInteger name j) .ofInt64
      (.required .signed) (j.member? name) := by
  unfold requiredInteger
  cases j.member? name with
  | none =>
      exact fun hPresent => hPresent rfl
  | some value =>
      have hValue := value.follows_decodeSigned (.locationField name)
      exact hValue.required

theorem conforms_schema :
    Conforms ofJson toJson schema := by
  intro j hOrdered
  unfold Follows ofJson
  refine agrees_record ?_ hOrdered fun members hObject => ?_
  · decide
  · refine Agrees.of_iff ?_ <|
      (follows_requiredString j _).bind fun file hFile =>
      (follows_requiredInteger j _).bind fun start hStart =>
      (follows_requiredInteger j _).bind_pure fun stop hStop => ?_
    · simp only [List.forall_mem_cons, List.not_mem_nil]
      grind
    · unfold toJson
      rw [hFile, hStart, hStop]
      rfl

end SourceLocation

namespace Diagnostic

theorem conforms_schema :
    Conforms ofJson toJson schema := by
  intro j hOrdered
  unfold Follows ofJson
  refine agrees_record ?_ hOrdered fun members hObject => ?_
  · decide
  · refine Agrees.of_iff ?_ <|
      (follows_requiredString j _).bind fun component hComponent =>
      (follows_optionalString j _).bind fun errorCode hCode =>
      (follows_requiredString j _).bind fun formatted hFormatted =>
      (follows_requiredString j _).bind fun message hMessage =>
      (follows_requiredString j _).bind fun severity hSeverity =>
      (SourceLocation.conforms_schema.optional hOrdered _).bind
        fun location hLocation =>
      (follows_requiredString j _).bind_pure fun type hType => ?_
    · simp only [List.forall_mem_cons, List.not_mem_nil]
      grind
    · unfold toJson
      rw [hComponent, hCode, hFormatted, hMessage, hSeverity,
        hLocation, hType]
      rfl

end Diagnostic

namespace Source

theorem conforms_decodeId :
    Conforms decodeId .ofUInt64 .unsigned := by
  intro j hOrdered
  exact j.follows_decodeUnsigned .sourceId

theorem conforms_schema :
    Conforms ofJson toJson schema := by
  intro j hOrdered
  unfold Follows ofJson
  refine agrees_record ?_ hOrdered fun members hObject => ?_
  · decide
  · refine Agrees.of_iff ?_ <|
      (conforms_decodeId.optional hOrdered _).bind_pure
        fun id hId => ?_
    · simp only [List.forall_mem_cons, List.not_mem_nil,
        Field.fits_optional_any]
      grind
    · unfold toJson
      rw [hId]
      simp only [Dictionary.mapValues_cons,
        Field.canonical_optional_any]
      rfl

end Source

------------------------------------------------------------
-- Reports
------------------------------------------------------------

namespace Report

theorem conforms_decodeContracts :
    Conforms decodeContracts
      (fun table =>
        .obj
          (Dictionary.mapValues
            (fun _ contracts =>
              .obj
                (Dictionary.mapValues
                  (fun _ contract => contract.toJson) contracts))
            table))
      (.table (.table Contract.schema)) := by
  apply conforms_table
  intro file
  apply conforms_table
  intro name
  exact Contract.conforms_schema

theorem conforms_decodeSources :
    Conforms decodeSources
      (fun sources =>
        .obj
          (Dictionary.mapValues (fun _ source => source.toJson)
            sources))
      (.table Source.schema) := by
  apply conforms_table
  intro path
  exact Source.conforms_schema

theorem conforms_decodeDiagnostics :
    Conforms decodeDiagnostics
      (fun diagnostics => .arr (diagnostics.map Diagnostic.toJson))
      (.list Diagnostic.schema) := by
  exact conforms_list Diagnostic.conforms_schema

/- Reports are decoded along their schema. -/
theorem conforms_schema :
    Conforms ofJson toJson schema := by
  intro j hOrdered
  unfold Follows ofJson
  refine agrees_record ?_ hOrdered fun members hObject => ?_
  · decide
  · refine Agrees.of_iff ?_ <|
      (conforms_decodeContracts.optional hOrdered _).bind
        fun contracts hContracts =>
      (conforms_decodeSources.optional hOrdered _).bind
        fun sources hSources =>
      (conforms_decodeDiagnostics.optional hOrdered _).bind
        fun diagnostics hDiagnostics =>
      (follows_optionalString j _).bind fun version hVersion =>
      (follows_optionalString j _).bind fun long hLong =>
      (follows_optionalString j _).bind_pure fun zk hZk => ?_
    · simp only [List.forall_mem_cons, List.not_mem_nil]
      grind
    · unfold toJson
      rw [map_diagnosticsJson, hContracts, hSources, hDiagnostics,
        hVersion, hLong, hZk]
      rfl

/-
  A value in key order is refused just if it does not fit the
  schema of reports. If it fits, the report which is read is
  encoded as what the schema keeps of the value.
-/
theorem encode_decode
    {j : Json}
    (hOrdered : j.isOrdered = true) :
    ((∃ e, ofJson j = .error e) ↔ j.fits schema = false) ∧
      (j.fits schema = true →
        ∃ r, ofJson j = .ok r ∧ r.toJson = j.canonical schema) := by
  have hFollows := conforms_schema j hOrdered
  exact ⟨hFollows.refused_iff, hFollows.accepted⟩

/-
  A report with members that are no fields, an assembly which
  is `null` and a source whose number is the double one.
-/
def looseJson : Json :=
  .obj
    [ (ascii "contracts",
        .obj
          [ (ascii "a.sol",
              .obj
                [ (ascii "A",
                    .obj
                      [ (ascii "abi", .null),
                        (ascii "evm",
                          .obj
                            [ (ascii "gasEstimates", .null),
                              (ascii "legacyAssembly", .null) ]) ]) ]) ]),
      (ascii "errors", .arr []),
      (ascii "sources",
        .obj
          [ (ascii "a.sol",
              .obj
                [(ascii "id", .double ⟨0x3ff0000000000000⟩)]) ]),
      (ascii "time", .int 7),
      (ascii "version", .str []) ]

/- What is kept of it. -/
def keptJson : Json :=
  .obj
    [ (ascii "contracts",
        .obj
          [ (ascii "a.sol",
              .obj
                [ (ascii "A",
                    .obj
                      [ (ascii "abi", .null),
                        (ascii "evm", .obj []) ]) ]) ]),
      (ascii "errors", .arr []),
      (ascii "sources",
        .obj [(ascii "a.sol", .obj [(ascii "id", .int 1)])]),
      (ascii "version", .str []) ]

theorem encode_decode_looseJson :
    looseJson.isOrdered = true ∧ looseJson.fits schema = true ∧
      ∃ r, ofJson looseJson = .ok r ∧ r.toJson = keptJson := by
  have hFacts :
      looseJson.isOrdered = true ∧ looseJson.fits schema = true ∧
        looseJson.canonical schema = keptJson := by
    decide +kernel
  rcases hFacts with ⟨hOrdered, hFits, hKept⟩
  rcases (encode_decode hOrdered).2 hFits with ⟨r, hRead, hEncode⟩
  exact ⟨hOrdered, hFits, r, hRead, hEncode.trans hKept⟩

/- Every document is in order: it is read along the schema. -/
theorem read_of_parse?
    {s : Text}
    {j : Json}
    (hParse : Json.parse? s = some j) :
    ((∃ e, read s = .error e) ↔ j.fits schema = false) ∧
      (j.fits schema = true →
        ∃ r, read s = .ok r ∧ r.toJson = j.canonical schema) := by
  have hFollows :=
    conforms_schema j (Json.isOrdered_of_parse? hParse)
  have hRead : read s = ofJson j := by
    unfold read
    rw [hParse]
  rw [hRead]
  exact ⟨hFollows.refused_iff, hFollows.accepted⟩

end Report

end ContractLinker
