import ContractLinker.Json.Decode
import ContractLinker.Proofs.Dictionary

/-
  JSON values whose objects are in key order, and what a
  decoder that succeeds says about the value it read.

  Key definitions include:
    * `Json.isOrdered`

  Main statements:
    * `Except.bind_eq_ok_iff`
    * `Json.isOrdered_of_mem`
    * `Json.optional_eq_ok`
    * `Json.member?_object`
    * `Json.optional_of_member?`
    * `Dictionary.map_fst_of_traverse`
    * `Dictionary.mem_of_traverse`
    * `Dictionary.traverse_mapValues`
-/

------------------------------------------------------------
-- Results
------------------------------------------------------------

namespace ContractLinker

variable {α β ε : Type}

/- A sequence of two steps succeeds if both do. -/
theorem bind_eq_ok_iff
    {x : Except ε α}
    {f : α → Except ε β}
    {b : β} :
    (x >>= f) = .ok b ↔ ∃ a, x = .ok a ∧ f a = .ok b := by
  cases x with
  | error e => simp [Bind.bind, Except.bind]
  | ok a => simp [Bind.bind, Except.bind]

theorem map_eq_ok_iff
    {x : Except ε α}
    {f : α → β}
    {b : β} :
    x.map f = .ok b ↔ ∃ a, x = .ok a ∧ f a = b := by
  cases x with
  | error e => simp [Except.map]
  | ok a => simp [Except.map]

------------------------------------------------------------
-- Ordered Values
------------------------------------------------------------

namespace Dictionary

instance (d : Dictionary α) : Decidable d.Ordered :=
  inferInstanceAs (Decidable (List.Pairwise _ _))

end Dictionary

namespace Json

mutual

/- Whether the keys of every object increase, at every depth. -/
def isOrdered : Json → Bool
  | .arr items => areOrderedItems items
  | .obj members =>
      decide (Dictionary.Ordered members) && areOrderedMembers members
  | .null | .bool _ | .int _ | .double _ | .str _ => true
termination_by structural j => j

def areOrderedItems : List Json → Bool
  | [] => true
  | j :: items => isOrdered j && areOrderedItems items
termination_by structural items => items

def areOrderedMembers : List (Text × Json) → Bool
  | [] => true
  | (_, j) :: members => isOrdered j && areOrderedMembers members
termination_by structural members => members

end

theorem areOrderedMembers_iff
    {members : List (Text × Json)} :
    areOrderedMembers members = true ↔
      ∀ key j, (key, j) ∈ members → j.isOrdered = true := by
  induction members with
  | nil =>
      simp [areOrderedMembers]
  | cons member members ih =>
      rcases member with ⟨key, j⟩
      rw [areOrderedMembers, Bool.and_eq_true, ih]
      constructor
      · intro hBoth k i hMember
        rcases hBoth with ⟨hHead, hTail⟩
        rcases List.mem_cons.mp hMember with hEq | hRest
        · cases hEq
          exact hHead
        · exact hTail k i hRest
      · intro hAll
        constructor
        · exact hAll key j List.mem_cons_self
        · intro k i hMember
          exact hAll k i (List.mem_cons_of_mem _ hMember)

/- The members of an ordered object are in order. -/
theorem ordered_of_isOrdered
    {members : List (Text × Json)}
    (hOrdered : (Json.obj members).isOrdered = true) :
    Dictionary.Ordered members := by
  rw [isOrdered, Bool.and_eq_true, decide_eq_true_iff] at hOrdered
  exact hOrdered.1

theorem areOrderedMembers_of_isOrdered
    {members : List (Text × Json)}
    (hOrdered : (Json.obj members).isOrdered = true) :
    areOrderedMembers members = true := by
  rw [isOrdered, Bool.and_eq_true] at hOrdered
  exact hOrdered.2

/- The values of an ordered object are ordered. -/
theorem isOrdered_of_mem
    {members : List (Text × Json)}
    (hOrdered : (Json.obj members).isOrdered = true)
    {key : Text}
    {j : Json}
    (hMember : (key, j) ∈ members) :
    j.isOrdered = true := by
  exact areOrderedMembers_iff.mp
    (areOrderedMembers_of_isOrdered hOrdered) key j hMember

/- The members of an ordered value are ordered. -/
theorem isOrdered_of_member?
    {j value : Json}
    (hOrdered : j.isOrdered = true)
    {name : Text}
    (hMember : j.member? name = some value) :
    value.isOrdered = true := by
  cases j with
  | obj members =>
      exact isOrdered_of_mem hOrdered
        (Dictionary.mem_of_get? hMember)
  | null | bool _ | int _ | double _ | str _ | arr _ =>
      cases hMember

------------------------------------------------------------
-- Decoders
------------------------------------------------------------

theorem requireObject_eq_ok_iff
    {what : Text}
    {j : Json}
    {members : Dictionary Json} :
    j.requireObject what = .ok members ↔ j = .obj members := by
  cases j <;> simp [requireObject]

/- A member which was decoded is absent or has a decoded value. -/
theorem optional_eq_ok
    {name : Text}
    {decode : Json → Except DecodeError α}
    {j : Json}
    {result : Option α}
    (hDecode : j.optional name decode = .ok result) :
    result = none ∨
      ∃ value a, j.member? name = some value ∧
        decode value = .ok a ∧ result = some a := by
  rw [optional] at hDecode
  cases hMember : j.member? name with
  | none =>
      rw [hMember] at hDecode
      cases hDecode
      exact Or.inl rfl
  | some value =>
      rw [hMember] at hDecode
      rcases map_eq_ok_iff.mp hDecode with ⟨a, hValue, rfl⟩
      exact Or.inr ⟨value, a, rfl, hValue, rfl⟩

end Json

------------------------------------------------------------
-- Encoded Members
------------------------------------------------------------

namespace Json

/- The members of an object of present members. -/
theorem member?_object
    {members : List (Text × Option Json)}
    (hKeys : (members.map Prod.fst).Nodup)
    (name : Text) :
    (object members).member? name =
      (Dictionary.get? name members).join := by
  unfold object member?
  dsimp only
  induction members with
  | nil =>
      rfl
  | cons member members ih =>
      rcases member with ⟨key, value⟩
      rw [List.map_cons, List.nodup_cons] at hKeys
      have hRest := ih hKeys.2
      rw [Dictionary.get?_cons]
      cases value with
      | none =>
          rw [List.filterMap_cons_none rfl]
          by_cases hKey : key = name
          · have hAbsent :
                Dictionary.get? name members = none := by
              apply Dictionary.get?_eq_none_iff.mpr
              intro value hMember
              apply hKeys.1
              exact List.mem_map.mpr ⟨_, hMember, hKey.symm⟩
            rw [if_pos hKey, hRest, hAbsent]
            rfl
          · rw [if_neg hKey]
            exact hRest
      | some value =>
          rw [List.filterMap_cons]
          dsimp only [Option.map_some]
          rw [Dictionary.get?_cons]
          by_cases hKey : key = name
          · rw [if_pos hKey, if_pos hKey]
            rfl
          · rw [if_neg hKey, if_neg hKey]
            exact hRest

/- A text which is present or not is decoded as it was encoded. -/
theorem optionalString_of_member?
    {j : Json}
    {name : Text}
    {text : Option Text}
    (hMember : j.member? name = text.map .str) :
    j.optionalString name = .ok text := by
  unfold optionalString
  rw [hMember]
  cases text with
  | none => rfl
  | some text => rfl

/- A text which has to be there is decoded as it was encoded. -/
theorem requiredString_of_member?
    {j : Json}
    {name text : Text}
    (hMember : j.member? name = some (.str text)) :
    j.requiredString name = .ok text := by
  have hText : j.optionalString name = .ok (some text) :=
    optionalString_of_member? hMember
  unfold requiredString
  rw [hText]
  rfl

/- A member is decoded as `keep` if its encoded values are. -/
theorem optional_of_member?
    {encode : α → Json}
    {decode : Json → Except DecodeError β}
    {keep : α → β}
    (hDecode : ∀ a, decode (encode a) = .ok (keep a))
    {j : Json}
    {name : Text}
    {value : Option α}
    (hMember : j.member? name = value.map encode) :
    j.optional name decode = .ok (value.map keep) := by
  unfold optional
  rw [hMember]
  cases value with
  | none =>
      rfl
  | some a =>
      dsimp only [Option.map_some]
      rw [hDecode]
      rfl

theorem int64?_ofInt64
    (n : Int64) :
    (ofInt64 n).int64? = some n := by
  have hRange :
      Int64.minValue.toInt ≤ n.toInt ∧
        n.toInt ≤ Int64.maxValue.toInt :=
    ⟨n.minValue_le_toInt, n.toInt_le⟩
  unfold int64? ofInt64 integral?
  dsimp only
  rw [if_pos hRange, Int64.ofInt_toInt]

theorem uint64?_ofUInt64
    (n : UInt64) :
    (ofUInt64 n).uint64? = some n := by
  have hRange :
      (0 : Int) ≤ n.toNat ∧ (n.toNat : Int) < UInt64.size :=
    ⟨Int.natCast_nonneg _, Int.ofNat_lt.mpr n.toNat_lt_size⟩
  unfold uint64? ofUInt64 integral?
  dsimp only
  rw [if_pos hRange, Int.toNat_natCast, UInt64.ofNat_toNat]

end Json

/- What is decoded one by one is decoded as it was encoded. -/
theorem mapM_map_eq_ok
    {encode : α → β}
    {decode : β → Except ε α}
    (hDecode : ∀ a, decode (encode a) = .ok a)
    (items : List α) :
    (items.map encode).mapM decode = .ok items := by
  induction items with
  | nil =>
      rfl
  | cons a items ih =>
      rw [List.map_cons, List.mapM_cons, hDecode, ih]
      rfl

------------------------------------------------------------
-- Traversal
------------------------------------------------------------

namespace Dictionary

theorem traverse_cons_eq_ok
    {f : Text → α → Except ε β}
    {k : Text}
    {a : α}
    {d : Dictionary α}
    {d' : Dictionary β}
    (hTraverse : traverse f ((k, a) :: d) = .ok d') :
    ∃ b rest, f k a = .ok b ∧ traverse f d = .ok rest ∧
      d' = (k, b) :: rest := by
  rw [traverse] at hTraverse
  rcases bind_eq_ok_iff.mp hTraverse with ⟨b, hHead, hBind⟩
  rcases bind_eq_ok_iff.mp hBind with ⟨rest, hTail, hEq⟩
  cases hEq
  exact ⟨b, rest, hHead, hTail, rfl⟩

/- Decoding the values of a dictionary keeps its keys. -/
theorem map_fst_of_traverse
    {f : Text → α → Except ε β}
    {d : Dictionary α}
    {d' : Dictionary β}
    (hTraverse : traverse f d = .ok d') :
    d'.map Prod.fst = d.map Prod.fst := by
  induction d generalizing d' with
  | nil =>
      cases hTraverse
      rfl
  | cons entry d ih =>
      rcases entry with ⟨k, a⟩
      rcases traverse_cons_eq_ok hTraverse with
        ⟨b, rest, -, hTail, rfl⟩
      rw [List.map_cons, List.map_cons, ih hTail]

/- Every decoded value comes from one under the same key. -/
theorem mem_of_traverse
    {f : Text → α → Except ε β}
    {d : Dictionary α}
    {d' : Dictionary β}
    (hTraverse : traverse f d = .ok d')
    {k : Text}
    {b : β}
    (hMember : (k, b) ∈ d') :
    ∃ a, (k, a) ∈ d ∧ f k a = .ok b := by
  induction d generalizing d' with
  | nil =>
      cases hTraverse
      simp at hMember
  | cons entry d ih =>
      rcases entry with ⟨l, a⟩
      rcases traverse_cons_eq_ok hTraverse with
        ⟨c, rest, hHead, hTail, rfl⟩
      rcases List.mem_cons.mp hMember with hEq | hRest
      · cases hEq
        exact ⟨a, List.mem_cons_self, hHead⟩
      · rcases ih hTail hRest with ⟨a', hEntry, hValue⟩
        exact ⟨a', List.mem_cons_of_mem _ hEntry, hValue⟩

/- Encoded values are decoded as `keep` if each of them is. -/
theorem traverse_mapValues
    {γ : Type}
    {encode : Text → α → β}
    {decode : Text → β → Except ε γ}
    {keep : Text → α → γ}
    (hDecode : ∀ key a, decode key (encode key a) = .ok (keep key a))
    (d : Dictionary α) :
    traverse decode (mapValues encode d) = .ok (mapValues keep d) := by
  induction d with
  | nil =>
      rfl
  | cons entry d ih =>
      rcases entry with ⟨key, a⟩
      rw [mapValues_cons, traverse, hDecode, ih]
      rfl

end Dictionary

end ContractLinker
