import ContractLinker.Proofs.Json.Decoding
import ContractLinker.Proofs.Json.Scalars

/-
  The texts of a value. A value may be written with white
  space between its parts; every such text is read as the
  value, so that no text spells two values. The compact form
  is one of the texts.

  Key definitions include:
    * `Json.isPlain`
    * `Json.Spells`

  Main statements:
    * `Json.readValue_of_spells`
    * `Json.spells_compact`
    * `Json.compact_injective`
-/

namespace ContractLinker

namespace Json

------------------------------------------------------------
-- Plain Values
------------------------------------------------------------

mutual

/-
  Whether a value is free of doubles and what it holds can be
  written: integers of 64 bits, valid texts, and objects in
  key order.
-/
def isPlain : Json → Bool
  | .null | .bool _ => true
  | .int n => fitsInteger n
  | .double _ => false
  | .str s => Utf8.isValid s
  | .arr items => arePlainItems items
  | .obj members =>
      decide (Dictionary.Ordered members) && arePlainMembers members
termination_by structural j => j

def arePlainItems : List Json → Bool
  | [] => true
  | j :: items => isPlain j && arePlainItems items
termination_by structural items => items

def arePlainMembers : List (Text × Json) → Bool
  | [] => true
  | (key, j) :: members =>
      Utf8.isValid key && isPlain j && arePlainMembers members
termination_by structural members => members

end

theorem arePlainItems_iff
    {items : List Json} :
    arePlainItems items = true ↔ ∀ j ∈ items, j.isPlain = true := by
  induction items with
  | nil =>
      simp [arePlainItems]
  | cons j items ih =>
      rw [arePlainItems, Bool.and_eq_true, ih, List.forall_mem_cons]

theorem arePlainMembers_iff
    {members : List (Text × Json)} :
    arePlainMembers members = true ↔
      ∀ m ∈ members,
        Utf8.isValid m.1 = true ∧ m.2.isPlain = true := by
  induction members with
  | nil =>
      simp [arePlainMembers]
  | cons m members ih =>
      rcases m with ⟨key, j⟩
      rw [arePlainMembers, Bool.and_eq_true, Bool.and_eq_true, ih,
        List.forall_mem_cons]

/- An object of present members, in order, which are plain. -/
theorem isPlain_object
    {members : List (Text × Option Json)}
    (hOrdered : (members.map Prod.fst).Pairwise (· < ·))
    (hKeys : ∀ key ∈ members.map Prod.fst, Utf8.isValid key = true)
    (hValues : ∀ value ∈ members.map Prod.snd,
      ∀ j ∈ value, j.isPlain = true) :
    (object members).isPlain = true := by
  rw [List.pairwise_map] at hOrdered
  unfold object
  rw [isPlain, Bool.and_eq_true, decide_eq_true_iff,
    arePlainMembers_iff]
  constructor
  · unfold Dictionary.Ordered
    rw [List.pairwise_filterMap]
    apply hOrdered.imp
    intro x y hLess m hFirst m' hSecond
    rcases Option.map_eq_some_iff.mp hFirst with ⟨j, -, rfl⟩
    rcases Option.map_eq_some_iff.mp hSecond with ⟨j', -, rfl⟩
    exact hLess
  · intro m hMember
    rcases List.mem_filterMap.mp hMember with ⟨entry, hEntry, hEq⟩
    rcases Option.map_eq_some_iff.mp hEq with ⟨j, hValue, rfl⟩
    exact ⟨hKeys _ (List.mem_map_of_mem hEntry),
      hValues _ (List.mem_map_of_mem hEntry) j hValue⟩

/- Integers of 64 bits can be written. -/
theorem isPlain_ofInt64
    (n : Int64) :
    (ofInt64 n).isPlain = true := by
  have hLow := n.minValue_le_toInt
  have hHigh := n.toInt_lt
  have hSize : ((2 : Int) ^ 63) < (UInt64.size : Int) := by decide
  unfold ofInt64
  rw [isPlain, fitsInteger, Bool.and_eq_true, decide_eq_true_iff,
    decide_eq_true_iff]
  omega

------------------------------------------------------------
-- Spellings
------------------------------------------------------------

/- White space between the parts of a document. -/
def Gap (s : Text) : Prop :=
  ∀ b ∈ s, isSpace b = true

mutual

/- The texts of a value. -/
inductive Spells : Json → Text → Prop where
  | scalar {j : Json}
      (hObject : j.isObject = false)
      (hArray : j.isArray = false) :
      Spells j (scalar j)
  | emptyArr {gap : Text}
      (hGap : Gap gap) :
      Spells (.arr []) ('['.toUInt8 :: (gap ++ [']'.toUInt8]))
  | arr {items : List Json} {s : Text}
      (hItems : SpellsItems items s) :
      Spells (.arr items) ('['.toUInt8 :: s)
  | emptyObj {gap : Text}
      (hGap : Gap gap) :
      Spells (.obj []) ('{'.toUInt8 :: (gap ++ ['}'.toUInt8]))
  | obj {members : List (Text × Json)} {s : Text}
      (hMembers : SpellsMembers members s) :
      Spells (.obj members) ('{'.toUInt8 :: s)

/- The texts of some elements up to the closing bracket. -/
inductive SpellsItems : List Json → Text → Prop where
  | last {j : Json} {gap s gap' : Text}
      (hGap : Gap gap)
      (hValue : Spells j s)
      (hGap' : Gap gap') :
      SpellsItems [j] (gap ++ (s ++ (gap' ++ [']'.toUInt8])))
  | cons {j : Json} {items : List Json} {gap s gap' t : Text}
      (hGap : Gap gap)
      (hValue : Spells j s)
      (hGap' : Gap gap')
      (hItems : SpellsItems items t) :
      SpellsItems (j :: items)
        (gap ++ (s ++ (gap' ++ ','.toUInt8 :: t)))

/- The texts of some members up to the closing brace. -/
inductive SpellsMembers : List (Text × Json) → Text → Prop where
  | last {key : Text} {j : Json} {gap gap' s gap'' : Text}
      (hGap : Gap gap)
      (hGap' : Gap gap')
      (hValue : Spells j s)
      (hGap'' : Gap gap'') :
      SpellsMembers [(key, j)]
        (gap ++
          (quote key ++ ':'.toUInt8 ::
            (gap' ++ (s ++ (gap'' ++ ['}'.toUInt8])))))
  | cons {key : Text} {j : Json} {members : List (Text × Json)}
      {gap gap' s gap'' t : Text}
      (hGap : Gap gap)
      (hGap' : Gap gap')
      (hValue : Spells j s)
      (hGap'' : Gap gap'')
      (hMembers : SpellsMembers members t) :
      SpellsMembers ((key, j) :: members)
        (gap ++
          (quote key ++ ':'.toUInt8 ::
            (gap' ++ (s ++ (gap'' ++ ','.toUInt8 :: t)))))

end

------------------------------------------------------------
-- White Space
------------------------------------------------------------

theorem skipSpace_append
    {gap : Text}
    (hGap : Gap gap)
    (s : Text) :
    skipSpace (gap ++ s) = skipSpace s := by
  exact List.dropWhile_append_of_pos hGap

theorem skipSpace_cons
    {c : UInt8}
    (hSpace : isSpace c = false)
    (s : Text) :
    skipSpace (c :: s) = c :: s := by
  exact List.dropWhile_cons_of_neg (by simp [hSpace])

/- A byte is found behind white space, or another one is. -/
theorem afterByte?_append
    {gap : Text}
    (hGap : Gap gap)
    {c : UInt8}
    (hSpace : isSpace c = false)
    (b : UInt8)
    (s : Text) :
    afterByte? b (gap ++ c :: s) = if c = b then some s else none := by
  unfold afterByte?
  rw [skipSpace_append hGap, skipSpace_cons hSpace]

theorem readValue_append
    {gap : Text}
    (hGap : Gap gap)
    (fuel : Nat)
    (s : Text) :
    readValue fuel (gap ++ s) = readValue fuel s := by
  cases fuel with
  | zero => rfl
  | succ fuel =>
      rw [readValue, readValue, skipSpace_append hGap]

------------------------------------------------------------
-- First Bytes
------------------------------------------------------------

/- A byte with which a value can begin. -/
def Opens (c : UInt8) : Prop :=
  isSpace c = false ∧ c ≠ ']'.toUInt8 ∧ c ≠ '}'.toUInt8

theorem opens_of_isDigit :
    ∀ c : UInt8, Text.isDigit c = true →
      isSpace c = false ∧ c ≠ ']'.toUInt8 ∧ c ≠ '}'.toUInt8 ∧
        c ≠ '['.toUInt8 ∧ c ≠ '{'.toUInt8 ∧
        c ≠ Text.doubleQuote := by
  apply Utf8.forall_byte
  decide +kernel

/- A numeral begins with a digit or with a sign. -/
theorem ofInt_eq_cons
    (n : Int) :
    ∃ c s, Decimal.ofInt n = c :: s ∧
      (c = '-'.toUInt8 ∨ Text.isDigit c = true) := by
  cases n with
  | ofNat n =>
      rcases Decimal.ofNat_eq_cons n with ⟨c, s, hCons, -⟩
      refine ⟨c, s, hCons, Or.inr ?_⟩
      apply Decimal.isDigit_of_mem_ofNat n
      rw [hCons]
      exact List.mem_cons_self
  | negSucc n =>
      exact ⟨'-'.toUInt8, _, rfl, Or.inl rfl⟩

/- A scalar begins like a value, and like no container. -/
theorem scalar_eq_cons
    {j : Json}
    (hPlain : j.isPlain = true)
    (hObject : j.isObject = false)
    (hArray : j.isArray = false) :
    ∃ c s, scalar j = c :: s ∧ Opens c ∧
      c ≠ '['.toUInt8 ∧ c ≠ '{'.toUInt8 := by
  cases j with
  | null => exact ⟨_, _, rfl, by unfold Opens; decide⟩
  | bool b =>
      cases b with
      | true => exact ⟨_, _, rfl, by unfold Opens; decide⟩
      | false => exact ⟨_, _, rfl, by unfold Opens; decide⟩
  | int n =>
      rcases ofInt_eq_cons n with ⟨c, s, hCons, hSign | hDigit⟩
      · subst hSign
        exact ⟨_, s, hCons, by unfold Opens; decide⟩
      · rcases opens_of_isDigit c hDigit with
          ⟨hSpace, hClose, hClose', hOpen, hOpen', -⟩
        exact ⟨c, s, hCons, ⟨hSpace, hClose, hClose'⟩, hOpen, hOpen'⟩
  | double x => cases hPlain
  | str text => exact ⟨_, _, rfl, by unfold Opens; decide⟩
  | arr items => cases hArray
  | obj members => cases hObject

/- No text of a value begins with white space or a closing mark. -/
theorem Spells.eq_cons
    {j : Json}
    {s : Text}
    (hSpells : Spells j s)
    (hPlain : j.isPlain = true) :
    ∃ c t, s = c :: t ∧ Opens c := by
  cases hSpells with
  | scalar hObject hArray =>
      rcases scalar_eq_cons hPlain hObject hArray with
        ⟨c, t, hCons, hOpens, -, -⟩
      exact ⟨c, t, hCons, hOpens⟩
  | emptyArr hGap => exact ⟨_, _, rfl, by unfold Opens; decide⟩
  | arr hItems => exact ⟨_, _, rfl, by unfold Opens; decide⟩
  | emptyObj hGap => exact ⟨_, _, rfl, by unfold Opens; decide⟩
  | obj hMembers => exact ⟨_, _, rfl, by unfold Opens; decide⟩

/- Elements do not begin with the closing bracket. -/
theorem SpellsItems.afterByte?_eq_none
    {items : List Json}
    {s : Text}
    (hSpells : SpellsItems items s)
    (hPlain : arePlainItems items = true)
    (rest : Text) :
    afterByte? ']'.toUInt8 (s ++ rest) = none := by
  have hFirst :
      ∀ {j : Json} {gap s t : Text}, Gap gap → Spells j s →
        j.isPlain = true →
          afterByte? ']'.toUInt8 (gap ++ (s ++ t)) = none := by
    intro j gap s t hGap hValue hPlain
    rcases hValue.eq_cons hPlain with ⟨c, u, rfl, hOpens⟩
    rw [List.cons_append, afterByte?_append hGap hOpens.1,
      if_neg hOpens.2.1]
  cases hSpells with
  | last hGap hValue hGap' =>
      rw [arePlainItems, Bool.and_eq_true] at hPlain
      rw [List.append_assoc, List.append_assoc]
      exact hFirst hGap hValue hPlain.1
  | cons hGap hValue hGap' hItems =>
      rw [arePlainItems, Bool.and_eq_true] at hPlain
      rw [List.append_assoc, List.append_assoc]
      exact hFirst hGap hValue hPlain.1

/- Members do not begin with the closing brace. -/
theorem SpellsMembers.afterByte?_eq_none
    {members : List (Text × Json)}
    {s : Text}
    (hSpells : SpellsMembers members s)
    (rest : Text) :
    afterByte? '}'.toUInt8 (s ++ rest) = none := by
  cases hSpells with
  | last hGap hGap' hValue hGap'' =>
      rw [List.append_assoc, quote, List.cons_append,
        List.cons_append, afterByte?_append hGap (by decide),
        if_neg (by decide)]
  | cons hGap hGap' hValue hGap'' hMembers =>
      rw [List.append_assoc, quote, List.cons_append,
        List.cons_append, afterByte?_append hGap (by decide),
        if_neg (by decide)]

------------------------------------------------------------
-- Parts Of Values
------------------------------------------------------------

/- A scalar is read from its text. -/
theorem readScalar_append
    {j : Json}
    (hPlain : j.isPlain = true)
    (hObject : j.isObject = false)
    (hArray : j.isArray = false)
    {rest : Text}
    (hRest : EndsNumber rest) :
    readScalar (scalar j ++ rest) = some (j, rest) := by
  cases j with
  | null => rfl
  | bool b =>
      cases b with
      | true => rfl
      | false => rfl
  | int n =>
      have hNumber := readNumber_ofInt hPlain hRest
      rcases ofInt_eq_cons n with ⟨c, s, hCons, hFirst⟩
      have hQuote : c ≠ Text.doubleQuote := by
        rcases hFirst with hSign | hDigit
        · rw [hSign]
          decide
        · exact (opens_of_isDigit c hDigit).2.2.2.2.2
      have hStart :
          (decide (c = '-'.toUInt8) || Text.isDigit c) = true := by
        rw [Bool.or_eq_true, decide_eq_true_iff]
        exact hFirst
      rw [scalar]
      rw [hCons, List.cons_append] at hNumber ⊢
      unfold readScalar
      dsimp only
      rw [if_neg hQuote, if_pos hStart]
      exact hNumber
  | double x => cases hPlain
  | str text =>
      have hString := readString_quote hPlain rest
      rw [scalar, quote, List.cons_append, List.append_assoc]
      unfold readScalar
      dsimp only
      rw [if_pos rfl, List.singleton_append, hString]
      rfl
  | arr items => cases hArray
  | obj members => cases hObject

/- A key is read with the colon behind it. -/
theorem readKey_append
    {gap key : Text}
    (hGap : Gap gap)
    (hKey : Utf8.isValid key = true)
    (s : Text) :
    readKey (gap ++ (quote key ++ ':'.toUInt8 :: s)) =
      some (key, s) := by
  have hString := readString_quote hKey (':'.toUInt8 :: s)
  have hColon : afterByte? ':'.toUInt8 (':'.toUInt8 :: s) = some s := by
    rfl
  unfold readKey
  rw [quote, List.cons_append, List.append_assoc,
    afterByte?_append hGap (by decide), if_pos rfl]
  dsimp only [Option.bind_eq_bind, Option.bind_some]
  rw [List.singleton_append, hString]
  dsimp only [Option.bind_some]
  rw [hColon]
  rfl

end Json

namespace Dictionary

/- Behind all its keys, an entry is added at the end. -/
theorem insert_of_last
    {α : Type}
    {d : Dictionary α}
    {key : Text}
    (hLast : ∀ k a, (k, a) ∈ d → k < key)
    (a : α) :
    d.insert key a = d ++ [(key, a)] := by
  induction d with
  | nil => rfl
  | cons entry d ih =>
      rcases entry with ⟨k, b⟩
      have hLess : k < key := hLast k b List.mem_cons_self
      have hOther : key ≠ k := by
        intro hEq
        rw [hEq] at hLess
        exact List.lt_irrefl k hLess
      rw [insert, if_neg hOther, if_neg (List.lt_asymm hLess), ih]
      · rfl
      · intro l c hMember
        exact hLast l c (List.mem_cons_of_mem _ hMember)

end Dictionary

namespace Json

/- Members in order are all taken, as they stand. -/
theorem objectOf?_of_ordered
    {members : List (Text × Json)}
    (hOrdered : Dictionary.Ordered members) :
    objectOf? members = some (.obj members) := by
  have hFold :
      ∀ (d back : Dictionary Json), Dictionary.Ordered (d ++ back) →
        back.foldlM
            (fun (d : Dictionary Json) (m : Text × Json) =>
              if d.contains m.1 then none
              else some (d.insert m.1 m.2)) d =
          some (d ++ back) := by
    intro d back
    induction back generalizing d with
    | nil =>
        intro _
        rw [List.foldlM_nil, List.append_nil]
        rfl
    | cons m back ih =>
        rcases m with ⟨key, j⟩
        intro hAll
        have hLast : ∀ k a, (k, a) ∈ d → k < key := by
          intro k a hMember
          have hPairs := (List.pairwise_append.mp hAll).2.2
          exact hPairs (k, a) hMember (key, j) List.mem_cons_self
        have hAbsent : d.contains key = false := by
          rw [Dictionary.contains_eq_false_iff,
            Dictionary.get?_eq_none_iff]
          intro a hMember
          exact List.lt_irrefl key (hLast key a hMember)
        rw [List.foldlM_cons]
        dsimp only
        rw [hAbsent, Dictionary.insert_of_last hLast]
        have hRest := ih (d ++ [(key, j)])
        rw [List.append_assoc] at hRest
        exact hRest hAll
  unfold objectOf?
  rw [hFold [] members hOrdered]
  rfl

------------------------------------------------------------
-- Reading
------------------------------------------------------------

/- What stands behind a value does not go on with a number. -/
theorem endsNumber_append
    {gap : Text}
    (hGap : Gap gap)
    {c : UInt8}
    (hMark : c = ','.toUInt8 ∨ c = ']'.toUInt8 ∨ c = '}'.toUInt8)
    (s : Text) :
    EndsNumber (gap ++ c :: s) := by
  have hSpace :
      ∀ b : UInt8, isSpace b = true →
        Text.isDigit b = false ∧ b ≠ '.'.toUInt8 ∧
          b ≠ 'e'.toUInt8 ∧ b ≠ 'E'.toUInt8 := by
    apply Utf8.forall_byte
    decide +kernel
  intro b t hCons
  cases gap with
  | nil =>
      cases hCons
      rcases hMark with rfl | rfl | rfl
      all_goals decide
  | cons b' gap =>
      cases hCons
      exact hSpace b (hGap b List.mem_cons_self)

/- A value which is no container is read from its text. -/
theorem readValue_of_scalar
    {j : Json}
    (hObject : j.isObject = false)
    (hArray : j.isArray = false)
    {s : Text}
    (hSpells : Spells j s)
    (hPlain : j.isPlain = true)
    {rest : Text}
    (hRest : EndsNumber rest)
    {fuel : Nat}
    (hFuel : 2 * s.length ≤ fuel) :
    readValue fuel (s ++ rest) = some (j, rest) := by
  cases hSpells with
  | scalar _ _ =>
      have hRead := readScalar_append hPlain hObject hArray hRest
      rcases scalar_eq_cons hPlain hObject hArray with
        ⟨c, t, hCons, hOpens, hBracket, hBrace⟩
      rw [hCons, List.cons_append] at hRead ⊢
      rw [hCons, List.length_cons] at hFuel
      rcases fuel with _ | fuel
      · omega
      · rw [readValue, skipSpace_cons hOpens.1]
        dsimp only
        rw [if_neg hBracket, if_neg hBrace, hRead]
  | emptyArr hGap => cases hArray
  | arr hItems => cases hArray
  | emptyObj hGap => cases hObject
  | obj hMembers => cases hObject

/- How a value inside a container is read. -/
theorem readValue_between
    {j : Json}
    {s gap gap' : Text}
    {fuel : Nat}
    (hRead : ∀ rest, EndsNumber rest →
      readValue fuel (s ++ rest) = some (j, rest))
    (hGap : Gap gap)
    (hGap' : Gap gap')
    {c : UInt8}
    (hMark : c = ','.toUInt8 ∨ c = ']'.toUInt8 ∨ c = '}'.toUInt8)
    (rest : Text) :
    readValue fuel (gap ++ (s ++ (gap' ++ c :: rest))) =
      some (j, gap' ++ c :: rest) := by
  rw [readValue_append hGap]
  exact hRead _ (endsNumber_append hGap' hMark rest)

mutual

/- A text of a value is read as the value. -/
theorem readValue_of_spells :
    ∀ (j : Json) {s : Text}, Spells j s → j.isPlain = true →
      ∀ {fuel : Nat}, 2 * s.length ≤ fuel →
        ∀ rest, EndsNumber rest →
          readValue fuel (s ++ rest) = some (j, rest)
  | .arr items, _, hSpells, hPlain, fuel, hFuel, rest, _ => by
      rw [isPlain] at hPlain
      rcases fuel with _ | fuel
      · rcases hSpells.eq_cons hPlain with ⟨c, t, rfl, -⟩
        simp at hFuel
      cases hSpells with
      | scalar hObject hArray => cases hArray
      | emptyArr hGap =>
          rw [List.cons_append, readValue, skipSpace_cons (by decide)]
          dsimp only
          rw [if_pos rfl, List.append_assoc, List.singleton_append,
            afterByte?_append hGap (by decide), if_pos rfl]
      | arr hItems =>
          rw [List.length_cons] at hFuel
          have hRead :=
            readItems_of_spells items hItems hPlain
              (show _ ≤ fuel by omega) rest
          rw [List.cons_append, readValue, skipSpace_cons (by decide)]
          dsimp only
          rw [if_pos rfl, hItems.afterByte?_eq_none hPlain]
          dsimp only
          rw [hRead]
          rfl
  | .obj members, _, hSpells, hPlain, fuel, hFuel, rest, _ => by
      rcases fuel with _ | fuel
      · rcases hSpells.eq_cons hPlain with ⟨c, t, rfl, -⟩
        simp at hFuel
      rw [isPlain, Bool.and_eq_true, decide_eq_true_iff] at hPlain
      cases hSpells with
      | scalar hObject hArray => cases hObject
      | emptyObj hGap =>
          rw [List.cons_append, readValue, skipSpace_cons (by decide)]
          dsimp only
          rw [if_neg (by decide), if_pos rfl, List.append_assoc,
            List.singleton_append,
            afterByte?_append hGap (by decide), if_pos rfl]
      | obj hMembers =>
          rw [List.length_cons] at hFuel
          have hRead :=
            readMembers_of_spells members hMembers hPlain.2
              (show _ ≤ fuel by omega) rest
          rw [List.cons_append, readValue, skipSpace_cons (by decide)]
          dsimp only
          rw [if_neg (by decide), if_pos rfl,
            hMembers.afterByte?_eq_none]
          dsimp only
          rw [hRead]
          dsimp only [Option.bind_some]
          rw [objectOf?_of_ordered hPlain.1]
          rfl
  | .null, _, hSpells, hPlain, _, hFuel, _, hRest =>
      readValue_of_scalar rfl rfl hSpells hPlain hRest hFuel
  | .bool _, _, hSpells, hPlain, _, hFuel, _, hRest =>
      readValue_of_scalar rfl rfl hSpells hPlain hRest hFuel
  | .int _, _, hSpells, hPlain, _, hFuel, _, hRest =>
      readValue_of_scalar rfl rfl hSpells hPlain hRest hFuel
  | .double _, _, hSpells, hPlain, _, hFuel, _, hRest =>
      readValue_of_scalar rfl rfl hSpells hPlain hRest hFuel
  | .str _, _, hSpells, hPlain, _, hFuel, _, hRest =>
      readValue_of_scalar rfl rfl hSpells hPlain hRest hFuel
termination_by structural j => j

/- A text of some elements is read up to the closing bracket. -/
theorem readItems_of_spells :
    ∀ (items : List Json) {s : Text}, SpellsItems items s →
      arePlainItems items = true →
        ∀ {fuel : Nat}, 2 * s.length ≤ fuel →
          ∀ rest, readItems fuel (s ++ rest) = some (items, rest)
  | [], _, hSpells, _, _, _, _ => by
      cases hSpells
  | j :: items, _, hSpells, hPlain, fuel, hFuel, rest => by
      rw [arePlainItems, Bool.and_eq_true] at hPlain
      cases hSpells with
      | @last _ gap s gap' hGap hValue hGap' =>
          simp only [List.length_append, List.length_cons,
            List.length_nil] at hFuel
          rcases fuel with _ | fuel
          · omega
          have hRead :=
            readValue_of_spells j hValue hPlain.1
              (show _ ≤ fuel by omega)
          simp only [List.append_assoc, List.cons_append,
            List.nil_append]
          rw [readItems,
            readValue_between hRead hGap hGap' (by simp) rest]
          dsimp only
          rw [afterByte?_append hGap' (by decide), if_neg (by decide),
            afterByte?_append hGap' (by decide), if_pos rfl]
          rfl
      | @cons _ _ gap s gap' t hGap hValue hGap' hItems =>
          simp only [List.length_append, List.length_cons] at hFuel
          rcases fuel with _ | fuel
          · omega
          have hRead :=
            readValue_of_spells j hValue hPlain.1
              (show _ ≤ fuel by omega)
          have hRest :=
            readItems_of_spells items hItems hPlain.2
              (show _ ≤ fuel by omega) rest
          simp only [List.append_assoc, List.cons_append]
          rw [readItems,
            readValue_between hRead hGap hGap' (by simp)]
          dsimp only
          rw [afterByte?_append hGap' (by decide), if_pos rfl]
          dsimp only
          rw [hRest]
          rfl
termination_by structural items => items

/- A text of some members is read up to the closing brace. -/
theorem readMembers_of_spells :
    ∀ (members : List (Text × Json)) {s : Text},
      SpellsMembers members s → arePlainMembers members = true →
        ∀ {fuel : Nat}, 2 * s.length ≤ fuel →
          ∀ rest, readMembers fuel (s ++ rest) = some (members, rest)
  | [], _, hSpells, _, _, _, _ => by
      cases hSpells
  | (key, j) :: members, _, hSpells, hPlain, fuel, hFuel, rest => by
      rw [arePlainMembers, Bool.and_eq_true, Bool.and_eq_true]
        at hPlain
      rcases hPlain with ⟨⟨hKey, hPlain⟩, hOthers⟩
      cases hSpells with
      | @last _ _ gap gap' s gap'' hGap hGap' hValue hGap'' =>
          simp only [List.length_append, List.length_cons,
            List.length_nil] at hFuel
          rcases fuel with _ | fuel
          · omega
          have hRead :=
            readValue_of_spells j hValue hPlain
              (show _ ≤ fuel by omega)
          simp only [List.append_assoc, List.cons_append,
            List.nil_append]
          rw [readMembers, readKey_append hGap hKey]
          dsimp only
          rw [readValue_between hRead hGap' hGap'' (by simp) rest]
          dsimp only
          rw [afterByte?_append hGap'' (by decide),
            if_neg (by decide),
            afterByte?_append hGap'' (by decide), if_pos rfl]
          rfl
      | @cons _ _ _ gap gap' s gap'' t hGap hGap' hValue hGap''
          hMembers =>
          simp only [List.length_append, List.length_cons] at hFuel
          rcases fuel with _ | fuel
          · omega
          have hRead :=
            readValue_of_spells j hValue hPlain
              (show _ ≤ fuel by omega)
          have hRest :=
            readMembers_of_spells members hMembers hOthers
              (show _ ≤ fuel by omega) rest
          simp only [List.append_assoc, List.cons_append]
          rw [readMembers, readKey_append hGap hKey]
          dsimp only
          rw [readValue_between hRead hGap' hGap'' (by simp)]
          dsimp only
          rw [afterByte?_append hGap'' (by decide), if_pos rfl]
          dsimp only
          rw [hRest]
          rfl
termination_by structural members => members

end

/- No text spells two values. -/
theorem Spells.unique
    {i j : Json}
    {s : Text}
    (hFirst : Spells i s)
    (hSecond : Spells j s)
    (hPlain : i.isPlain = true)
    (hPlain' : j.isPlain = true) :
    i = j := by
  have hEnds : EndsNumber [] := by
    intro c t hCons
    cases hCons
  have hRead :=
    readValue_of_spells i hFirst hPlain (Nat.le_refl _) [] hEnds
  have hRead' :=
    readValue_of_spells j hSecond hPlain' (Nat.le_refl _) [] hEnds
  rw [hRead] at hRead'
  exact congrArg Prod.fst (Option.some.inj hRead')

------------------------------------------------------------
-- The Compact Form
------------------------------------------------------------

theorem gap_nil :
    Gap [] := by
  intro b hMember
  cases hMember

mutual

/- The compact form is a text of its value, without any gaps. -/
theorem spells_compact :
    ∀ j : Json, Spells j j.compact
  | .arr [] => Spells.emptyArr gap_nil
  | .arr (j :: items) => by
      rw [compact]
      exact Spells.arr
        (spellsItems_compact items j (spells_compact j))
  | .obj [] => Spells.emptyObj gap_nil
  | .obj ((key, j) :: members) => by
      rw [compact]
      exact Spells.obj
        (spellsMembers_compact members key j (spells_compact j))
  | .null => Spells.scalar rfl rfl
  | .bool _ => Spells.scalar rfl rfl
  | .int _ => Spells.scalar rfl rfl
  | .double _ => Spells.scalar rfl rfl
  | .str _ => Spells.scalar rfl rfl
termination_by structural j => j

theorem spellsItems_compact :
    ∀ (items : List Json) (j : Json), Spells j j.compact →
      SpellsItems (j :: items) (j.compact ++ compactItems items)
  | [], _, hFirst => SpellsItems.last gap_nil hFirst gap_nil
  | i :: items, _, hFirst => by
      rw [compactItems]
      exact SpellsItems.cons gap_nil hFirst gap_nil
        (spellsItems_compact items i (spells_compact i))
termination_by structural items => items

theorem spellsMembers_compact :
    ∀ (members : List (Text × Json)) (key : Text) (j : Json),
      Spells j j.compact →
        SpellsMembers ((key, j) :: members)
          (quote key ++
            ':'.toUInt8 :: (j.compact ++ compactMembers members))
  | [], _, _, hFirst =>
      SpellsMembers.last gap_nil gap_nil hFirst gap_nil
  | (key', i) :: members, _, _, hFirst => by
      rw [compactMembers]
      exact SpellsMembers.cons gap_nil gap_nil hFirst gap_nil
        (spellsMembers_compact members key' i (spells_compact i))
termination_by structural members => members

end

/- Plain values with one compact form are the same. -/
theorem compact_injective
    {i j : Json}
    (hPlain : i.isPlain = true)
    (hPlain' : j.isPlain = true)
    (hEq : i.compact = j.compact) :
    i = j := by
  have hSecond := spells_compact j
  rw [← hEq] at hSecond
  exact (spells_compact i).unique hSecond hPlain hPlain'

end Json

end ContractLinker
