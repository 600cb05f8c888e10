import ContractLinker.Json.Reader
import ContractLinker.Proofs.Json.Decoding

/-
  Values which are read from a text. The reader puts the
  members of every object in key order, so that a value it
  reads is in order at every depth.

  Main statements:
    * `Json.isOrdered_of_objectOf?`
    * `Json.isOrdered_of_readValue`
    * `Json.isOrdered_of_parse?`
-/

------------------------------------------------------------
-- Objects
------------------------------------------------------------

namespace ContractLinker

namespace Json

/- An object is in order if its keys and all its values are. -/
theorem isOrdered_obj_iff
    {members : List (Text × Json)} :
    (Json.obj members).isOrdered = true ↔
      Dictionary.Ordered members ∧
        ∀ key j, (key, j) ∈ members → j.isOrdered = true := by
  rw [isOrdered, Bool.and_eq_true, decide_eq_true_iff,
    areOrderedMembers_iff]

/- Adding members one by one keeps an object in order. -/
theorem isOrdered_of_foldlM
    {members : List (Text × Json)}
    (hValues : areOrderedMembers members = true)
    {d d' : Dictionary Json}
    (hBefore : (Json.obj d).isOrdered = true)
    (hFold :
      members.foldlM
        (fun (d : Dictionary Json) (m : Text × Json) =>
          if d.contains m.1 then none else some (d.insert m.1 m.2))
        d = some d') :
    (Json.obj d').isOrdered = true := by
  induction members generalizing d with
  | nil =>
      cases hFold
      exact hBefore
  | cons member members ih =>
      rcases member with ⟨key, j⟩
      rw [areOrderedMembers, Bool.and_eq_true] at hValues
      rw [List.foldlM_cons] at hFold
      rcases Option.bind_eq_some_iff.mp hFold with
        ⟨next, hStep, hRest⟩
      refine ih hValues.2 ?_ hRest
      dsimp only at hStep
      split at hStep
      · cases hStep
      · cases hStep
        rw [isOrdered_obj_iff] at hBefore ⊢
        refine ⟨Dictionary.ordered_insert hBefore.1 key j, ?_⟩
        intro other i hMember
        rcases Dictionary.mem_insert hMember with hNew | hOld
        · cases hNew
          exact hValues.1
        · exact hBefore.2 other i hOld

theorem isOrdered_of_objectOf?
    {members : List (Text × Json)}
    (hValues : areOrderedMembers members = true)
    {j : Json}
    (hObject : objectOf? members = some j) :
    j.isOrdered = true := by
  rcases Option.map_eq_some_iff.mp hObject with ⟨d, hFold, rfl⟩
  exact isOrdered_of_foldlM hValues rfl hFold

------------------------------------------------------------
-- Values
------------------------------------------------------------

theorem isOrdered_numberOf
    (negative : Bool)
    (whole : Text)
    (fraction : Option Text)
    (exponent : Option Int) :
    (numberOf negative whole fraction exponent).isOrdered = true := by
  unfold numberOf
  dsimp only
  split <;> split <;> rfl

theorem isOrdered_of_readNumber
    {s rest : Text}
    {j : Json}
    (hRead : readNumber s = some (j, rest)) :
    j.isOrdered = true := by
  unfold readNumber at hRead
  dsimp only at hRead
  rcases Option.bind_eq_some_iff.mp hRead with ⟨_, -, hRead⟩
  rcases Option.bind_eq_some_iff.mp hRead with ⟨_, -, hRead⟩
  rcases Option.bind_eq_some_iff.mp hRead with ⟨_, -, hEq⟩
  cases hEq
  exact isOrdered_numberOf _ _ _ _

/- Values which are no containers have no keys. -/
theorem isOrdered_of_readScalar
    {s rest : Text}
    {j : Json}
    (hRead : readScalar s = some (j, rest)) :
    j.isOrdered = true := by
  unfold readScalar at hRead
  split at hRead
  · cases hRead
  · split at hRead
    · rcases Option.map_eq_some_iff.mp hRead with ⟨_, -, hEq⟩
      cases hEq
      rfl
    · split at hRead
      · exact isOrdered_of_readNumber hRead
      · split at hRead
        · cases hRead
          rfl
        · split at hRead
          · cases hRead
            rfl
          · rcases Option.map_eq_some_iff.mp hRead with ⟨_, -, hEq⟩
            cases hEq
            rfl

mutual

/- What is read as a value is in order. -/
theorem isOrdered_of_readValue :
    ∀ (fuel : Nat) {s rest : Text} {j : Json},
      readValue fuel s = some (j, rest) → j.isOrdered = true
  | 0, _, _, _, hRead => by
      cases hRead
  | fuel + 1, s, rest, j, hRead => by
      rw [readValue] at hRead
      split at hRead
      · cases hRead
      · next c t _ =>
          split at hRead
          · split at hRead
            · cases hRead
              rfl
            · rcases Option.map_eq_some_iff.mp hRead with
                ⟨⟨items, after⟩, hItems, hEq⟩
              cases hEq
              rw [isOrdered]
              exact areOrdered_of_readItems fuel hItems
          · split at hRead
            · split at hRead
              · cases hRead
                rfl
              · rcases Option.bind_eq_some_iff.mp hRead with
                  ⟨⟨members, after⟩, hMembers, hObject⟩
                rcases Option.map_eq_some_iff.mp hObject with
                  ⟨i, hFound, hEq⟩
                cases hEq
                exact isOrdered_of_objectOf?
                  (areOrdered_of_readMembers fuel hMembers) hFound
            · exact isOrdered_of_readScalar hRead
termination_by structural fuel => fuel

theorem areOrdered_of_readItems :
    ∀ (fuel : Nat) {s rest : Text} {items : List Json},
      readItems fuel s = some (items, rest) →
        areOrderedItems items = true
  | 0, _, _, _, hRead => by
      cases hRead
  | fuel + 1, s, rest, items, hRead => by
      rw [readItems] at hRead
      split at hRead
      · cases hRead
      · next j t hValue =>
          have hHead := isOrdered_of_readValue fuel hValue
          split at hRead
          · rcases Option.map_eq_some_iff.mp hRead with
              ⟨⟨others, after⟩, hItems, hEq⟩
            cases hEq
            rw [areOrderedItems, Bool.and_eq_true]
            exact ⟨hHead, areOrdered_of_readItems fuel hItems⟩
          · rcases Option.map_eq_some_iff.mp hRead with
              ⟨after, -, hEq⟩
            cases hEq
            rw [areOrderedItems, Bool.and_eq_true]
            exact ⟨hHead, rfl⟩
termination_by structural fuel => fuel

theorem areOrdered_of_readMembers :
    ∀ (fuel : Nat) {s rest : Text} {members : List (Text × Json)},
      readMembers fuel s = some (members, rest) →
        areOrderedMembers members = true
  | 0, _, _, _, hRead => by
      cases hRead
  | fuel + 1, s, rest, members, hRead => by
      rw [readMembers] at hRead
      split at hRead
      · cases hRead
      · next key t _ =>
          split at hRead
          · cases hRead
          · next j t' hValue =>
              have hHead := isOrdered_of_readValue fuel hValue
              split at hRead
              · rcases Option.map_eq_some_iff.mp hRead with
                  ⟨⟨others, after⟩, hMembers, hEq⟩
                cases hEq
                rw [areOrderedMembers, Bool.and_eq_true]
                exact ⟨hHead, areOrdered_of_readMembers fuel hMembers⟩
              · rcases Option.map_eq_some_iff.mp hRead with
                  ⟨after, -, hEq⟩
                cases hEq
                rw [areOrderedMembers, Bool.and_eq_true]
                exact ⟨hHead, rfl⟩
termination_by structural fuel => fuel

end

/- The value of a document is in order. -/
theorem isOrdered_of_parse?
    {s : Text}
    {j : Json}
    (hParse : parse? s = some j) :
    j.isOrdered = true := by
  rcases Option.bind_eq_some_iff.mp hParse with
    ⟨⟨i, rest⟩, hRead, hWhole⟩
  dsimp only at hWhole
  split at hWhole
  · cases hWhole
    exact isOrdered_of_readValue _ hRead
  · cases hWhole

end Json

end ContractLinker
