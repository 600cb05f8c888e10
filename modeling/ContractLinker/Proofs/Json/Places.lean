import ContractLinker.Proofs.Json.Decoding

/-
  Places inside of values. A place is the way from a value to
  one inside it, by positions in arrays and by keys. Places
  are in the order in which a document is gone through: a
  value before what is inside it, elements by position and
  members by key. The objects of a value are listed in that
  order, each with its place.

  Key definitions include:
    * `Json.Place`
    * `Json.Place.Before`
    * `Json.at?`
    * `Json.put`
    * `Json.objects`

  Main statements:
    * `Json.mem_objects_iff`
    * `Json.pairwise_objects`
-/

------------------------------------------------------------
-- Places
------------------------------------------------------------

namespace ContractLinker

namespace Json

/- A step from a value to one inside it. -/
inductive Step where
  | item (position : Nat)
  | member (key : Text)
deriving DecidableEq

/- The way to a value, the outermost step first. -/
abbrev Place :=
  List Step

/- Elements by position and members by key. -/
inductive Step.Before : Step → Step → Prop where
  | item {i j : Nat}
      (hLess : i < j) :
      Before (.item i) (.item j)
  | member {k l : Text}
      (hLess : k < l) :
      Before (.member k) (.member l)

/- A value before those inside it, and these in their order. -/
def Place.Before (p q : Place) : Prop :=
  List.Lex Step.Before p q

/- The value at a place, if there is one. -/
def at? : Place → Json → Option Json
  | [], j => some j
  | .item i :: rest, .arr items => items[i]?.bind (at? rest)
  | .member key :: rest, .obj members =>
      (Dictionary.get? key members).bind (at? rest)
  | _ :: _, _ => none

/- Put a value in the place of another one. -/
def put (value : Json) : Place → Json → Json
  | [], _ => value
  | .item i :: rest, .arr items =>
      .arr (items.modify i (put value rest))
  | .member key :: rest, .obj members =>
      .obj
        (Dictionary.mapValues
          (fun k j => if k = key then put value rest j else j)
          members)
  | _ :: _, j => j

------------------------------------------------------------
-- Objects
------------------------------------------------------------

/- The values of a list with their places behind a step. -/
def behind (step : Step) (found : List (Place × Json)) :
    List (Place × Json) :=
  found.map fun entry => (step :: entry.1, entry.2)

mutual

/- The objects of a value, itself included, with their places. -/
def objects : Json → List (Place × Json)
  | .arr items => itemObjects 0 items
  | .obj members => ([], .obj members) :: memberObjects members
  | .null | .bool _ | .int _ | .double _ | .str _ => []
termination_by structural j => j

/- The objects of some elements, from a position on. -/
def itemObjects (position : Nat) :
    List Json → List (Place × Json)
  | [] => []
  | j :: items =>
      behind (.item position) (objects j) ++
        itemObjects (position + 1) items
termination_by structural items => items

/- The objects of some members. -/
def memberObjects : List (Text × Json) → List (Place × Json)
  | [] => []
  | (key, j) :: members =>
      behind (.member key) (objects j) ++ memberObjects members
termination_by structural members => members

end

theorem mem_behind_iff
    {step : Step}
    {found : List (Place × Json)}
    {place : Place}
    {j : Json} :
    (place, j) ∈ behind step found ↔
      ∃ rest, place = step :: rest ∧ (rest, j) ∈ found := by
  unfold behind
  rw [List.mem_map]
  constructor
  · rintro ⟨⟨rest, i⟩, hMember, hEq⟩
    cases hEq
    exact ⟨rest, rfl, hMember⟩
  · rintro ⟨rest, rfl, hMember⟩
    exact ⟨(rest, j), hMember, rfl⟩

@[simp] theorem map_snd_behind
    (step : Step)
    (found : List (Place × Json)) :
    (behind step found).map Prod.snd = found.map Prod.snd := by
  unfold behind
  rw [List.map_map]
  rfl

theorem mem_itemObjects_iff
    {items : List Json}
    {position : Nat}
    {place : Place}
    {j : Json} :
    (place, j) ∈ itemObjects position items ↔
      ∃ i value rest, place = .item (position + i) :: rest ∧
        items[i]? = some value ∧ (rest, j) ∈ value.objects := by
  induction items generalizing position with
  | nil =>
      simp [itemObjects]
  | cons value items ih =>
      rw [itemObjects, List.mem_append, mem_behind_iff, ih]
      constructor
      · rintro (⟨rest, rfl, hMember⟩ |
          ⟨i, value', rest, rfl, hItem⟩)
        · exact ⟨0, value, rest, rfl, rfl, hMember⟩
        · refine ⟨i + 1, value', rest, ?_, hItem⟩
          rw [Nat.add_assoc, Nat.add_comm 1 i]
      · rintro ⟨i, value', rest, rfl, hItem, hMember⟩
        cases i with
        | zero =>
            cases hItem
            exact Or.inl ⟨rest, rfl, hMember⟩
        | succ i =>
            refine Or.inr ⟨i, value', rest, ?_, hItem, hMember⟩
            rw [Nat.add_assoc, Nat.add_comm 1 i]

theorem mem_memberObjects_iff
    {members : List (Text × Json)}
    {place : Place}
    {j : Json} :
    (place, j) ∈ memberObjects members ↔
      ∃ key value rest, place = .member key :: rest ∧
        (key, value) ∈ members ∧ (rest, j) ∈ value.objects := by
  induction members with
  | nil =>
      simp [memberObjects]
  | cons m members ih =>
      rcases m with ⟨key, value⟩
      rw [memberObjects, List.mem_append, mem_behind_iff, ih]
      constructor
      · rintro (⟨rest, rfl, hMember⟩ |
          ⟨key', value', rest, rfl, hEntry, hMember⟩)
        · exact ⟨key, value, rest, rfl, List.mem_cons_self, hMember⟩
        · exact ⟨key', value', rest, rfl,
            List.mem_cons_of_mem _ hEntry, hMember⟩
      · rintro ⟨key', value', rest, rfl, hEntry, hMember⟩
        rcases List.mem_cons.mp hEntry with hEq | hRest
        · cases hEq
          exact Or.inl ⟨rest, rfl, hMember⟩
        · exact Or.inr ⟨key', value', rest, rfl, hRest, hMember⟩

theorem areOrderedItems_iff
    {items : List Json} :
    areOrderedItems items = true ↔
      ∀ j ∈ items, j.isOrdered = true := by
  induction items with
  | nil => simp [areOrderedItems]
  | cons j items ih =>
      rw [areOrderedItems, Bool.and_eq_true, ih, List.forall_mem_cons]

/- A value is listed with no steps just if it is an object. -/
theorem nil_mem_objects_iff
    {j node : Json} :
    ([], node) ∈ j.objects ↔ j = node ∧ node.isObject = true := by
  constructor
  · intro hMember
    cases j with
    | arr items =>
        rcases mem_itemObjects_iff.mp hMember with
          ⟨i, value, rest, hPlace, -⟩
        cases hPlace
    | obj members =>
        rcases List.mem_cons.mp hMember with hEq | hInside
        · cases hEq
          exact ⟨rfl, rfl⟩
        · rcases mem_memberObjects_iff.mp hInside with
            ⟨key, value, rest, hPlace, -⟩
          cases hPlace
    | null | bool _ | int _ | double _ | str _ =>
        cases hMember
  · rintro ⟨rfl, hObject⟩
    cases j with
    | obj members => exact List.mem_cons_self
    | null | bool _ | int _ | double _ | str _ | arr _ =>
        cases hObject

/- The objects which are listed are those found at their places. -/
theorem mem_objects_iff
    {j : Json}
    (hOrdered : j.isOrdered = true)
    {place : Place}
    {node : Json} :
    (place, node) ∈ j.objects ↔
      j.at? place = some node ∧ node.isObject = true := by
  induction place generalizing j with
  | nil =>
      rw [nil_mem_objects_iff, at?, Option.some_inj]
  | cons step rest ih =>
      cases j with
      | arr items =>
          rw [isOrdered, areOrderedItems_iff] at hOrdered
          rw [objects, mem_itemObjects_iff]
          cases step with
          | member key => simp [at?]
          | item i =>
              rw [at?]
              constructor
              · rintro ⟨i, value, rest, hPlace, hItem, hMember⟩
                cases hPlace
                rw [Nat.zero_add, hItem]
                exact (ih (hOrdered _
                  (List.mem_of_getElem? hItem))).mp hMember
              · rintro ⟨hPlace, hObject⟩
                rcases Option.bind_eq_some_iff.mp hPlace with
                  ⟨value, hItem, hRest⟩
                have hMember :=
                  (ih (hOrdered _ (List.mem_of_getElem? hItem))).mpr
                    ⟨hRest, hObject⟩
                exact ⟨i, value, rest, by rw [Nat.zero_add], hItem,
                  hMember⟩
      | obj members =>
          have hKeys := ordered_of_isOrdered hOrdered
          rw [objects, List.mem_cons, or_iff_right (by simp),
            mem_memberObjects_iff]
          cases step with
          | item i => simp [at?]
          | member key =>
              rw [at?]
              constructor
              · rintro ⟨key, value, rest, hPlace, hEntry, hMember⟩
                cases hPlace
                rw [(Dictionary.get?_eq_some_iff hKeys).mpr hEntry]
                exact (ih (isOrdered_of_mem hOrdered hEntry)).mp
                  hMember
              · rintro ⟨hPlace, hObject⟩
                rcases Option.bind_eq_some_iff.mp hPlace with
                  ⟨value, hGet, hRest⟩
                have hEntry :=
                  (Dictionary.get?_eq_some_iff hKeys).mp hGet
                have hMember :=
                  (ih (isOrdered_of_mem hOrdered hEntry)).mpr
                    ⟨hRest, hObject⟩
                exact ⟨key, value, rest, rfl, hEntry, hMember⟩
      | null | bool _ | int _ | double _ | str _ =>
          simp [objects, at?]

------------------------------------------------------------
-- Order
------------------------------------------------------------

/- Behind one step, places are in the order in which they were. -/
theorem pairwise_behind
    (step : Step)
    {found : List (Place × Json)}
    (hFound : found.Pairwise fun x y => x.1.Before y.1) :
    (behind step found).Pairwise fun x y => x.1.Before y.1 := by
  unfold behind
  rw [List.pairwise_map]
  exact hFound.imp List.Lex.cons

mutual

/- The objects of a value are listed in the order of their places. -/
theorem pairwise_objects :
    ∀ j : Json, j.isOrdered = true →
      j.objects.Pairwise fun x y => x.1.Before y.1
  | .arr items, hOrdered => by
      rw [isOrdered] at hOrdered
      rw [objects]
      exact pairwise_itemObjects items hOrdered 0
  | .obj members, hOrdered => by
      rw [objects, List.pairwise_cons]
      constructor
      · rintro ⟨place, node⟩ hMember
        rcases mem_memberObjects_iff.mp hMember with
          ⟨key, value, rest, rfl, -, -⟩
        exact List.Lex.nil
      · exact pairwise_memberObjects members
          (ordered_of_isOrdered hOrdered)
          (areOrderedMembers_of_isOrdered hOrdered)
  | .null, _ => List.Pairwise.nil
  | .bool _, _ => List.Pairwise.nil
  | .int _, _ => List.Pairwise.nil
  | .double _, _ => List.Pairwise.nil
  | .str _, _ => List.Pairwise.nil
termination_by structural j => j

theorem pairwise_itemObjects :
    ∀ items : List Json, areOrderedItems items = true →
      ∀ position,
        (itemObjects position items).Pairwise fun x y =>
          x.1.Before y.1
  | [], _, _ => List.Pairwise.nil
  | j :: items, hOrdered, position => by
      rw [areOrderedItems, Bool.and_eq_true] at hOrdered
      rw [itemObjects, List.pairwise_append]
      refine ⟨pairwise_behind _ (pairwise_objects j hOrdered.1),
        pairwise_itemObjects items hOrdered.2 (position + 1), ?_⟩
      rintro ⟨place, node⟩ hFirst ⟨place', node'⟩ hSecond
      rcases mem_behind_iff.mp hFirst with ⟨rest, rfl, -⟩
      rcases mem_itemObjects_iff.mp hSecond with
        ⟨i, value, rest', rfl, -, -⟩
      exact List.Lex.rel (Step.Before.item (by omega))
termination_by structural items => items

theorem pairwise_memberObjects :
    ∀ members : List (Text × Json), Dictionary.Ordered members →
      areOrderedMembers members = true →
        (memberObjects members).Pairwise fun x y =>
          x.1.Before y.1
  | [], _, _ => List.Pairwise.nil
  | (key, j) :: members, hKeys, hOrdered => by
      rw [areOrderedMembers, Bool.and_eq_true] at hOrdered
      rw [Dictionary.ordered_cons] at hKeys
      rw [memberObjects, List.pairwise_append]
      refine ⟨pairwise_behind _ (pairwise_objects j hOrdered.1),
        pairwise_memberObjects members hKeys.2 hOrdered.2, ?_⟩
      rintro ⟨place, node⟩ hFirst ⟨place', node'⟩ hSecond
      rcases mem_behind_iff.mp hFirst with ⟨rest, rfl, -⟩
      rcases mem_memberObjects_iff.mp hSecond with
        ⟨key', value, rest', rfl, hEntry, -⟩
      exact List.Lex.rel (Step.Before.member (hKeys.1 _ hEntry))
termination_by structural members => members

end

end Json

end ContractLinker
