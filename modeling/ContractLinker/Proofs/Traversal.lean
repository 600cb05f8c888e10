import ContractLinker.Proofs.Json.Decoding
import Mathlib.Data.List.Forall2

/-
  Steps taken for the elements of a list one after another,
  each of which may fail. They succeed together if each one
  does, and they fail with the first one that does not.

  Main statements:
    * `exists_split_of_forall₂`
    * `exists_forall₂_iff`
    * `mapM_eq_ok_iff`
    * `mapM_eq_error_iff`
-/

namespace ContractLinker

variable {α β ε : Type}

------------------------------------------------------------
-- Lists Side By Side
------------------------------------------------------------

/- A list is split where a list beside it is. -/
theorem exists_split_of_forall₂
    {relation : α → β → Prop}
    {xs : List α}
    {front back : List β}
    {y : β}
    (hRelated : List.Forall₂ relation xs (front ++ y :: back)) :
    ∃ front' x back', xs = front' ++ x :: back' ∧
      List.Forall₂ relation front' front ∧ relation x y ∧
      List.Forall₂ relation back' back := by
  induction front generalizing xs with
  | nil =>
      rcases List.forall₂_cons_right_iff.mp hRelated with
        ⟨x, back', hHead, hBack, rfl⟩
      exact ⟨[], x, back', rfl, List.Forall₂.nil, hHead, hBack⟩
  | cons z front ih =>
      rcases List.forall₂_cons_right_iff.mp hRelated with
        ⟨w, rest, hHead, hRest, rfl⟩
      rcases ih hRest with ⟨front', x, back', rfl, hFront, hSplit⟩
      exact ⟨w :: front', x, back', rfl,
        List.Forall₂.cons hHead hFront, hSplit⟩

/- Every element on the right has a partner on the left. -/
theorem exists_left_of_forall₂
    {relation : α → β → Prop}
    {xs : List α}
    {ys : List β}
    (hRelated : List.Forall₂ relation xs ys)
    {y : β}
    (hMember : y ∈ ys) :
    ∃ x ∈ xs, relation x y := by
  rcases List.append_of_mem hMember with ⟨front, back, rfl⟩
  rcases exists_split_of_forall₂ hRelated with
    ⟨front', x, back', rfl, -, hPartner, -⟩
  exact ⟨x, by simp, hPartner⟩

/- Every element on the left has a partner on the right. -/
theorem exists_right_of_forall₂
    {relation : α → β → Prop}
    {xs : List α}
    {ys : List β}
    (hRelated : List.Forall₂ relation xs ys)
    {x : α}
    (hMember : x ∈ xs) :
    ∃ y ∈ ys, relation x y :=
  exists_left_of_forall₂ hRelated.flip hMember

/- A list has partners beside it if every element has one. -/
theorem exists_forall₂_iff
    {relation : α → β → Prop}
    {xs : List α} :
    (∃ ys, List.Forall₂ relation xs ys) ↔
      ∀ x ∈ xs, ∃ y, relation x y := by
  constructor
  · rintro ⟨ys, hRelated⟩ x hMember
    rcases exists_right_of_forall₂ hRelated hMember with
      ⟨y, -, hPartner⟩
    exact ⟨y, hPartner⟩
  · intro hAll
    induction xs with
    | nil =>
        exact ⟨[], List.Forall₂.nil⟩
    | cons x xs ih =>
        rw [List.forall_mem_cons] at hAll
        rcases hAll.1 with ⟨y, hHead⟩
        rcases ih hAll.2 with ⟨ys, hTail⟩
        exact ⟨y :: ys, List.Forall₂.cons hHead hTail⟩

------------------------------------------------------------
-- Steps
------------------------------------------------------------

/- A step fails just if it does not succeed. -/
theorem exists_error_iff
    {x : Except ε α} :
    (∃ e, x = .error e) ↔ ¬ ∃ a, x = .ok a := by
  cases x with
  | error e => simp
  | ok a => simp

/- Steps succeed just if each of them does, with its own result. -/
theorem mapM_eq_ok_iff
    {f : α → Except ε β}
    {items : List α}
    {results : List β} :
    items.mapM f = .ok results ↔
      List.Forall₂ (fun a b => f a = .ok b) items results := by
  induction items generalizing results with
  | nil =>
      rw [List.mapM_nil, List.forall₂_nil_left_iff]
      constructor
      · intro hEq
        cases hEq
        rfl
      · rintro rfl
        rfl
  | cons a items ih =>
      rw [List.mapM_cons, bind_eq_ok_iff, List.forall₂_cons_left_iff]
      apply exists_congr
      intro b
      rw [bind_eq_ok_iff]
      constructor
      · rintro ⟨hHead, rest, hRest, hEq⟩
        cases hEq
        exact ⟨rest, hHead, ih.mp hRest, rfl⟩
      · rintro ⟨rest, hHead, hRest, rfl⟩
        exact ⟨hHead, rest, ih.mpr hRest, rfl⟩

/- Steps fail just with the first one which fails. -/
theorem mapM_eq_error_iff
    {f : α → Except ε β}
    {items : List α}
    {e : ε} :
    items.mapM f = .error e ↔
      ∃ front a back, items = front ++ a :: back ∧
        (∀ x ∈ front, ∃ b, f x = .ok b) ∧ f a = .error e := by
  induction items with
  | nil =>
      constructor
      · intro hEq
        cases hEq
      · rintro ⟨front, a, back, hItems, -⟩
        simp at hItems
  | cons x items ih =>
      rw [List.mapM_cons]
      cases hHead : f x with
      | error e' =>
          constructor
          · intro hEq
            cases hEq
            exact ⟨[], x, items, rfl, by simp, hHead⟩
          · rintro ⟨front, a, back, hItems, hFront, hFails⟩
            cases front with
            | nil =>
                cases hItems
                rw [hHead] at hFails
                cases hFails
                rfl
            | cons y front =>
                cases hItems
                rcases hFront x List.mem_cons_self with ⟨b, hPasses⟩
                rw [hHead] at hPasses
                cases hPasses
      | ok b =>
          have hRest :
              (do
                  let b ← (Except.ok b : Except ε β)
                  let rest ← items.mapM f
                  pure (b :: rest)) = .error e ↔
                items.mapM f = .error e := by
            cases hTail : items.mapM f with
            | error e' => simp [bind, Except.bind]
            | ok rest => simp [bind, Except.bind, pure, Except.pure]
          rw [hRest, ih]
          constructor
          · rintro ⟨front, a, back, rfl, hFront, hFails⟩
            refine ⟨x :: front, a, back, rfl, ?_, hFails⟩
            rw [List.forall_mem_cons]
            exact ⟨⟨b, hHead⟩, hFront⟩
          · rintro ⟨front, a, back, hItems, hFront, hFails⟩
            cases front with
            | nil =>
                cases hItems
                rw [hHead] at hFails
                cases hFails
            | cons y front =>
                cases hItems
                exact ⟨front, a, back, rfl,
                  (List.forall_mem_cons.mp hFront).2, hFails⟩

end ContractLinker
