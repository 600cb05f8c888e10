import ContractLinker.Dictionary

/-
  What dictionaries and sets of texts hold. Lookup is the
  view of a dictionary: every operation is described by what
  is found under a key afterwards. A loop over a dictionary
  whose steps carry no state either changes every value or
  stops at the first entry which fails.

  Main statements:
    * `Text.lt_or_eq_or_lt`
    * `Dictionary.get?_eq_some_iff`
    * `Dictionary.get?_insert`
    * `Dictionary.get?_insertNew`
    * `Dictionary.get?_ofList`
    * `Dictionary.get?_mapValues`
    * `Dictionary.holds_of_advance`
    * `Dictionary.advance_mapValues`
    * `Dictionary.advance_cases`
    * `TextSet.mem_union`
    * `TextSet.union_of_subset`
-/

------------------------------------------------------------
-- Order Of Texts
------------------------------------------------------------

namespace ContractLinker

namespace Text

/- Two texts are equal or one of them comes first. -/
theorem lt_or_eq_or_lt
    (s t : Text) :
    s < t ∨ s = t ∨ t < s := by
  by_cases hLess : s < t
  · exact Or.inl hLess
  · by_cases hMore : t < s
    · exact Or.inr (Or.inr hMore)
    · exact Or.inr (Or.inl (List.le_antisymm hMore hLess))

end Text

------------------------------------------------------------
-- Lookup
------------------------------------------------------------

namespace Dictionary

variable {α β σ ε : Type}

@[simp] theorem get?_nil
    (key : Text) :
    get? key ([] : Dictionary α) = none := by
  rfl

theorem get?_cons
    (key k : Text)
    (a : α)
    (d : Dictionary α) :
    get? key ((k, a) :: d) =
      if k = key then some a else get? key d := by
  rfl

/- What is found under a key is an entry. -/
theorem mem_of_get?
    {d : Dictionary α}
    {key : Text}
    {a : α}
    (hFound : get? key d = some a) :
    (key, a) ∈ d := by
  induction d with
  | nil =>
      simp at hFound
  | cons entry d ih =>
      rcases entry with ⟨k, b⟩
      rw [get?_cons] at hFound
      by_cases hKey : k = key
      · rw [if_pos hKey] at hFound
        cases hFound
        simp [hKey]
      · rw [if_neg hKey] at hFound
        exact List.mem_cons_of_mem _ (ih hFound)

/- A key without a value has no entry. -/
theorem get?_eq_none_iff
    {d : Dictionary α}
    {key : Text} :
    get? key d = none ↔ ∀ a, (key, a) ∉ d := by
  induction d with
  | nil =>
      simp
  | cons entry d ih =>
      rcases entry with ⟨k, b⟩
      rw [get?_cons]
      by_cases hKey : k = key
      · rw [if_pos hKey]
        constructor
        · intro hNone
          cases hNone
        · intro hAbsent
          exact absurd (by simp [hKey]) (hAbsent b)
      · rw [if_neg hKey, ih]
        simp [Ne.symm hKey]

theorem contains_eq_false_iff
    {d : Dictionary α}
    {key : Text} :
    d.contains key = false ↔ get? key d = none := by
  simp [contains]

/- If keys are not repeated, every entry is found. -/
theorem get?_of_mem
    {d : Dictionary α}
    (hKeys : (d.map Prod.fst).Nodup)
    {key : Text}
    {a : α}
    (hMember : (key, a) ∈ d) :
    get? key d = some a := by
  induction d with
  | nil =>
      simp at hMember
  | cons entry d ih =>
      rcases entry with ⟨k, b⟩
      rw [List.map_cons, List.nodup_cons] at hKeys
      rw [get?_cons]
      rcases List.mem_cons.mp hMember with hHead | hTail
      · cases hHead
        simp
      · have hOther : k ≠ key := by
          intro hEq
          apply hKeys.1
          exact List.mem_map.mpr ⟨(key, a), hTail, hEq.symm⟩
        rw [if_neg hOther]
        exact ih hKeys.2 hTail

------------------------------------------------------------
-- Order
------------------------------------------------------------

theorem ordered_cons
    {k : Text}
    {a : α}
    {d : Dictionary α} :
    Ordered ((k, a) :: d) ↔
      (∀ entry ∈ d, k < entry.1) ∧ Ordered d := by
  exact List.pairwise_cons

/- Keys in strict order are not repeated. -/
theorem Ordered.nodup
    {d : Dictionary α}
    (hOrdered : d.Ordered) :
    (d.map Prod.fst).Nodup := by
  rw [List.nodup_iff_pairwise_ne, List.pairwise_map]
  apply List.Pairwise.imp _ hOrdered
  intro x y hLess hEq
  rw [hEq] at hLess
  exact List.lt_irrefl y.1 hLess

/- In an ordered dictionary, lookup finds just the entries. -/
theorem get?_eq_some_iff
    {d : Dictionary α}
    (hOrdered : d.Ordered)
    {key : Text}
    {a : α} :
    get? key d = some a ↔ (key, a) ∈ d := by
  constructor
  · exact mem_of_get?
  · exact get?_of_mem hOrdered.nodup

/- Dictionaries with the keys of an ordered one are ordered. -/
theorem ordered_of_keys_eq
    {d : Dictionary α}
    {d' : Dictionary β}
    (hKeys : d'.map Prod.fst = d.map Prod.fst)
    (hOrdered : d.Ordered) :
    d'.Ordered := by
  have hPairwise : (d.map Prod.fst).Pairwise (· < ·) :=
    List.pairwise_map.mpr hOrdered
  rw [← hKeys] at hPairwise
  exact List.pairwise_map.mp hPairwise

------------------------------------------------------------
-- Insertion
------------------------------------------------------------

/- Insertion decides about its own key only. -/
theorem get?_insert
    (d : Dictionary α)
    (k key : Text)
    (a : α) :
    get? key (d.insert k a) =
      if k = key then some a else get? key d := by
  induction d with
  | nil =>
      rfl
  | cons entry d ih =>
      rcases entry with ⟨l, b⟩
      rw [insert]
      split
      · next hEq =>
          subst hEq
          simp only [get?_cons]
          split <;> rfl
      · next hNe =>
          split
          · rfl
          · rw [get?_cons, ih, get?_cons]
            by_cases hKey : l = key
            · have hOther : k ≠ key := fun h => hNe (h.trans hKey.symm)
              rw [if_pos hKey, if_neg hOther, if_pos hKey]
            · simp only [if_neg hKey]

/- The first value under a key stays. -/
theorem get?_insertNew
    (d : Dictionary α)
    (k key : Text)
    (a : α) :
    get? key (d.insertNew k a) =
      (get? key d).or (if k = key then some a else none) := by
  unfold insertNew contains
  cases hFound : get? k d with
  | some b =>
      by_cases hKey : k = key
      · subst hKey
        simp [hFound]
      · simp [hKey]
  | none =>
      by_cases hKey : k = key
      · subst hKey
        simp [hFound, get?_insert]
      · simp [get?_insert, hKey]

/- Entries after insertion are the new one or old ones. -/
theorem mem_insert
    {d : Dictionary α}
    {k : Text}
    {a : α}
    {entry : Text × α}
    (hMember : entry ∈ d.insert k a) :
    entry = (k, a) ∨ entry ∈ d := by
  induction d with
  | nil =>
      simpa [insert] using hMember
  | cons first d ih =>
      rcases first with ⟨l, b⟩
      rw [insert] at hMember
      split at hMember
      · rcases List.mem_cons.mp hMember with hHead | hTail
        · exact Or.inl hHead
        · exact Or.inr (List.mem_cons_of_mem _ hTail)
      · split at hMember
        · exact List.mem_cons.mp hMember
        · rcases List.mem_cons.mp hMember with hHead | hTail
          · exact Or.inr (by simp [hHead])
          · rcases ih hTail with hNew | hOld
            · exact Or.inl hNew
            · exact Or.inr (List.mem_cons_of_mem _ hOld)

/- Insertion keeps the order. -/
theorem ordered_insert
    {d : Dictionary α}
    (hOrdered : d.Ordered)
    (k : Text)
    (a : α) :
    (d.insert k a).Ordered := by
  induction d with
  | nil =>
      simp [insert, Ordered]
  | cons first d ih =>
      rcases first with ⟨l, b⟩
      rw [ordered_cons] at hOrdered
      rw [insert]
      split
      · next hEq =>
          subst hEq
          exact ordered_cons.mpr hOrdered
      · next hNe =>
          split
          · next hLess =>
              apply ordered_cons.mpr
              refine ⟨?_, ordered_cons.mpr hOrdered⟩
              intro entry hEntry
              rcases List.mem_cons.mp hEntry with hHead | hTail
              · rw [hHead]
                exact hLess
              · exact List.lt_trans hLess
                  (hOrdered.1 entry hTail)
          · next hNotLess =>
              apply ordered_cons.mpr
              refine ⟨?_, ih hOrdered.2⟩
              intro entry hEntry
              rcases mem_insert hEntry with hNew | hOld
              · rw [hNew]
                rcases Text.lt_or_eq_or_lt k l with h | h | h
                · exact absurd h hNotLess
                · exact absurd h hNe
                · exact h
              · exact hOrdered.1 entry hOld

------------------------------------------------------------
-- Lists Of Entries
------------------------------------------------------------

/- The first list of entries is looked at first. -/
theorem get?_append
    (d e : Dictionary α)
    (key : Text) :
    get? key (d ++ e) = (get? key d).or (get? key e) := by
  induction d with
  | nil =>
      simp
  | cons entry d ih =>
      rcases entry with ⟨k, b⟩
      rw [List.cons_append, get?_cons, get?_cons, ih]
      split <;> simp

private theorem get?_foldl_insert
    (entries : List (Text × α))
    (d : Dictionary α)
    (key : Text) :
    get? key
        (entries.foldl (fun d entry => d.insert entry.1 entry.2) d) =
      (get? key entries.reverse).or (get? key d) := by
  induction entries generalizing d with
  | nil =>
      simp
  | cons entry entries ih =>
      rw [List.foldl_cons, ih, get?_insert, List.reverse_cons,
        get?_append, Option.or_assoc]
      rcases entry with ⟨k, b⟩
      rw [get?_cons]
      split <;> simp

/- The last entry of a key decides. -/
theorem get?_ofList
    (entries : List (Text × α))
    (key : Text) :
    get? key (ofList entries) = get? key entries.reverse := by
  have hFold := get?_foldl_insert entries [] key
  simpa [ofList] using hFold

/- If the entries of a key agree, every entry is found. -/
theorem get?_ofList_eq_some_iff
    {entries : List (Text × α)}
    (hUnique : ∀ key a b,
      (key, a) ∈ entries → (key, b) ∈ entries → a = b)
    {key : Text}
    {a : α} :
    get? key (ofList entries) = some a ↔ (key, a) ∈ entries := by
  rw [get?_ofList]
  constructor
  · intro hFound
    exact List.mem_reverse.mp (mem_of_get? hFound)
  · intro hMember
    cases hFound : get? key entries.reverse with
    | none =>
        have hAbsent := get?_eq_none_iff.mp hFound a
        exact absurd (List.mem_reverse.mpr hMember) hAbsent
    | some b =>
        have hOther := List.mem_reverse.mp (mem_of_get? hFound)
        rw [hUnique key a b hMember hOther]

theorem ordered_ofList
    (entries : List (Text × α)) :
    (ofList entries).Ordered := by
  have hFold :
      ∀ d : Dictionary α, d.Ordered →
        (entries.foldl
          (fun d entry => d.insert entry.1 entry.2) d).Ordered := by
    induction entries with
    | nil =>
        intro d hOrdered
        exact hOrdered
    | cons entry entries ih =>
        intro d hOrdered
        exact ih _ (ordered_insert hOrdered entry.1 entry.2)
  exact hFold [] List.Pairwise.nil

------------------------------------------------------------
-- Change Of Values
------------------------------------------------------------

@[simp] theorem mapValues_cons
    (f : Text → α → β)
    (k : Text)
    (a : α)
    (d : Dictionary α) :
    mapValues f ((k, a) :: d) = (k, f k a) :: mapValues f d := by
  rfl

/- Changing values keeps the keys. -/
@[simp] theorem map_fst_mapValues
    (f : Text → α → β)
    (d : Dictionary α) :
    (mapValues f d).map Prod.fst = d.map Prod.fst := by
  simp [mapValues]

theorem get?_mapValues
    (f : Text → α → β)
    (d : Dictionary α)
    (key : Text) :
    get? key (mapValues f d) = (get? key d).map (f key) := by
  induction d with
  | nil =>
      rfl
  | cons entry d ih =>
      rcases entry with ⟨k, a⟩
      rw [mapValues_cons, get?_cons, get?_cons, ih]
      by_cases hKey : k = key
      · simp [hKey]
      · simp [hKey]

theorem mapValues_comp
    {γ : Type}
    (f : Text → α → β)
    (g : Text → β → γ) :
    mapValues g ∘ mapValues f =
      mapValues fun key a => g key (f key a) := by
  funext d
  simp [mapValues]

/- Entries may be chosen by their keys before or afterwards. -/
theorem filter_mapValues
    (f : Text → α → β)
    (p : Text → Bool)
    (d : Dictionary α) :
    (mapValues f d).filter (fun entry => p entry.1) =
      mapValues f (d.filter fun entry => p entry.1) := by
  unfold mapValues
  rw [List.filter_map]
  rfl

theorem mem_mapValues_iff
    {f : Text → α → β}
    {d : Dictionary α}
    {key : Text}
    {b : β} :
    (key, b) ∈ mapValues f d ↔ ∃ a, (key, a) ∈ d ∧ f key a = b := by
  constructor
  · intro hMember
    rcases List.mem_map.mp hMember with ⟨⟨k, a⟩, hEntry, hEq⟩
    cases hEq
    exact ⟨a, hEntry, rfl⟩
  · rintro ⟨a, hEntry, rfl⟩
    exact List.mem_map.mpr ⟨(key, a), hEntry, rfl⟩

/- Only the changes of the entries matter. -/
theorem mapValues_congr
    {f g : Text → α → β}
    {d : Dictionary α}
    (hSame : ∀ entry ∈ d, f entry.1 entry.2 = g entry.1 entry.2) :
    mapValues f d = mapValues g d := by
  apply List.map_congr_left
  intro entry hEntry
  rcases entry with ⟨k, a⟩
  exact congrArg (Prod.mk k) (hSame _ hEntry)

theorem mapValues_eq_self
    {f : Text → α → α}
    {d : Dictionary α}
    (hSame : ∀ entry ∈ d, f entry.1 entry.2 = entry.2) :
    mapValues f d = d := by
  calc
    mapValues f d = d.map id := by
      apply List.map_congr_left
      intro entry hEntry
      rcases entry with ⟨k, a⟩
      exact congrArg (Prod.mk k) (hSame _ hEntry)
    _ = d := List.map_id d

------------------------------------------------------------
-- Loops
------------------------------------------------------------

/- A step which fails ends the loop. -/
theorem advance_cons_of_fails
    {step : Text → α → σ → α × σ × Option ε}
    {k : Text}
    {a a' : α}
    {s s' : σ}
    {e : ε}
    (hStep : step k a s = (a', s', some e))
    (d : Dictionary α) :
    advance step ((k, a) :: d) s = ((k, a') :: d, s', some e) := by
  rw [advance, hStep]

/- A step which does not fail leaves the rest to the loop. -/
theorem advance_cons_of_passes
    {step : Text → α → σ → α × σ × Option ε}
    {k : Text}
    {a a' : α}
    {s s' : σ}
    (hStep : step k a s = (a', s', none))
    (d : Dictionary α) :
    advance step ((k, a) :: d) s =
      ((k, a') :: (advance step d s').1, (advance step d s').2) := by
  rw [advance, hStep]

/- The first part of a loop comes before the second one. -/
theorem advance_append
    (step : Text → α → σ → α × σ × Option ε)
    (d d' : Dictionary α)
    (s : σ) :
    advance step (d ++ d') s =
      match advance step d s with
      | (e, s', some stop) => (e ++ d', s', some stop)
      | (e, s', none) =>
          (e ++ (advance step d' s').1, (advance step d' s').2) := by
  induction d generalizing s with
  | nil =>
      rfl
  | cons first d ih =>
      rcases first with ⟨k, a⟩
      rcases hTurn : step k a s with ⟨a', s', stop⟩
      rw [List.cons_append]
      cases stop with
      | some e =>
          rw [advance_cons_of_fails hTurn, advance_cons_of_fails hTurn]
          rfl
      | none =>
          rw [advance_cons_of_passes hTurn,
            advance_cons_of_passes hTurn, ih]
          rcases advance step d s' with ⟨e, s'', stop⟩
          cases stop with
          | some e' => rfl
          | none => rfl

/- A loop whose steps know each key by another name. -/
theorem advance_map_keys
    {step step' : Text → α → σ → α × σ × Option ε}
    {f : Text → Text}
    (hStep : ∀ k a s, step' k a s = step (f k) a s)
    (d : Dictionary α)
    (s : σ) :
    advance step (d.map fun entry => (f entry.1, entry.2)) s =
      ((advance step' d s).1.map fun entry => (f entry.1, entry.2),
        (advance step' d s).2) := by
  induction d generalizing s with
  | nil =>
      rfl
  | cons first d ih =>
      rcases first with ⟨k, a⟩
      rcases hTurn : step (f k) a s with ⟨a', s', stop⟩
      have hTurn' := (hStep k a s).trans hTurn
      rw [List.map_cons]
      cases stop with
      | some e =>
          rw [advance_cons_of_fails hTurn, advance_cons_of_fails hTurn']
          rfl
      | none =>
          rw [advance_cons_of_passes hTurn,
            advance_cons_of_passes hTurn', ih]
          rfl

/- A loop which reports no error has gone through all entries. -/
theorem state_of_advance
    (step : Text → α → σ → α × σ × Option ε)
    {d : Dictionary α}
    {s : σ}
    (hNone : (advance step d s).2.2 = none) :
    (advance step d s).2.1 =
      d.foldl (fun s entry => (step entry.1 entry.2 s).2.1) s := by
  induction d generalizing s with
  | nil =>
      rfl
  | cons first d ih =>
      rcases first with ⟨k, a⟩
      rcases hTurn : step k a s with ⟨a', s', stop⟩
      cases stop with
      | some e =>
          rw [advance_cons_of_fails hTurn] at hNone
          cases hNone
      | none =>
          rw [advance_cons_of_passes hTurn] at hNone ⊢
          rw [List.foldl_cons, hTurn]
          exact ih hNone

/- What every step keeps true of the state, the loop keeps true. -/
theorem advance_invariant
    {step : Text → α → σ → α × σ × Option ε}
    {invariant : σ → Prop}
    (hStep : ∀ k a s, invariant s → invariant (step k a s).2.1)
    (d : Dictionary α)
    {s : σ}
    (hStart : invariant s) :
    invariant (advance step d s).2.1 := by
  induction d generalizing s with
  | nil =>
      exact hStart
  | cons first d ih =>
      rcases first with ⟨k, a⟩
      have hNext := hStep k a s hStart
      rcases hTurn : step k a s with ⟨a', s', stop⟩
      rw [hTurn] at hNext
      cases stop with
      | some e =>
          rw [advance_cons_of_fails hTurn]
          exact hNext
      | none =>
          rw [advance_cons_of_passes hTurn]
          exact ih hNext

/- A loop which reports no error keeps what its good steps keep. -/
theorem invariant_of_advance
    {step : Text → α → σ → α × σ × Option ε}
    {d : Dictionary α}
    {motive : σ → Prop}
    (hKept : ∀ entry ∈ d, ∀ s, motive s →
      (step entry.1 entry.2 s).2.2 = none →
        motive (step entry.1 entry.2 s).2.1)
    {s : σ}
    (hStart : motive s)
    (hNone : (advance step d s).2.2 = none) :
    motive (advance step d s).2.1 := by
  induction d generalizing s with
  | nil =>
      exact hStart
  | cons first d ih =>
      rcases first with ⟨k, a⟩
      rw [List.forall_mem_cons] at hKept
      have hNext := hKept.1 s hStart
      rcases hTurn : step k a s with ⟨a', s', stop⟩
      rw [hTurn] at hNext
      cases stop with
      | some e =>
          rw [advance_cons_of_fails hTurn] at hNone
          cases hNone
      | none =>
          rw [advance_cons_of_passes hTurn] at hNone ⊢
          exact ih hKept.2 (hNext rfl) hNone

/-
  What the step of one entry makes true, and the steps behind
  it keep, is true after a loop which reports no error.
-/
theorem holds_of_advance
    {step : Text → α → σ → α × σ × Option ε}
    {front back : Dictionary α}
    {k : Text}
    {a : α}
    {motive : σ → Prop}
    (hMade : ∀ s, (step k a s).2.2 = none → motive (step k a s).2.1)
    (hKept : ∀ entry ∈ back, ∀ s, motive s →
      (step entry.1 entry.2 s).2.2 = none →
        motive (step entry.1 entry.2 s).2.1)
    {s : σ}
    (hNone : (advance step (front ++ (k, a) :: back) s).2.2 = none) :
    motive (advance step (front ++ (k, a) :: back) s).2.1 := by
  induction front generalizing s with
  | nil =>
      rw [List.nil_append] at hNone ⊢
      have hNext := hMade s
      rcases hTurn : step k a s with ⟨a', s', stop⟩
      rw [hTurn] at hNext
      cases stop with
      | some e =>
          rw [advance_cons_of_fails hTurn] at hNone
          cases hNone
      | none =>
          rw [advance_cons_of_passes hTurn] at hNone ⊢
          exact invariant_of_advance hKept (hNext rfl) hNone
  | cons first front ih =>
      rcases first with ⟨l, b⟩
      rw [List.cons_append] at hNone ⊢
      rcases hTurn : step l b s with ⟨b', s', stop⟩
      cases stop with
      | some e =>
          rw [advance_cons_of_fails hTurn] at hNone
          cases hNone
      | none =>
          rw [advance_cons_of_passes hTurn] at hNone ⊢
          exact ih hNone

/- A loop in which no step does anything. -/
theorem advance_idle
    {step : Text → α → σ → α × σ × Option ε}
    {d : Dictionary α}
    (hIdle : ∀ entry ∈ d, ∀ s,
      step entry.1 entry.2 s = (entry.2, s, none))
    (s : σ) :
    advance step d s = (d, s, none) := by
  induction d with
  | nil =>
      rfl
  | cons first d ih =>
      rcases first with ⟨k, a⟩
      have hTurn : step k a s = (a, s, none) :=
        hIdle _ List.mem_cons_self s
      have hRest :=
        ih fun entry hEntry =>
          hIdle entry (List.mem_cons_of_mem _ hEntry)
      rw [advance_cons_of_passes hTurn, hRest]

/-
  If the steps change values and fail without looking at the
  state, then so does the loop.
-/
theorem advance_stateless
    {step : Text → α → σ → α × σ × Option ε}
    {step' : Text → α → Unit → α × Unit × Option ε}
    (hStep : ∀ k a s,
      (step k a s).1 = (step' k a ()).1 ∧
        (step k a s).2.2 = (step' k a ()).2.2)
    (d : Dictionary α)
    (s : σ) :
    (advance step d s).1 = (advance step' d ()).1 ∧
      (advance step d s).2.2 = (advance step' d ()).2.2 := by
  induction d generalizing s with
  | nil =>
      exact ⟨rfl, rfl⟩
  | cons first d ih =>
      rcases first with ⟨k, a⟩
      have hFirst := hStep k a s
      rcases hTurn : step k a s with ⟨a', s', stop⟩
      rcases hTurn' : step' k a () with ⟨b', ⟨⟩, stop'⟩
      rw [hTurn, hTurn'] at hFirst
      dsimp only at hFirst
      rcases hFirst with ⟨rfl, rfl⟩
      cases stop with
      | some e =>
          rw [advance_cons_of_fails hTurn, advance_cons_of_fails hTurn']
          exact ⟨rfl, rfl⟩
      | none =>
          rcases ih s' with ⟨hValues, hStop⟩
          rw [advance_cons_of_passes hTurn,
            advance_cons_of_passes hTurn', hValues, hStop]
          exact ⟨rfl, rfl⟩

/-
  If every step commutes with a change of its value, then so
  does the loop with the change of all values.
-/
theorem advance_mapValues
    {step : Text → α → σ → α × σ × Option ε}
    {step' : Text → β → σ → β × σ × Option ε}
    {f : Text → α → β}
    (hStep : ∀ k a s,
      step' k (f k a) s = (f k (step k a s).1, (step k a s).2))
    (d : Dictionary α)
    (s : σ) :
    advance step' (mapValues f d) s =
      (mapValues f (advance step d s).1, (advance step d s).2) := by
  induction d generalizing s with
  | nil =>
      rfl
  | cons first d ih =>
      rcases first with ⟨k, a⟩
      have hFirst := hStep k a s
      rw [mapValues_cons]
      rcases hTurn : step k a s with ⟨a', s', stop⟩
      rw [hTurn] at hFirst
      cases stop with
      | some e =>
          rw [advance_cons_of_fails hTurn, advance_cons_of_fails hFirst,
            mapValues_cons]
      | none =>
          rw [advance_cons_of_passes hTurn,
            advance_cons_of_passes hFirst, ih, mapValues_cons]

/-
  A loop without a state changes every value, or it stops at
  the entry with the first key whose step fails: then the
  values up to that entry are changed and the others stay.
-/
theorem advance_cases
    (step : Text → α → Unit → α × Unit × Option ε)
    {d : Dictionary α}
    (hOrdered : d.Ordered) :
    ((∀ entry ∈ d, (step entry.1 entry.2 ()).2.2 = none) ∧
        advance step d () =
          (mapValues (fun k a => (step k a ()).1) d, (), none)) ∨
      ∃ key a e,
        (key, a) ∈ d ∧
        (step key a ()).2.2 = some e ∧
        (∀ entry ∈ d, entry.1 < key →
          (step entry.1 entry.2 ()).2.2 = none) ∧
        advance step d () =
          (mapValues
              (fun k b => if key < k then b else (step k b ()).1) d,
            (), some e) := by
  induction d with
  | nil =>
      exact Or.inl ⟨by simp, rfl⟩
  | cons first d ih =>
      rcases first with ⟨k, a⟩
      rw [ordered_cons] at hOrdered
      rcases hStep : step k a () with ⟨a', ⟨⟩, stop⟩
      cases stop with
      | some e =>
          refine Or.inr ⟨k, a, e, by simp, by rw [hStep], ?_, ?_⟩
          · intro entry hEntry hLess
            rcases List.mem_cons.mp hEntry with hHead | hTail
            · rw [hHead] at hLess
              exact absurd hLess (List.lt_irrefl k)
            · exact absurd (hOrdered.1 entry hTail)
                (List.lt_asymm hLess)
          · have hRest :
                mapValues
                    (fun l b =>
                      if k < l then b else (step l b ()).1) d =
                  d := by
              apply mapValues_eq_self
              intro entry hEntry
              rw [if_pos (hOrdered.1 entry hEntry)]
            rw [advance_cons_of_fails hStep, mapValues_cons,
              hRest, if_neg (List.lt_irrefl k), hStep]
      | none =>
          rcases ih hOrdered.2 with
            ⟨hNone, hLoop⟩ | ⟨key, b, e, hMember, hFails, hFirst, hLoop⟩
          · refine Or.inl ⟨?_, ?_⟩
            · intro entry hEntry
              rcases List.mem_cons.mp hEntry with hHead | hTail
              · rw [hHead, hStep]
              · exact hNone entry hTail
            · rw [advance_cons_of_passes hStep, hLoop,
                mapValues_cons, hStep]
          · have hBefore : ¬ key < k :=
              List.lt_asymm (hOrdered.1 _ hMember)
            refine Or.inr
              ⟨key, b, e, List.mem_cons_of_mem _ hMember,
                hFails, ?_, ?_⟩
            · intro entry hEntry hLess
              rcases List.mem_cons.mp hEntry with hHead | hTail
              · rw [hHead, hStep]
              · exact hFirst entry hTail hLess
            · rw [advance_cons_of_passes hStep, hLoop,
                mapValues_cons, if_neg hBefore, hStep]

/- A loop which reports no error has changed every value. -/
theorem passes_of_advance
    (step : Text → α → Unit → α × Unit × Option ε)
    {d : Dictionary α}
    (hOrdered : d.Ordered)
    (hNone : (advance step d ()).2.2 = none) :
    (∀ entry ∈ d, (step entry.1 entry.2 ()).2.2 = none) ∧
      (advance step d ()).1 =
        mapValues (fun k a => (step k a ()).1) d := by
  rcases advance_cases step hOrdered with
    ⟨hAll, hLoop⟩ | ⟨key, a, e, -, -, -, hLoop⟩
  · exact ⟨hAll, congrArg Prod.fst hLoop⟩
  · rw [hLoop] at hNone
    cases hNone

/- A loop which reports an error has stopped at its first cause. -/
theorem fails_of_advance
    (step : Text → α → Unit → α × Unit × Option ε)
    {d : Dictionary α}
    (hOrdered : d.Ordered)
    {e : ε}
    (hStop : (advance step d ()).2.2 = some e) :
    ∃ key a,
      (key, a) ∈ d ∧
      (step key a ()).2.2 = some e ∧
      (∀ entry ∈ d, entry.1 < key →
        (step entry.1 entry.2 ()).2.2 = none) ∧
      (advance step d ()).1 =
        mapValues
          (fun k b => if key < k then b else (step k b ()).1) d := by
  rcases advance_cases step hOrdered with
    ⟨-, hLoop⟩ | ⟨key, a, e', hMember, hFails, hFirst, hLoop⟩
  · rw [hLoop] at hStop
    cases hStop
  · rw [hLoop] at hStop
    cases hStop
    exact ⟨key, a, hMember, hFails, hFirst, congrArg Prod.fst hLoop⟩

end Dictionary

------------------------------------------------------------
-- Sets Of Texts
------------------------------------------------------------

namespace TextSet

theorem mem_insert
    {x y : Text}
    {set : TextSet} :
    y ∈ insert x set ↔ y = x ∨ y ∈ set := by
  induction set with
  | nil =>
      simp [insert]
  | cons z set ih =>
      rw [insert]
      split
      · next hEq =>
          rw [hEq]
          simp
      · split
        · simp
        · rw [List.mem_cons, ih, List.mem_cons]
          exact or_left_comm

theorem mem_union
    {xs : TextSet}
    {ys : List Text}
    {y : Text} :
    y ∈ union xs ys ↔ y ∈ xs ∨ y ∈ ys := by
  induction ys generalizing xs with
  | nil =>
      simp [union]
  | cons z ys ih =>
      have hUnion :
          union xs (z :: ys) = union (insert z xs) ys := by
        rfl
      rw [hUnion, ih, mem_insert, List.mem_cons]
      constructor
      · intro hEither
        rcases hEither with (hEq | hOld) | hRest
        · exact Or.inr (Or.inl hEq)
        · exact Or.inl hOld
        · exact Or.inr (Or.inr hRest)
      · intro hEither
        rcases hEither with hOld | hEq | hRest
        · exact Or.inl (Or.inr hOld)
        · exact Or.inl (Or.inl hEq)
        · exact Or.inr hRest

/- Insertion keeps the order. -/
theorem ordered_insert
    {set : TextSet}
    (hOrdered : set.Ordered)
    (x : Text) :
    (insert x set).Ordered := by
  induction set with
  | nil =>
      exact List.pairwise_singleton _ x
  | cons y set ih =>
      have hSet := List.pairwise_cons.mp hOrdered
      rw [insert]
      split
      · exact hOrdered
      · next hNe =>
          split
          · next hLess =>
              refine List.pairwise_cons.mpr ⟨?_, hOrdered⟩
              intro z hMember
              rcases List.mem_cons.mp hMember with hHead | hTail
              · rw [hHead]
                exact hLess
              · exact List.lt_trans hLess (hSet.1 z hTail)
          · next hNotLess =>
              refine List.pairwise_cons.mpr ⟨?_, ih hSet.2⟩
              intro z hMember
              rcases mem_insert.mp hMember with hNew | hOld
              · rw [hNew]
                rcases Text.lt_or_eq_or_lt x y with h | h | h
                · exact absurd h hNotLess
                · exact absurd h hNe
                · exact h
              · exact hSet.1 z hOld

theorem ordered_union
    {set : TextSet}
    (hOrdered : set.Ordered)
    (xs : List Text) :
    (union set xs).Ordered := by
  induction xs generalizing set with
  | nil =>
      exact hOrdered
  | cons x xs ih =>
      exact ih (ordered_insert hOrdered x)

/- In an ordered set, a member is inserted without effect. -/
theorem insert_of_mem
    {set : TextSet}
    (hOrdered : set.Ordered)
    {x : Text}
    (hMember : x ∈ set) :
    insert x set = set := by
  induction set with
  | nil =>
      simp at hMember
  | cons y set ih =>
      have hSet := List.pairwise_cons.mp hOrdered
      rw [insert]
      rcases List.mem_cons.mp hMember with hHead | hTail
      · rw [if_pos hHead]
      · have hLess : y < x := hSet.1 x hTail
        have hNe : x ≠ y := by
          intro hEq
          rw [hEq] at hLess
          exact List.lt_irrefl y hLess
        rw [if_neg hNe, if_neg (List.lt_asymm hLess), ih hSet.2 hTail]

theorem union_of_subset
    {set : TextSet}
    (hOrdered : set.Ordered)
    {xs : List Text}
    (hMembers : ∀ x ∈ xs, x ∈ set) :
    union set xs = set := by
  induction xs with
  | nil =>
      rfl
  | cons x xs ih =>
      have hUnion : union set (x :: xs) = union (insert x set) xs := by
        rfl
      rw [hUnion, insert_of_mem hOrdered (hMembers x List.mem_cons_self)]
      exact ih fun y hMember =>
        hMembers y (List.mem_cons_of_mem x hMember)

end TextSet

end ContractLinker
