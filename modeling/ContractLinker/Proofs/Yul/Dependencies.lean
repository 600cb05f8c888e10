import ContractLinker.Proofs.Yul.Parsing

/-
  The factory dependencies of an object which was read from
  a text. They are what the code of the object and that of
  its runtime object refer to. A further object inside does
  not count unless the code refers to it, and the runtime
  object may refer to the object around it.

  Key definitions include:
    * `Yul.Object.parts`
    * `Yul.Object.RefersTo`
    * `Yul.Object.Contains`
    * `Yul.Object.RefersBack`

  Main statements:
    * `Yul.Object.runtime_of_parse`
    * `Yul.Object.factoryDependencies_of_parse`
-/

------------------------------------------------------------
-- What Is Said To Be Created
------------------------------------------------------------

namespace ContractLinker

namespace Yul

namespace Object

/- An object and its runtime object, if there is one. -/
def parts (o : Object) : List Object :=
  o :: o.runtime.toList

/-
  The code of one of the two refers to a name which is that
  of neither of them nor that of its own data.
-/
def RefersTo (o : Object) (name : Text) : Prop :=
  ∃ part ∈ o.parts, name ∈ part.code.references ∧
    Dictionary.get? name part.data = none ∧
    ∀ other ∈ o.parts, name ≠ other.name

/- One of the two contains an object of a name. -/
def Contains (o : Object) (name : Text) : Prop :=
  ∃ part ∈ o.parts, ∃ child ∈ part.subObjects, child.name = name

/- The code of the runtime object refers to the object around. -/
def RefersBack (o : Object) : Prop :=
  ∃ r ∈ o.runtime, o.name ∈ r.code.references ∧
    Dictionary.get? o.name r.data = none

------------------------------------------------------------
-- Runtime Objects
------------------------------------------------------------

/- A runtime object is named after its parent and has none itself. -/
theorem runtime_of_parse
    {input : Text}
    {o r : Object}
    (hParse : parse input = .ok o)
    (hRuntime : o.runtime = some r) :
    r.name = runtimeName o.name ∧ r.runtime = none := by
  rcases parse_eq_ok_iff_parseFront.mp hParse with ⟨final, hFront⟩
  rcases parseFront_eq_ok_iff.mp hFront with
    ⟨-, tree, -, -, ⟨-, -, hInner⟩, rfl⟩
  rw [ObjectTree.runtime_toObject, Option.map_eq_some_iff] at hRuntime
  rcases hRuntime with ⟨child, hHead, rfl⟩
  have hMember := List.mem_filter.mp (List.mem_of_head? hHead)
  have hName : child.name = runtimeName tree.name := by
    simpa using hMember.2
  rcases hInner child hMember.1 with ⟨-, hNone, -⟩
  constructor
  · simpa [ObjectTree.name_toObject] using hName
  · rw [ObjectTree.runtime_toObject, hNone (by simp [hName])]
    rfl

theorem runtimeName_ne
    (name : Text) :
    runtimeName name ≠ name := by
  simp [runtimeName, ascii]

------------------------------------------------------------
-- References
------------------------------------------------------------

theorem mem_foreignReferences_iff
    {name reference : Text}
    {code : Code}
    {data : Dictionary Text}
    {runtime : Option Text} :
    reference ∈ foreignReferences name code data runtime ↔
      reference ∈ code.references ∧ reference ≠ name ∧
        Dictionary.get? reference data = none ∧
        some reference ≠ runtime := by
  simp [foreignReferences, Dictionary.contains, and_assoc]

theorem mem_factoryDependencies_iff
    {o : Object}
    {reference : Text} :
    reference ∈ o.factoryDependencies ↔
      reference ∈
          foreignReferences o.name o.code o.data
            (o.runtime.map Object.name) ∨
        ∃ r ∈ o.runtime, reference ∈ r.factoryDependencies := by
  rcases o with ⟨name, code, data, runtime, subObjects⟩
  cases runtime with
  | none =>
      simp [factoryDependencies, runtimeDependencies, TextSet.mem_union]
  | some r =>
      simp [factoryDependencies, runtimeDependencies, TextSet.mem_union]

/- Without a runtime object there is but the code of the object. -/
theorem mem_factoryDependencies_of_runtime
    {o : Object}
    (hNone : o.runtime = none)
    {reference : Text} :
    reference ∈ o.factoryDependencies ↔
      reference ∈ o.code.references ∧ reference ≠ o.name ∧
        Dictionary.get? reference o.data = none := by
  rw [mem_factoryDependencies_iff, mem_foreignReferences_iff, hNone]
  simp

theorem refersTo_iff_of_none
    {o : Object}
    {name : Text}
    (hRuntime : o.runtime = none) :
    o.RefersTo name ↔
      name ∈ o.code.references ∧
        Dictionary.get? name o.data = none ∧ name ≠ o.name := by
  simp [RefersTo, parts, hRuntime]

/- With a runtime object, either of the two may refer to a name. -/
theorem refersTo_iff_of_some
    {o r : Object}
    {name : Text}
    (hRuntime : o.runtime = some r) :
    o.RefersTo name ↔
      (name ≠ o.name ∧ name ≠ r.name) ∧
        ((name ∈ o.code.references ∧
            Dictionary.get? name o.data = none) ∨
          (name ∈ r.code.references ∧
            Dictionary.get? name r.data = none)) := by
  simp only [RefersTo, parts, hRuntime, Option.toList_some,
    List.mem_cons, List.not_mem_nil, or_false, forall_eq_or_imp,
    forall_eq, exists_eq_or_imp, exists_eq_left]
  grind

/-
  The dependencies of an object which was read: besides what
  the two refer to, the object itself if its runtime object
  refers to it.
-/
theorem mem_factoryDependencies_of_parse
    {input : Text}
    {o : Object}
    (hParse : parse input = .ok o)
    {reference : Text} :
    reference ∈ o.factoryDependencies ↔
      o.RefersTo reference ∨
        (reference = o.name ∧ o.RefersBack) := by
  cases hRuntime : o.runtime with
  | none =>
      have hBack : ¬ o.RefersBack := by
        simp [RefersBack, hRuntime]
      rw [mem_factoryDependencies_of_runtime hRuntime,
        refersTo_iff_of_none hRuntime]
      grind
  | some r =>
      rcases runtime_of_parse hParse hRuntime with ⟨hName, hNone⟩
      have hApart : r.name ≠ o.name := by
        rw [hName]
        exact runtimeName_ne o.name
      have hInner := @mem_factoryDependencies_of_runtime r hNone
      have hBack :
          o.RefersBack ↔
            o.name ∈ r.code.references ∧
              Dictionary.get? o.name r.data = none := by
        simp [RefersBack, hRuntime]
      rw [mem_factoryDependencies_iff, mem_foreignReferences_iff,
        refersTo_iff_of_some hRuntime, hBack, hRuntime]
      -- A name is that of the object, of the other one, or foreign.
      grind

/-
  What an object which was read depends on. It never depends
  on its runtime object, and on itself just if the runtime
  object refers to it. The objects inside are counted in just
  if they are referred to, or bear the name of the object
  when the runtime object refers to that.
-/
theorem factoryDependencies_of_parse
    {input : Text}
    {o : Object}
    (hParse : parse input = .ok o) :
    (∀ name, name ∈ o.factoryDependencies ↔
      o.RefersTo name ∨ (name = o.name ∧ o.RefersBack)) ∧
    (∀ r ∈ o.runtime, r.name ∉ o.factoryDependencies) ∧
    ((∀ name, name ∈ o.factoryDependencies ↔
        o.Contains name ∨ o.RefersTo name) ↔
      (∀ name, o.Contains name →
        o.RefersTo name ∨ (name = o.name ∧ o.RefersBack)) ∧
      (o.RefersBack → o.Contains o.name)) := by
  have hMember := @mem_factoryDependencies_of_parse input o hParse
  refine ⟨fun name => hMember, ?_, ?_⟩
  · intro r hRuntime hDependency
    rcases hMember.mp hDependency with ⟨-, -, -, -, hApart⟩ | ⟨hSelf, -⟩
    · have hPart : r ∈ o.parts := by
        simp [parts, Option.mem_def.mp hRuntime]
      exact hApart r hPart rfl
    · rw [(runtime_of_parse hParse hRuntime).1] at hSelf
      exact runtimeName_ne o.name hSelf
  · have hOther : ¬ o.RefersTo o.name := by
      rintro ⟨-, -, -, -, hApart⟩
      exact hApart o List.mem_cons_self rfl
    simp only [hMember]
    constructor
    · intro hSame
      constructor
      · intro name hContains
        exact (hSame name).mpr (Or.inl hContains)
      · intro hBack
        exact ((hSame o.name).mp (Or.inr ⟨rfl, hBack⟩)).resolve_right
          hOther
    · rintro ⟨hCounted, hBack⟩ name
      constructor
      · rintro (hRefers | ⟨rfl, hSelf⟩)
        · exact Or.inr hRefers
        · exact Or.inl (hBack hSelf)
      · rintro (hContains | hRefers)
        · exact hCounted name hContains
        · exact Or.inl hRefers

/-
  A runtime object which refers to the object around, and an
  object inside which nothing refers to.
-/
def idleSource : Text :=
  ascii "object 'A' \x7b code \x7b \x7d object 'B' \x7b code \x7b " ++
    ascii "\x7d \x7d object 'A_deployed' \x7b code \x7b " ++
    ascii "datasize('A') \x7d \x7d \x7d"

theorem exists_parse_idleSource :
    ∃ o, parse idleSource = .ok o ∧ o.name = ascii "A" ∧
      o.factoryDependencies = [ascii "A"] ∧
      o.subObjects.map Object.name = [ascii "B"] := by
  have hRead :
      (parse idleSource).toOption.map
          (fun o => (o.name, o.factoryDependencies,
            o.subObjects.map Object.name)) =
        some (ascii "A", [ascii "A"], [ascii "B"]) := by
    decide +kernel
  cases hParse : parse idleSource with
  | error e =>
      rw [hParse] at hRead
      cases hRead
  | ok o =>
      rw [hParse] at hRead
      have hParts := Prod.mk.inj (Option.some.inj hRead)
      have hRest := Prod.mk.inj hParts.2
      exact ⟨o, rfl, hParts.1, hRest.1, hRest.2⟩

theorem contains_of_subObjects
    {o : Object}
    {name : Text}
    (hChild : name ∈ o.subObjects.map Object.name) :
    o.Contains name := by
  rcases List.mem_map.mp hChild with ⟨child, hMember, hName⟩
  exact ⟨o, List.mem_cons_self, child, hMember, hName⟩

theorem factoryDependencies_idleSource :
    ∃ o, parse idleSource = .ok o ∧ o.RefersBack ∧
      o.Contains (ascii "B") ∧ ¬ o.RefersTo (ascii "B") ∧
      o.factoryDependencies = [o.name] := by
  rcases exists_parse_idleSource with
    ⟨o, hParse, hName, hDependencies, hChildren⟩
  rcases factoryDependencies_of_parse hParse with ⟨hMember, -, -⟩
  have hBack : o.RefersTo o.name ∨ o.RefersBack := by
    have hSelf := (hMember o.name).mp (by simp [hDependencies, hName])
    exact hSelf.imp_right fun h => h.2
  refine ⟨o, hParse, ?_, ?_, ?_, ?_⟩
  · apply hBack.resolve_left
    rintro ⟨-, -, -, -, hApart⟩
    exact hApart o List.mem_cons_self rfl
  · apply contains_of_subObjects
    simp [hChildren]
  · intro hRefers
    have hDependency := (hMember (ascii "B")).mpr (Or.inl hRefers)
    rw [hDependencies] at hDependency
    exact absurd hDependency (by decide)
  · rw [hDependencies, hName]

/- The objects inside are not counted in, whatever the code is. -/
theorem not_forall_mem_factoryDependencies :
    ¬ ∀ input o, parse input = .ok o →
      ∀ name, name ∈ o.factoryDependencies ↔
        o.Contains name ∨ o.RefersTo name := by
  intro hAll
  rcases exists_parse_idleSource with
    ⟨o, hParse, -, hDependencies, hChildren⟩
  have hContains : o.Contains (ascii "B") := by
    apply contains_of_subObjects
    simp [hChildren]
  have hDependency :=
    (hAll idleSource o hParse (ascii "B")).mpr (Or.inl hContains)
  rw [hDependencies] at hDependency
  exact absurd hDependency (by decide)

end Object

end Yul

end ContractLinker
