import ContractLinker.Proofs.Assembly.Linking

/-
  The paths in a linked assembly. Every entry of a section
  was linked from one of the same key, so that each path in
  it is the one some content hash stands for.

  Main statements:
    * `LinkedAssembly.rel_runtimeCode`
    * `LinkedAssembly.exists_entry`
    * `LinkedAssembly.linkedEntry_of_mem`
    * `LinkedAssembly.mem_entries_of_path`
-/

namespace ContractLinker

/- Entries whose values are related under the same keys. -/
theorem exists_mem_of_rel
    (relation : Text → DataEntry → DataEntry → Prop)
    {d d' : Option (List (Text × DataEntry))}
    (hRelated :
      Option.Rel
        (List.Forall₂ fun x y => x.1 = y.1 ∧ relation x.1 x.2 y.2)
        d d')
    {key : Text}
    {y : DataEntry}
    (hMember : (key, y) ∈ d'.getD []) :
    ∃ x, (key, x) ∈ d.getD [] ∧ relation key x y := by
  cases hRelated with
  | none =>
      cases hMember
  | some hSome =>
      dsimp only [Option.getD_some] at hMember ⊢
      induction hSome with
      | nil =>
          cases hMember
      | @cons first second d d' hHead _ ih =>
          rcases List.mem_cons.mp hMember with hEq | hTail
          · subst hEq
            rcases first with ⟨k, x⟩
            have hKey : k = key := hHead.1
            subst hKey
            exact ⟨x, List.mem_cons_self, hHead.2⟩
          · rcases ih hTail with ⟨x, hEntry, hValue⟩
            exact ⟨x, List.mem_cons_of_mem _ hEntry, hValue⟩

theorem rel_get?
    (relation : Text → DataEntry → DataEntry → Prop)
    {d d' : List (Text × DataEntry)}
    (hRelated :
      List.Forall₂ (fun x y => x.1 = y.1 ∧ relation x.1 x.2 y.2)
        d d')
    (key : Text) :
    Option.Rel (relation key)
      (Dictionary.get? key d) (Dictionary.get? key d') := by
  induction hRelated with
  | nil =>
      exact Option.Rel.none
  | @cons x y d d' hHead _ ih =>
      rcases x with ⟨k, x⟩
      rcases y with ⟨l, y⟩
      have hKey : k = l := hHead.1
      subst hKey
      rw [Dictionary.get?_cons, Dictionary.get?_cons]
      by_cases hFound : k = key
      · rw [if_pos hFound, if_pos hFound, ← hFound]
        exact Option.Rel.some hHead.2
      · rw [if_neg hFound, if_neg hFound]
        exact ih

------------------------------------------------------------
-- Entries Before And After Linking
------------------------------------------------------------

namespace LinkedAssembly

variable {owner : Text} {hashes : Dictionary Text} {a b : Assembly}

/- Where an entry of the linked data section comes from. -/
theorem exists_data
    (hLinked : LinkedAssembly owner hashes a b)
    {key : Text}
    {y : DataEntry}
    (hMember : (key, y) ∈ b.data.getD []) :
    ∃ x, (key, x) ∈ a.data.getD [] ∧
      if key = Assembly.runtimeKey then
        LinkedRuntimeEntry owner hashes x y
      else
        LinkedEntry hashes x y := by
  exact exists_mem_of_rel
    (fun key x y =>
      if key = Assembly.runtimeKey then
        LinkedRuntimeEntry owner hashes x y
      else
        LinkedEntry hashes x y)
    hLinked.data hMember

/- The runtime code is linked from the runtime code. -/
theorem rel_runtimeCode
    (hLinked : LinkedAssembly owner hashes a b) :
    Option.Rel (LinkedRuntime owner hashes)
      a.runtimeCode b.runtimeCode := by
  have hData := hLinked.data
  unfold Assembly.runtimeCode
  generalize a.data = before at hData
  generalize b.data = after at hData
  cases hData with
  | none =>
      exact Option.Rel.none
  | @some d d' hEntries =>
      have hFound := rel_get?
        (fun key x y =>
          if key = Assembly.runtimeKey then
            LinkedRuntimeEntry owner hashes x y
          else
            LinkedEntry hashes x y)
        hEntries Assembly.runtimeKey
      dsimp only
      generalize Dictionary.get? Assembly.runtimeKey d = x at hFound
      generalize Dictionary.get? Assembly.runtimeKey d' = y at hFound
      cases hFound with
      | none =>
          exact Option.Rel.none
      | some hRelated =>
          rw [if_pos rfl] at hRelated
          cases hRelated with
          | code hCode => exact Option.Rel.some hCode
          | text => exact Option.Rel.none

/- Every entry of a section is linked from one of its key. -/
theorem exists_entry
    (hLinked : LinkedAssembly owner hashes a b)
    {s : Section}
    {key : Text}
    {y : DataEntry}
    (hMember : (key, y) ∈ b.entries s) :
    ∃ x, (key, x) ∈ a.entries s ∧ LinkedEntry hashes x y := by
  cases s with
  | deploy =>
      rcases Assembly.mem_entries_deploy_iff.mp hMember with
        ⟨hData, hKey⟩
      rcases hLinked.exists_data hData with ⟨x, hEntry, hRelated⟩
      rw [if_neg hKey] at hRelated
      exact ⟨x, Assembly.mem_entries_deploy_iff.mpr ⟨hEntry, hKey⟩,
        hRelated⟩
  | runtime =>
      have hRuntime := hLinked.rel_runtimeCode
      unfold Assembly.entries at hMember ⊢
      generalize a.runtimeCode = before at hRuntime ⊢
      generalize b.runtimeCode = after at hRuntime hMember
      cases hRuntime with
      | none =>
          cases hMember
      | some hCode =>
          exact exists_mem_of_rel (fun _ => LinkedEntry hashes)
            hCode.data hMember

/- The entry of a key is linked from the entry of that key. -/
theorem linkedEntry_of_mem
    (hLinked : LinkedAssembly owner hashes a b)
    (hDistinct : a.ReferencesDistinct)
    {s : Section}
    {key : Text}
    {x y : DataEntry}
    (hBefore : (key, x) ∈ a.entries s)
    (hAfter : (key, y) ∈ b.entries s) :
    LinkedEntry hashes x y := by
  rcases hLinked.exists_entry hAfter with
    ⟨z, hEntry, hRelated⟩
  have hSame : (key, z) = (key, x) :=
    List.inj_on_of_nodup_map (hDistinct.nodup_entries s)
      hEntry hBefore rfl
  cases hSame
  exact hRelated

/- A path in the linked data is an entry of the deploy section. -/
theorem mem_entries_of_path
    (hLinked : LinkedAssembly owner hashes a b)
    {key path : Text}
    (hMember : (key, DataEntry.path path) ∈ b.data.getD []) :
    (key, DataEntry.path path) ∈ b.entries .deploy := by
  refine Assembly.mem_entries_deploy_iff.mpr ⟨hMember, ?_⟩
  intro hKey
  rcases hLinked.exists_data hMember with ⟨x, -, hRelated⟩
  rw [if_pos hKey] at hRelated
  cases hRelated

end LinkedAssembly

/- A path in a section stands for some content hash. -/
theorem LinkedEntry.exists_hash
    {hashes : Dictionary Text}
    {x : DataEntry}
    {path : Text}
    (hLinked : LinkedEntry hashes x (.path path)) :
    ∃ hash, hashes.get? hash = some path := by
  cases hLinked with
  | nested hKnown => exact ⟨_, hKnown⟩
  | known hKnown => exact ⟨_, hKnown⟩

------------------------------------------------------------
-- Listings Of Both Sections
------------------------------------------------------------

namespace Assembly

/- The instructions of a section. -/
def listing (a : Assembly) : Section → Option (List Instruction)
  | .deploy => a.code
  | .runtime => a.runtimeCode.bind Assembly.code

/- A contract whose path an assembly holds in its data. -/
def HasPath (a : Assembly) (path : Text) : Prop :=
  (∃ key, (key, DataEntry.path path) ∈ a.data.getD []) ∨
    ∃ key, (key, DataEntry.path path) ∈ a.entries .runtime

end Assembly

namespace LinkedAssembly

variable {owner : Text} {hashes : Dictionary Text} {a b : Assembly}

theorem linkedListing
    (hLinked : LinkedAssembly owner hashes a b)
    (s : Section) :
    LinkedListing hashes (a.entries s) (a.listing s) (b.listing s) := by
  cases s with
  | deploy =>
      exact hLinked.code
  | runtime =>
      have hRuntime := hLinked.rel_runtimeCode
      unfold Assembly.entries Assembly.listing
      generalize a.runtimeCode = before at hRuntime ⊢
      generalize b.runtimeCode = after at hRuntime ⊢
      cases hRuntime with
      | none => exact Option.Rel.none
      | some hCode => exact hCode.code

/- A path in the data stands for some content hash. -/
theorem exists_hash_of_hasPath
    (hLinked : LinkedAssembly owner hashes a b)
    {path : Text}
    (hPath : b.HasPath path) :
    ∃ hash, hashes.get? hash = some path := by
  have hEntry :
      ∃ s key, (key, DataEntry.path path) ∈ b.entries s := by
    rcases hPath with ⟨key, hDeploy⟩ | ⟨key, hRuntime⟩
    · exact ⟨.deploy, key, hLinked.mem_entries_of_path hDeploy⟩
    · exact ⟨.runtime, key, hRuntime⟩
  rcases hEntry with ⟨s, key, hMember⟩
  rcases hLinked.exists_entry hMember with ⟨x, -, hRelated⟩
  exact hRelated.exists_hash

end LinkedAssembly

end ContractLinker
