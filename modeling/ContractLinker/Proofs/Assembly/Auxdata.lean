import ContractLinker.Proofs.Assembly.Sections

/-
  Linking and auxiliary data. An assembly may be stripped of
  its auxiliary data at every depth. This changes neither its
  content hash nor what linking does to it: it comes to the
  same whether an assembly is stripped before it is linked
  or afterwards.

  Key definitions include:
    * `DataEntry.withoutAuxdata`
    * `Assembly.withoutAuxdata`

  Main statements:
    * `Assembly.contentHash_withoutAuxdata`
    * `Assembly.linked_withoutAuxdata`
    * `Assembly.resolve_withoutAuxdata`
-/

------------------------------------------------------------
-- Assemblies Without Auxiliary Data
------------------------------------------------------------

namespace ContractLinker

mutual

/- An entry without the auxiliary data inside. -/
def DataEntry.withoutAuxdata : DataEntry → DataEntry
  | .nested a => .nested (Assembly.withoutAuxdata a)
  | .hash text => .hash text
  | .path text => .path text
termination_by structural e => e

/- An assembly without auxiliary data, its own or further inside. -/
def Assembly.withoutAuxdata : Assembly → Assembly
  | ⟨fullPath, code, data, _, factoryDependencies⟩ =>
      { fullPath := fullPath
        code := code
        data := dataWithoutAuxdata data
        auxdata := none
        factoryDependencies := factoryDependencies }
termination_by structural a => a

/- A data section without auxiliary data. -/
def dataWithoutAuxdata :
    Option (List (Text × DataEntry)) →
      Option (List (Text × DataEntry))
  | none => none
  | some entries => some (entriesWithoutAuxdata entries)
termination_by structural d => d

/- Entries without auxiliary data, under their keys. -/
def entriesWithoutAuxdata :
    List (Text × DataEntry) → List (Text × DataEntry)
  | [] => []
  | (key, entry) :: rest =>
      (key, entry.withoutAuxdata) :: entriesWithoutAuxdata rest
termination_by structural entries => entries

end

/- The entries of a section are stripped one by one. -/
theorem entriesWithoutAuxdata_eq
    (entries : List (Text × DataEntry)) :
    entriesWithoutAuxdata entries =
      Dictionary.mapValues
        (fun _ entry => entry.withoutAuxdata) entries := by
  induction entries with
  | nil =>
      rfl
  | cons first entries ih =>
      rcases first with ⟨key, entry⟩
      rw [entriesWithoutAuxdata, ih, Dictionary.mapValues_cons]

namespace Assembly

/- Besides its own auxiliary data only the entries change. -/
theorem withoutAuxdata_eq
    (a : Assembly) :
    a.withoutAuxdata =
      { a with
        data :=
          a.data.map
            (Dictionary.mapValues fun _ entry => entry.withoutAuxdata)
        auxdata := none } := by
  rcases a with ⟨fullPath, code, data, auxdata, dependencies⟩
  rw [withoutAuxdata]
  cases data with
  | none => rfl
  | some entries => rw [dataWithoutAuxdata, entriesWithoutAuxdata_eq]; rfl

theorem data_withoutAuxdata
    (a : Assembly) :
    a.withoutAuxdata.data =
      a.data.map
        (Dictionary.mapValues fun _ entry => entry.withoutAuxdata) := by
  rw [withoutAuxdata_eq]

end Assembly

------------------------------------------------------------
-- Content Hashes
------------------------------------------------------------

mutual

theorem DataEntry.encode_withoutAuxdata :
    ∀ e : DataEntry,
      e.withoutAuxdata.encode false = e.encode false
  | .nested a => by
      rw [DataEntry.withoutAuxdata, DataEntry.encode, DataEntry.encode]
      exact Assembly.encode_withoutAuxdata a
  | .hash text => rfl
  | .path text => rfl
termination_by structural e => e

/- The canonical form has no auxiliary data at any depth. -/
theorem Assembly.encode_withoutAuxdata :
    ∀ a : Assembly,
      a.withoutAuxdata.encode false = a.encode false
  | ⟨_, code, data, auxdata, _⟩ => by
      rw [Assembly.withoutAuxdata, Assembly.encode, Assembly.encode,
        encodeData_withoutAuxdata data]
      rfl
termination_by structural a => a

theorem encodeData_withoutAuxdata :
    ∀ data : Option (List (Text × DataEntry)),
      encodeData false (dataWithoutAuxdata data) =
        encodeData false data
  | none => rfl
  | some entries => by
      rw [dataWithoutAuxdata, encodeData, encodeData,
        encodeEntries_withoutAuxdata entries]
termination_by structural data => data

theorem encodeEntries_withoutAuxdata :
    ∀ entries : List (Text × DataEntry),
      encodeEntries false (entriesWithoutAuxdata entries) =
        encodeEntries false entries
  | [] => rfl
  | (key, entry) :: rest => by
      rw [entriesWithoutAuxdata, encodeEntries, encodeEntries,
        DataEntry.encode_withoutAuxdata entry,
        encodeEntries_withoutAuxdata rest]
termination_by structural entries => entries

end

theorem Assembly.contentHash_withoutAuxdata
    (a : Assembly) :
    a.withoutAuxdata.contentHash = a.contentHash := by
  unfold contentHash canonicalText
  rw [encode_withoutAuxdata]

------------------------------------------------------------
-- Entries Of Both Sections
------------------------------------------------------------

namespace DataEntry

variable (hashes : Dictionary Text)

theorem target?_withoutAuxdata
    (e : DataEntry) :
    e.withoutAuxdata.target? hashes = e.target? hashes := by
  cases e with
  | nested a =>
      rw [withoutAuxdata, target?, target?,
        Assembly.contentHash_withoutAuxdata]
  | hash text => rfl
  | path text => rfl

theorem unknown?_withoutAuxdata
    (e : DataEntry) :
    e.withoutAuxdata.unknown? hashes = e.unknown? hashes := by
  cases e with
  | nested a =>
      rw [withoutAuxdata, unknown?, unknown?,
        Assembly.contentHash_withoutAuxdata]
  | hash text => rfl
  | path text => rfl

/- Whether an entry is an assembly does not change. -/
theorem nested?_withoutAuxdata
    (e : DataEntry) :
    e.withoutAuxdata.nested? =
      e.nested?.map Assembly.withoutAuxdata := by
  cases e with
  | nested a => rfl
  | hash text => rfl
  | path text => rfl

end DataEntry

namespace Assembly

theorem runtimeCode_withoutAuxdata
    (a : Assembly) :
    a.withoutAuxdata.runtimeCode =
      a.runtimeCode.map withoutAuxdata := by
  unfold runtimeCode
  rw [data_withoutAuxdata]
  cases a.data with
  | none =>
      rfl
  | some data =>
      dsimp only [Option.map_some]
      rw [Dictionary.get?_mapValues, Option.map_bind, Option.bind_map]
      congr 1
      funext entry
      exact DataEntry.nested?_withoutAuxdata entry

theorem entries_withoutAuxdata
    (a : Assembly)
    (s : Section) :
    a.withoutAuxdata.entries s =
      Dictionary.mapValues
        (fun _ entry => entry.withoutAuxdata) (a.entries s) := by
  cases s with
  | deploy =>
      rw [entries, entries, data_withoutAuxdata]
      cases a.data with
      | none =>
          rfl
      | some data =>
          unfold Dictionary.mapValues
          rw [Option.map_some, Option.getD_some, List.filter_map]
          rfl
  | runtime =>
      rw [entries, entries, runtimeCode_withoutAuxdata]
      cases a.runtimeCode with
      | none =>
          rfl
      | some r =>
          rw [Option.map_some, Option.bind_some, data_withoutAuxdata,
            Option.bind_some]
          cases r.data with
          | none => rfl
          | some data => rfl

variable (hashes : Dictionary Text)

theorem firstUnknown?_withoutAuxdata
    (entries : List (Text × DataEntry)) :
    firstUnknown? hashes
        (Dictionary.mapValues
          (fun _ entry => entry.withoutAuxdata) entries) =
      firstUnknown? hashes entries := by
  unfold firstUnknown? Dictionary.mapValues
  rw [List.findSome?_map]
  congr 1
  funext entry
  exact DataEntry.unknown?_withoutAuxdata hashes entry.2

theorem mapping_withoutAuxdata
    (a : Assembly)
    (s : Section) :
    a.withoutAuxdata.mapping hashes s = a.mapping hashes s := by
  rw [mapping, mapping, entries_withoutAuxdata, extend, extend,
    Dictionary.mapValues, List.foldl_map]
  congr 1
  funext found entry
  rw [DataEntry.target?_withoutAuxdata]

------------------------------------------------------------
-- Linking
------------------------------------------------------------

theorem linkEntry_withoutAuxdata
    (found : Dictionary Text)
    (key : Text)
    (entry : DataEntry) :
    linkEntry found key entry.withoutAuxdata =
      (linkEntry found key entry).withoutAuxdata := by
  unfold linkEntry
  cases linkedPath? found key with
  | none => rfl
  | some path => rfl

/- Linking a section looks at no auxiliary data. -/
theorem link_withoutAuxdata
    (found : Dictionary Text)
    (a : Assembly) :
    link found a.withoutAuxdata = (link found a).withoutAuxdata := by
  rw [withoutAuxdata_eq, withoutAuxdata_eq]
  unfold link
  dsimp only
  cases a.data with
  | none =>
      rfl
  | some data =>
      have hData :
          Dictionary.mapValues (linkEntry found)
              (Dictionary.mapValues
                (fun _ entry => entry.withoutAuxdata) data) =
            Dictionary.mapValues
              (fun _ entry => entry.withoutAuxdata)
              (Dictionary.mapValues (linkEntry found) data) := by
        simp only [Dictionary.mapValues, List.map_map,
          Function.comp_def, linkEntry_withoutAuxdata]
      have hPaths :
          ((Dictionary.mapValues
              (fun _ entry => entry.withoutAuxdata) data).filterMap
                fun entry => linkedPath? found entry.1) =
            data.filterMap fun entry => linkedPath? found entry.1 := by
        simp only [Dictionary.mapValues, List.filterMap_map,
          Function.comp_def]
      simp only [Option.map_some, Option.getD_some, hData, hPaths]

theorem setFullPath_withoutAuxdata
    (path : Text)
    (a : Assembly) :
    setFullPath path a.withoutAuxdata =
      (setFullPath path a).withoutAuxdata := by
  rw [withoutAuxdata_eq, withoutAuxdata_eq]
  rfl

theorem addFactoryDependencies_withoutAuxdata
    (paths : List Text)
    (a : Assembly) :
    addFactoryDependencies paths a.withoutAuxdata =
      (addFactoryDependencies paths a).withoutAuxdata := by
  rw [withoutAuxdata_eq, withoutAuxdata_eq]
  rfl

/- The runtime code may be replaced before or afterwards. -/
theorem mapRuntimeCode_withoutAuxdata
    (runtime a : Assembly) :
    mapRuntimeCode (fun _ => runtime.withoutAuxdata)
        a.withoutAuxdata =
      (mapRuntimeCode (fun _ => runtime) a).withoutAuxdata := by
  rw [withoutAuxdata_eq a, withoutAuxdata_eq (mapRuntimeCode _ a)]
  unfold mapRuntimeCode
  dsimp only
  rw [Option.map_map, Option.map_map, Dictionary.mapValues_comp,
    Dictionary.mapValues_comp]
  congr 3
  funext key entry
  cases entry with
  | nested b =>
      dsimp only [DataEntry.withoutAuxdata]
      split <;> rfl
  | hash text => rfl
  | path text => rfl

theorem linkRuntime_withoutAuxdata
    (path : Text)
    (found : Dictionary Text)
    (a : Assembly) :
    linkRuntime path found a.withoutAuxdata =
      (linkRuntime path found a).withoutAuxdata := by
  unfold linkRuntime
  rw [runtimeCode_withoutAuxdata]
  cases a.runtimeCode with
  | none =>
      rfl
  | some r =>
      dsimp only [Option.map_some]
      rw [setFullPath_withoutAuxdata, link_withoutAuxdata,
        mapRuntimeCode_withoutAuxdata,
        addFactoryDependencies_withoutAuxdata]
      rw [withoutAuxdata_eq (link _ _)]

/- The mappings are the same, and both sections ignore the rest. -/
theorem linked_withoutAuxdata
    (path : Text)
    (a : Assembly) :
    a.withoutAuxdata.linked path hashes =
      (a.linked path hashes).withoutAuxdata := by
  unfold linked
  rw [mapping_withoutAuxdata, mapping_withoutAuxdata,
    setFullPath_withoutAuxdata, link_withoutAuxdata,
    linkRuntime_withoutAuxdata]

/-
  Resolution of a stripped assembly fails as that of the
  assembly itself does, or gives the stripped result.
-/
theorem resolve_withoutAuxdata
    (path : Text)
    (a : Assembly) :
    a.withoutAuxdata.resolve path hashes =
      (a.resolve path hashes).map withoutAuxdata := by
  rw [resolve_eq, resolve_eq, firstUnknown?_append,
    firstUnknown?_append, entries_withoutAuxdata,
    entries_withoutAuxdata, firstUnknown?_withoutAuxdata,
    firstUnknown?_withoutAuxdata, linked_withoutAuxdata]
  cases (firstUnknown? hashes (a.entries .deploy)).or
      (firstUnknown? hashes (a.entries .runtime)) with
  | some unknown => rfl
  | none => rfl

end Assembly

end ContractLinker
