import Mathlib.Data.List.Sort
import ContractLinker.Proofs.Json.Decoding

/-
  The schema of reports. A schema says which values are read
  and what is kept of them: a record loses the members it does
  not know, and integers are written as integers. Over values
  in key order, what a schema says about an object is what it
  says about each of its fields.

  Key definitions include:
    * `Schema`
    * `Field`
    * `Json.fits`
    * `Json.canonical`
    * `Field.Fits`
    * `Field.canonical`
    * `Report.schema`

  Main statements:
    * `Dictionary.ext_get?`
    * `Json.fits_record_iff`
    * `Json.canonical_record`
-/

------------------------------------------------------------
-- Schemas
------------------------------------------------------------

namespace ContractLinker

/-
  Whether a field has to be there. The value `null` of a
  nullable field is as good as no value.
-/
inductive Presence where
  | required
  | optional
  | nullable
deriving DecidableEq

mutual

/-
  What a value has to be. The entries of a data section are
  texts or assemblies, whose fields are `Assembly.fields`.
-/
inductive Schema where
  | any
  | text
  | signed
  | unsigned
  | list (item : Schema)
  | table (value : Schema)
  | record (fields : List (Text × Field))
  | dataEntry

/- A field of a record. -/
structure Field where
  presence : Presence
  schema : Schema

end

namespace Field

def required (schema : Schema) : Field :=
  ⟨.required, schema⟩

def optional (schema : Schema) : Field :=
  ⟨.optional, schema⟩

def nullable (schema : Schema) : Field :=
  ⟨.nullable, schema⟩

/- Whether a value counts as none. -/
def ignores (field : Field) (j : Json) : Bool :=
  decide (field.presence = .nullable) && decide (j = .null)

/- Whether all required fields are among some members. -/
def allPresent (fields : Dictionary Field)
    (members : Dictionary Json) : Bool :=
  fields.all fun entry =>
    decide (entry.2.presence ≠ .required) || members.contains entry.1

end Field

------------------------------------------------------------
-- The Schema Of Reports
------------------------------------------------------------

def Instruction.schema : Schema :=
  .record
    [ (ascii "begin", .optional .signed),
      (ascii "end", .optional .signed),
      (ascii "jumpType", .optional .text),
      (ascii "name", .required .text),
      (ascii "source", .optional .signed),
      (ascii "value", .optional .text) ]

def Assembly.fields : Dictionary Field :=
  [ (ascii ".auxdata", .optional .text),
    (ascii ".code", .optional (.list Instruction.schema)),
    (ascii ".data", .optional (.table .dataEntry)) ]

/- The values under `any` are taken over as they are. -/
def MachineOutput.schema : Schema :=
  .record
    [ (ascii "assembly", .optional .text),
      (ascii "bytecode", .optional .any),
      (ascii "deployedBytecode", .optional .any),
      (ascii "legacyAssembly", .nullable (.record Assembly.fields)),
      (ascii "methodIdentifiers", .optional .any) ]

def Contract.schema : Schema :=
  .record
    [ (ascii "abi", .optional .any),
      (ascii "devdoc", .optional .any),
      (ascii "evm", .optional MachineOutput.schema),
      (ascii "factoryDependencies", .optional (.table .text)),
      (ascii "hash", .optional .text),
      (ascii "irOptimized", .optional .text),
      (ascii "metadata", .optional .any),
      (ascii "storageLayout", .optional .any),
      (ascii "userdoc", .optional .any) ]

def SourceLocation.schema : Schema :=
  .record
    [ (ascii "end", .required .signed),
      (ascii "file", .required .text),
      (ascii "start", .required .signed) ]

def Diagnostic.schema : Schema :=
  .record
    [ (ascii "component", .required .text),
      (ascii "errorCode", .optional .text),
      (ascii "formattedMessage", .required .text),
      (ascii "message", .required .text),
      (ascii "severity", .required .text),
      (ascii "sourceLocation", .optional SourceLocation.schema),
      (ascii "type", .required .text) ]

def Source.schema : Schema :=
  .record
    [ (ascii "ast", .optional .any),
      (ascii "id", .optional .unsigned) ]

def Report.schema : Schema :=
  .record
    [ (ascii "contracts", .optional (.table (.table Contract.schema))),
      (ascii "errors", .optional (.list Diagnostic.schema)),
      (ascii "long_version", .optional .text),
      (ascii "sources", .optional (.table Source.schema)),
      (ascii "version", .optional .text),
      (ascii "zk_version", .optional .text) ]

------------------------------------------------------------
-- Values And Schemas
------------------------------------------------------------

namespace Json

/- Whether a number is a signed integer of 64 bits. -/
def isSigned (j : Json) : Bool :=
  match j.integral? with
  | some n =>
      decide (-9223372036854775808 ≤ n ∧ n ≤ 9223372036854775807)
  | none => false

/- Whether a number is an unsigned integer of 64 bits. -/
def isUnsigned (j : Json) : Bool :=
  match j.integral? with
  | some n => decide (0 ≤ n ∧ n ≤ 18446744073709551615)
  | none => false

/- A number as an integer, if it is one. -/
def asInteger (j : Json) : Json :=
  match j.integral? with
  | some n => .int n
  | none => j

mutual

/- Whether a value is as its schema says. -/
def fits : Json → Schema → Bool
  | _, .any => true
  | .str _, .text => true
  | .int n, .signed => isSigned (.int n)
  | .double x, .signed => isSigned (.double x)
  | .int n, .unsigned => isUnsigned (.int n)
  | .double x, .unsigned => isUnsigned (.double x)
  | .arr items, .list item => fitItems items item
  | .obj members, .table value => fitValues members value
  | .obj members, .record fields =>
      Field.allPresent fields members && fitMembers members fields
  | .str _, .dataEntry => true
  | .obj members, .dataEntry =>
      Field.allPresent Assembly.fields members &&
        fitMembers members Assembly.fields
  | _, _ => false
termination_by structural j => j

def fitItems : List Json → Schema → Bool
  | [], _ => true
  | j :: rest, item => fits j item && fitItems rest item
termination_by structural items => items

def fitValues : List (Text × Json) → Schema → Bool
  | [], _ => true
  | (_, j) :: rest, value => fits j value && fitValues rest value
termination_by structural members => members

def fitMembers :
    List (Text × Json) → List (Text × Field) → Bool
  | [], _ => true
  | (name, j) :: rest, fields =>
      (match Dictionary.get? name fields with
        | none => true
        | some field => field.ignores j || fits j field.schema) &&
        fitMembers rest fields
termination_by structural members => members

end

mutual

/-
  What is kept of a value that fits a schema. Of a record,
  members which are no fields and ignored values are left
  out; a number under an integer schema becomes an integer.
-/
def canonical : Json → Schema → Json
  | .int n, .signed => asInteger (.int n)
  | .double x, .signed => asInteger (.double x)
  | .int n, .unsigned => asInteger (.int n)
  | .double x, .unsigned => asInteger (.double x)
  | .arr items, .list item => .arr (canonicalItems items item)
  | .obj members, .table value => .obj (canonicalValues members value)
  | .obj members, .record fields =>
      .obj (canonicalMembers members fields)
  | .obj members, .dataEntry =>
      .obj (canonicalMembers members Assembly.fields)
  | j, _ => j
termination_by structural j => j

def canonicalItems : List Json → Schema → List Json
  | [], _ => []
  | j :: rest, item => canonical j item :: canonicalItems rest item
termination_by structural items => items

def canonicalValues :
    List (Text × Json) → Schema → List (Text × Json)
  | [], _ => []
  | (key, j) :: rest, value =>
      (key, canonical j value) :: canonicalValues rest value
termination_by structural members => members

def canonicalMembers :
    List (Text × Json) → List (Text × Field) → List (Text × Json)
  | [], _ => []
  | (name, j) :: rest, fields =>
      match Dictionary.get? name fields with
      | none => canonicalMembers rest fields
      | some field =>
          if field.ignores j then
            canonicalMembers rest fields
          else
            (name, canonical j field.schema) ::
              canonicalMembers rest fields
termination_by structural members => members

end

theorem fits_any
    (j : Json) :
    j.fits .any = true := by
  cases j <;> rfl

theorem canonical_any
    (j : Json) :
    j.canonical .any = j := by
  cases j <;> rfl

/- An object is an entry of a data section if it is an assembly. -/
theorem fits_dataEntry_obj
    (members : List (Text × Json)) :
    (Json.obj members).fits .dataEntry =
      (Json.obj members).fits (.record Assembly.fields) := by
  rw [fits, fits]

theorem canonical_dataEntry_obj
    (members : List (Text × Json)) :
    (Json.obj members).canonical .dataEntry =
      (Json.obj members).canonical (.record Assembly.fields) := by
  rw [canonical, canonical]

theorem fits_signed
    (j : Json) :
    j.fits .signed = j.isSigned := by
  cases j <;> rfl

theorem canonical_signed
    (j : Json) :
    j.canonical .signed = j.asInteger := by
  cases j <;> rfl

theorem fits_unsigned
    (j : Json) :
    j.fits .unsigned = j.isUnsigned := by
  cases j <;> rfl

theorem canonical_unsigned
    (j : Json) :
    j.canonical .unsigned = j.asInteger := by
  cases j <;> rfl

end Json

------------------------------------------------------------
-- Fields
------------------------------------------------------------

namespace Field

/- Whether a member, which may be absent, is as its field says. -/
def Fits (field : Field) : Option Json → Prop
  | none => field.presence ≠ .required
  | some j => field.ignores j = true ∨ j.fits field.schema = true

/- What is kept of a member, which may be absent. -/
def canonical (field : Field) : Option Json → Option Json
  | none => none
  | some j =>
      if field.ignores j then none else some (j.canonical field.schema)

/- Opaque members are arbitrary and taken over as they are. -/
theorem fits_optional_any
    (value : Option Json) :
    (optional .any).Fits value := by
  cases value with
  | none => exact Presence.noConfusion
  | some j => exact Or.inr j.fits_any

theorem canonical_optional_any
    (value : Option Json) :
    (optional .any).canonical value = value := by
  cases value with
  | none => rfl
  | some j => exact congrArg some j.canonical_any

theorem allPresent_iff
    {fields : Dictionary Field}
    {members : Dictionary Json} :
    allPresent fields members = true ↔
      ∀ entry ∈ fields,
        Dictionary.get? entry.1 members = none →
          entry.2.presence ≠ .required := by
  unfold allPresent
  rw [List.all_eq_true]
  apply forall₂_congr
  intro entry hEntry
  cases hFound : Dictionary.get? entry.1 members with
  | none => simp [Dictionary.contains, hFound]
  | some j => simp [Dictionary.contains, hFound]

end Field

namespace Json

theorem fitMembers_iff
    {members : List (Text × Json)}
    {fields : List (Text × Field)} :
    fitMembers members fields = true ↔
      ∀ name j, (name, j) ∈ members →
        ∀ field, Dictionary.get? name fields = some field →
          field.Fits (some j) := by
  induction members with
  | nil =>
      simp [fitMembers]
  | cons member members ih =>
      rcases member with ⟨name, j⟩
      have hHead :
          (match Dictionary.get? name fields with
            | none => true
            | some field => field.ignores j || fits j field.schema) =
              true ↔
            ∀ field, Dictionary.get? name fields = some field →
              field.Fits (some j) := by
        cases Dictionary.get? name fields with
        | none => simp
        | some field => simp [Field.Fits]
      rw [fitMembers, Bool.and_eq_true, ih, hHead]
      constructor
      · intro hBoth key i hMember
        rcases List.mem_cons.mp hMember with hEq | hRest
        · cases hEq
          exact hBoth.1
        · exact hBoth.2 key i hRest
      · intro hAll
        constructor
        · exact hAll name j List.mem_cons_self
        · intro key i hMember
          exact hAll key i (List.mem_cons_of_mem _ hMember)

/- An object fits a record if its members are as the fields say. -/
theorem fits_record_iff
    {members : Dictionary Json}
    (hMembers : members.Ordered)
    {fields : Dictionary Field}
    (hFields : fields.Ordered) :
    (Json.obj members).fits (.record fields) = true ↔
      ∀ entry ∈ fields,
        entry.2.Fits (Dictionary.get? entry.1 members) := by
  rw [fits, Bool.and_eq_true, Field.allPresent_iff, fitMembers_iff]
  constructor
  · intro hBoth entry hEntry
    rcases hBoth with ⟨hPresent, hFit⟩
    cases hFound : Dictionary.get? entry.1 members with
    | none => exact hPresent entry hEntry hFound
    | some j =>
        exact hFit entry.1 j (Dictionary.mem_of_get? hFound) entry.2
          ((Dictionary.get?_eq_some_iff hFields).mpr hEntry)
  · intro hAll
    constructor
    · intro entry hEntry hAbsent
      have hEmpty := hAll entry hEntry
      rw [hAbsent] at hEmpty
      exact hEmpty
    · intro name j hMember field hField
      have hPresent := hAll (name, field) (Dictionary.mem_of_get? hField)
      rw [(Dictionary.get?_eq_some_iff hMembers).mpr hMember] at hPresent
      exact hPresent

/- Members which are kept are members of the object, in order. -/
theorem sublist_canonicalMembers
    (members : List (Text × Json))
    (fields : List (Text × Field)) :
    ((canonicalMembers members fields).map Prod.fst).Sublist
      (members.map Prod.fst) := by
  induction members with
  | nil =>
      exact List.Sublist.slnil
  | cons member members ih =>
      rcases member with ⟨name, j⟩
      rw [canonicalMembers]
      split
      · exact ih.cons name
      · split
        · exact ih.cons name
        · exact ih.cons_cons name

/- What is kept under the name of a member. -/
theorem get?_canonicalMembers
    {members : List (Text × Json)}
    (hKeys : (members.map Prod.fst).Nodup)
    (fields : List (Text × Field))
    (name : Text) :
    Dictionary.get? name (canonicalMembers members fields) =
      (Dictionary.get? name fields).bind fun field =>
        field.canonical (Dictionary.get? name members) := by
  induction members with
  | nil =>
      cases Dictionary.get? name fields <;> rfl
  | cons member members ih =>
      rcases member with ⟨key, j⟩
      rw [List.map_cons, List.nodup_cons] at hKeys
      have hRest := ih hKeys.2
      rw [canonicalMembers, Dictionary.get?_cons]
      by_cases hKey : key = name
      · subst hKey
        have hAbsent : Dictionary.get? key members = none := by
          apply Dictionary.get?_eq_none_iff.mpr
          intro i hMember
          exact hKeys.1 (List.mem_map.mpr ⟨(key, i), hMember, rfl⟩)
        rw [if_pos rfl]
        cases hField : Dictionary.get? key fields with
        | none =>
            rw [hField] at hRest
            exact hRest
        | some field =>
            rw [hField, hAbsent] at hRest
            dsimp only [Option.bind_some, Field.canonical]
            by_cases hIgnores : field.ignores j = true
            · rw [if_pos hIgnores, if_pos hIgnores]
              exact hRest
            · rw [if_neg hIgnores, if_neg hIgnores,
                Dictionary.get?_cons, if_pos rfl]
      · rw [if_neg hKey]
        split
        · exact hRest
        · split
          · exact hRest
          · rw [Dictionary.get?_cons, if_neg hKey]
            exact hRest

end Json

namespace Dictionary

/- Ordered dictionaries in which the same is found are the same. -/
theorem ext_get?
    {α : Type}
    {d d' : Dictionary α}
    (hOrdered : d.Ordered)
    (hOrdered' : d'.Ordered)
    (hFound : ∀ key, get? key d = get? key d') :
    d = d' := by
  have hIrrefl :
      Std.Irrefl fun x y : Text × α => x.1 < y.1 :=
    ⟨fun x => List.lt_irrefl x.1⟩
  have hAntisymm :
      Std.Antisymm fun x y : Text × α => x.1 < y.1 :=
    ⟨fun x y hLess hMore => absurd hMore (List.lt_asymm hLess)⟩
  apply List.Pairwise.eq_of_mem_iff hOrdered hOrdered'
  intro entry
  rw [← get?_eq_some_iff hOrdered, ← get?_eq_some_iff hOrdered',
    hFound]

end Dictionary

namespace Json

/- The present members of an ordered list are in order. -/
theorem ordered_of_object_eq
    {members : Dictionary (Option Json)}
    (hOrdered : members.Ordered)
    {kept : Dictionary Json}
    (hObject : object members = .obj kept) :
    kept.Ordered := by
  cases hObject
  unfold Dictionary.Ordered
  rw [List.pairwise_filterMap]
  apply hOrdered.imp
  intro x y hLess m hFirst m' hSecond
  rcases Option.map_eq_some_iff.mp hFirst with ⟨j, -, rfl⟩
  rcases Option.map_eq_some_iff.mp hSecond with ⟨j', -, rfl⟩
  exact hLess

/- What is kept of an object are its fields, in order. -/
theorem canonical_record
    {members : Dictionary Json}
    (hMembers : members.Ordered)
    {fields : Dictionary Field}
    (hFields : fields.Ordered) :
    (Json.obj members).canonical (.record fields) =
      object
        (Dictionary.mapValues
          (fun name field =>
            field.canonical (Dictionary.get? name members))
          fields) := by
  generalize hValues :
    Dictionary.mapValues
      (fun name field =>
        field.canonical (Dictionary.get? name members)) fields =
      values
  have hOrdered : values.Ordered := by
    rw [← hValues]
    exact Dictionary.ordered_of_keys_eq
      (Dictionary.map_fst_mapValues _ fields) hFields
  have hKept :
      Dictionary.Ordered (canonicalMembers members fields) := by
    have hKeys : (members.map Prod.fst).Pairwise (· < ·) :=
      List.pairwise_map.mpr hMembers
    exact List.pairwise_map.mp
      (hKeys.sublist (sublist_canonicalMembers members fields))
  have hFound :
      ∀ name,
        Dictionary.get? name (canonicalMembers members fields) =
          (object values).member? name := by
    intro name
    rw [get?_canonicalMembers hMembers.nodup,
      member?_object hOrdered.nodup, ← hValues,
      Dictionary.get?_mapValues]
    cases Dictionary.get? name fields <;> rfl
  rw [canonical]
  cases hObject : object values with
  | obj kept =>
      rw [hObject] at hFound
      exact congrArg Json.obj
        (Dictionary.ext_get? hKept
          (ordered_of_object_eq hOrdered hObject) hFound)
  | null | bool _ | int _ | double _ | str _ | arr _ =>
      cases hObject

end Json

end ContractLinker
