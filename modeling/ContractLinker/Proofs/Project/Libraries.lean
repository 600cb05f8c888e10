import ContractLinker.Project.Libraries
import ContractLinker.Proofs.Report.Schema
import ContractLinker.Proofs.Text.Cutting
import ContractLinker.Proofs.Text.Hex
import ContractLinker.Proofs.Traversal
import Mathlib.Data.List.Induction

/-
  Specifications of libraries. A specification is read just
  if it is that of a library, with white space around it, and
  there is but one such library. A table holds the address
  which the last specification of a library gives it, and the
  specifications of its libraries are read as the table.

  Key definitions include:
    * `Libraries.IsAddress`
    * `Libraries.Entry.render`
    * `Libraries.Specifies`
    * `Libraries.address?`
    * `Libraries.WellFormed`
    * `Libraries.entries`

  Main statements:
    * `Libraries.Entry.parse_eq_ok_iff_specifies`
    * `Libraries.ext_address?`
    * `Libraries.address?_foldl_add`
    * `Libraries.parse_specifications`
-/

------------------------------------------------------------
-- Specifications
------------------------------------------------------------

namespace ContractLinker

namespace Libraries

/- The hexadecimal mark and forty digits. -/
def IsAddress (s : Text) : Prop :=
  ∃ digits, s = Hex.mark ++ digits ∧ digits.length = 40 ∧
    Hex.AllDigits digits

namespace Entry

/- A library which can be specified. -/
structure Valid (e : Entry) : Prop where
  file : e.file ≠ []
  name : e.name ≠ []
  colon : ':'.toUInt8 ∉ e.name
  address : IsAddress e.address

/- The specification of a library. -/
def render (e : Entry) : Text :=
  e.file ++ ':'.toUInt8 :: (e.name ++ '='.toUInt8 :: e.address)

end Entry

/- A text specifies a library, after the white space at its ends. -/
def Specifies (s : Text) (e : Entry) : Prop :=
  e.Valid ∧ Text.Trimmed e.render ∧
    ∃ front back, Text.AllBlank front ∧ Text.AllBlank back ∧
      s = front ++ (e.render ++ back)

/- A text with a colon inside, behind which there is no other one. -/
def IsPath (s : Text) : Prop :=
  ∃ file name, s = file ++ ':'.toUInt8 :: name ∧
    ':'.toUInt8 ∉ name ∧ file ≠ [] ∧ name ≠ []

/- What an error says about the specification it is for. -/
inductive Blames : LibraryError → Text → Prop where
  | missingAddress {s : Text}
      (hAbsent : '='.toUInt8 ∉ s.trim) :
      Blames (.missingAddress s) s
  | malformed {s path address : Text}
      (hText : s.trim = path ++ '='.toUInt8 :: address)
      (hLast : '='.toUInt8 ∉ address)
      (hPath : ¬ IsPath path) :
      Blames (.malformed s) s
  | invalidAddress {s path address : Text}
      (hText : s.trim = path ++ '='.toUInt8 :: address)
      (hLast : '='.toUInt8 ∉ address)
      (hPath : IsPath path)
      (hAddress : ¬ IsAddress address) :
      Blames (.invalidAddress address path) s

------------------------------------------------------------
-- Addresses
------------------------------------------------------------

theorem digit_other :
    ∀ b : UInt8, (Hex.value? b).isSome →
      b ≠ '='.toUInt8 ∧ Text.isBlank b = false := by
  apply Utf8.forall_byte
  decide +kernel

theorem isAddress_iff
    {s : Text} :
    isAddress s = true ↔ IsAddress s := by
  unfold isAddress
  rw [Bool.and_eq_true, Bool.and_eq_true, decide_eq_true_iff]
  constructor
  · rintro ⟨⟨hMark, hLength⟩, hNumeral⟩
    rcases List.isPrefixOf_iff_prefix.mp hMark with ⟨digits, rfl⟩
    have hForty : digits.length = 40 := by
      rw [List.length_append] at hLength
      exact Nat.add_left_cancel hLength
    refine ⟨digits, rfl, hForty, ?_⟩
    unfold Hex.isNumeral Hex.dropMark at hNumeral
    rw [if_pos hMark, List.drop_left, Bool.and_eq_true,
      List.all_eq_true] at hNumeral
    exact hNumeral.2
  · rintro ⟨digits, rfl, hForty, hDigits⟩
    have hMark : Hex.mark.isPrefixOf (Hex.mark ++ digits) = true :=
      List.isPrefixOf_iff_prefix.mpr ⟨digits, rfl⟩
    refine ⟨⟨hMark, ?_⟩, ?_⟩
    · rw [List.length_append, hForty]
      rfl
    · unfold Hex.isNumeral Hex.dropMark
      rw [if_pos hMark, List.drop_left, Bool.and_eq_true,
        List.all_eq_true]
      refine ⟨?_, hDigits⟩
      cases digits with
      | nil => cases hForty
      | cons b digits => rfl

theorem IsAddress.equals_notMem
    {s : Text}
    (hAddress : IsAddress s) :
    '='.toUInt8 ∉ s := by
  rcases hAddress with ⟨digits, rfl, -, hDigits⟩
  rw [List.mem_append, not_or]
  refine ⟨by decide, ?_⟩
  intro hMember
  exact (digit_other _ (hDigits _ hMember)).1 rfl

/- A text which ends with an address does not end with white space. -/
theorem IsAddress.getLast?_append
    {s : Text}
    (hAddress : IsAddress s)
    (front : Text) :
    ∀ b ∈ (front ++ s).getLast?, Text.isBlank b = false := by
  rcases hAddress with ⟨digits, rfl, hForty, hDigits⟩
  intro b hLast
  have hSome : digits ≠ [] := by
    rintro rfl
    cases hForty
  rw [← List.append_assoc, List.getLast?_append_of_ne_nil _ hSome]
    at hLast
  exact (digit_other b (hDigits b (List.mem_of_getLast? hLast))).2

------------------------------------------------------------
-- Single Specifications
------------------------------------------------------------

/- A path is cut into a file and a name, or it is none. -/
theorem isPath_of_cutLast
    {path file name : Text}
    (hCut : path.cutLast ':'.toUInt8 = some (file, name)) :
    IsPath path ↔ file ≠ [] ∧ name ≠ [] := by
  constructor
  · rintro ⟨file', name', hText, hLast, hFile, hName⟩
    rw [Text.cutLast_eq_some_iff.mpr ⟨hText, hLast⟩] at hCut
    cases hCut
    exact ⟨hFile, hName⟩
  · rintro ⟨hFile, hName⟩
    rcases Text.cutLast_eq_some_iff.mp hCut with ⟨hText, hLast⟩
    exact ⟨file, name, hText, hLast, hFile, hName⟩

theorem not_isPath_of_cutLast
    {path : Text}
    (hCut : path.cutLast ':'.toUInt8 = none) :
    ¬ IsPath path := by
  rintro ⟨file, name, hText, hLast, -⟩
  rw [Text.cutLast_eq_some_iff.mpr ⟨hText, hLast⟩] at hCut
  cases hCut

/-
  Reading a specification either finds the library which it
  specifies or an error which says what is wrong with it.
-/
theorem Entry.parse_cases
    (s : Text) :
    (∃ e, Entry.parse s = .ok e ∧ Specifies s e) ∨
      ∃ error, Entry.parse s = .error error ∧ Blames error s := by
  unfold Entry.parse
  cases hEquals : s.trim.cutLast '='.toUInt8 with
  | none =>
      right
      exact ⟨_, rfl,
        Blames.missingAddress (Text.cutLast_eq_none_iff.mp hEquals)⟩
  | some cut =>
      rcases cut with ⟨path, address⟩
      rcases Text.cutLast_eq_some_iff.mp hEquals with ⟨hText, hLast⟩
      dsimp only
      cases hColon : path.cutLast ':'.toUInt8 with
      | none =>
          right
          exact ⟨_, rfl, Blames.malformed hText hLast
            (not_isPath_of_cutLast hColon)⟩
      | some cut =>
          rcases cut with ⟨file, name⟩
          have hPath := isPath_of_cutLast hColon
          dsimp only
          by_cases hEmpty : (file.isEmpty || name.isEmpty) = true
          · right
            rw [if_pos hEmpty]
            refine ⟨_, rfl, Blames.malformed hText hLast ?_⟩
            rw [hPath]
            rw [Bool.or_eq_true, List.isEmpty_iff, List.isEmpty_iff]
              at hEmpty
            rintro ⟨hFile, hName⟩
            rcases hEmpty with hNone | hNone
            · exact hFile hNone
            · exact hName hNone
          · rw [if_neg hEmpty]
            rw [Bool.or_eq_true, List.isEmpty_iff, List.isEmpty_iff,
              not_or] at hEmpty
            by_cases hAddress : isAddress address = true
            · left
              rw [if_pos hAddress]
              rcases Text.cutLast_eq_some_iff.mp hColon with
                ⟨rfl, hName⟩
              have hRender :
                  s.trim = Entry.render ⟨file, name, address⟩ := by
                rw [hText]
                simp [Entry.render]
              refine ⟨_, rfl,
                ⟨hEmpty.1, hEmpty.2, hName, isAddress_iff.mp hAddress⟩,
                ?_⟩
              exact Text.trim_eq_iff.mp hRender
            · right
              rw [if_neg hAddress]
              rw [isAddress_iff] at hAddress
              exact ⟨_, rfl, Blames.invalidAddress hText hLast
                (hPath.mpr hEmpty) hAddress⟩

/- A specification is read as the library which it specifies. -/
theorem Entry.parse_of_specifies
    {s : Text}
    {e : Entry}
    (hSpecifies : Specifies s e) :
    Entry.parse s = .ok e := by
  rcases hSpecifies with ⟨hValid, hTrim⟩
  have hText : s.trim = e.render := Text.trim_eq_iff.mpr hTrim
  have hEquals :
      s.trim.cutLast '='.toUInt8 =
        some (e.file ++ ':'.toUInt8 :: e.name, e.address) := by
    rw [Text.cutLast_eq_some_iff, hText]
    exact ⟨by simp [Entry.render], hValid.address.equals_notMem⟩
  have hColon :
      (e.file ++ ':'.toUInt8 :: e.name).cutLast ':'.toUInt8 =
        some (e.file, e.name) :=
    Text.cutLast_eq_some_iff.mpr ⟨rfl, hValid.colon⟩
  unfold Entry.parse
  rw [hEquals]
  dsimp only
  rw [hColon]
  dsimp only
  rw [if_neg, if_pos (isAddress_iff.mpr hValid.address)]
  rw [Bool.or_eq_true, List.isEmpty_iff, List.isEmpty_iff, not_or]
  exact ⟨hValid.file, hValid.name⟩

theorem Entry.parse_eq_ok_iff_specifies
    {s : Text}
    {e : Entry} :
    Entry.parse s = .ok e ↔ Specifies s e := by
  constructor
  · intro hParse
    rcases Entry.parse_cases s with
      ⟨e', hParse', hSpecifies⟩ | ⟨error, hParse', -⟩
    · rw [hParse] at hParse'
      cases hParse'
      exact hSpecifies
    · rw [hParse] at hParse'
      cases hParse'
  · exact Entry.parse_of_specifies

/- A text specifies one library at most. -/
theorem Specifies.unique
    {s : Text}
    {e e' : Entry}
    (hFirst : Specifies s e)
    (hSecond : Specifies s e') :
    e = e' := by
  have hParse := Entry.parse_of_specifies hFirst
  rw [Entry.parse_of_specifies hSecond] at hParse
  cases hParse
  rfl

/- An error is for a specification of no library. -/
theorem Entry.blames_of_parse
    {s : Text}
    {error : LibraryError}
    (hParse : Entry.parse s = .error error) :
    Blames error s ∧ ¬ ∃ e, Specifies s e := by
  constructor
  · rcases Entry.parse_cases s with
      ⟨e, hParse', -⟩ | ⟨error', hParse', hBlames⟩
    · rw [hParse] at hParse'
      cases hParse'
    · rw [hParse] at hParse'
      cases hParse'
      exact hBlames
  · rintro ⟨e, hSpecifies⟩
    rw [Entry.parse_of_specifies hSpecifies] at hParse
    cases hParse

------------------------------------------------------------
-- Tables
------------------------------------------------------------

/- The address of a library. -/
def address? (table : Libraries) (file name : Text) : Option Text :=
  (table.get? file).bind (Dictionary.get? name)

/- Files and names are in order, and every file has a library. -/
structure WellFormed (table : Libraries) : Prop where
  ordered : table.Ordered
  inner : ∀ file names, (file, names) ∈ table →
    names.Ordered ∧ names ≠ []

/- The libraries of a table. -/
def entries (table : Libraries) : List Entry :=
  table.flatMap fun (file, names) =>
    names.map fun (name, address) => ⟨file, name, address⟩

/- Tables with the same addresses are the same. -/
theorem ext_address?
    {table table' : Libraries}
    (hTable : table.WellFormed)
    (hTable' : table'.WellFormed)
    (hSame : ∀ file name,
      table.address? file name = table'.address? file name) :
    table = table' := by
  have hNone :
      ∀ {t t' : Libraries}, t.WellFormed →
        (∀ file name, t.address? file name = t'.address? file name) →
          ∀ file, t'.get? file = none → t.get? file = none := by
    intro t t' hFormed hAddresses file hAbsent
    cases hFound : t.get? file with
    | none => rfl
    | some names =>
        rcases hFormed.inner file names (Dictionary.mem_of_get? hFound)
          with ⟨hOrdered, hSome⟩
        rcases List.exists_cons_of_ne_nil hSome with
          ⟨⟨name, address⟩, rest, rfl⟩
        have hAddress := hAddresses file name
        unfold address? at hAddress
        rw [hFound, hAbsent, Option.bind_some, Option.bind_none,
          Dictionary.get?_cons, if_pos rfl] at hAddress
        cases hAddress
  apply Dictionary.ext_get? hTable.ordered hTable'.ordered
  intro file
  cases hFound : table.get? file with
  | none =>
      exact (hNone hTable' (fun f n => (hSame f n).symm) file hFound).symm
  | some names =>
      cases hFound' : table'.get? file with
      | none =>
          rw [hNone hTable hSame file hFound'] at hFound
          cases hFound
      | some names' =>
          have hNames :=
            hTable.inner file names (Dictionary.mem_of_get? hFound)
          have hNames' :=
            hTable'.inner file names' (Dictionary.mem_of_get? hFound')
          apply congrArg some
          apply Dictionary.ext_get? hNames.1 hNames'.1
          intro name
          have hAddress := hSame file name
          unfold address? at hAddress
          rw [hFound, hFound'] at hAddress
          exact hAddress

/- The libraries of a table are those which have an address. -/
theorem mem_entries_iff
    {table : Libraries}
    (hTable : table.WellFormed)
    {e : Entry} :
    e ∈ table.entries ↔
      table.address? e.file e.name = some e.address := by
  unfold entries address?
  rw [List.mem_flatMap, Option.bind_eq_some_iff]
  constructor
  · rintro ⟨⟨file, names⟩, hFile, hEntry⟩
    rcases List.mem_map.mp hEntry with ⟨⟨name, address⟩, hName, rfl⟩
    refine ⟨names, ?_, ?_⟩
    · exact (Dictionary.get?_eq_some_iff hTable.ordered).mpr hFile
    · exact (Dictionary.get?_eq_some_iff
        (hTable.inner file names hFile).1).mpr hName
  · rintro ⟨names, hFile, hName⟩
    refine ⟨(e.file, names), Dictionary.mem_of_get? hFile, ?_⟩
    exact List.mem_map.mpr
      ⟨(e.name, e.address), Dictionary.mem_of_get? hName, rfl⟩

------------------------------------------------------------
-- Adding Libraries
------------------------------------------------------------

/- A table with one more library. -/
theorem address?_add
    (table : Libraries)
    (e : Entry)
    (file name : Text) :
    (table.add e).address? file name =
      if e.file = file ∧ e.name = name then some e.address
      else table.address? file name := by
  unfold address? add
  rw [Dictionary.get?_insert]
  by_cases hFile : e.file = file
  · rw [if_pos hFile, Option.bind_some, Dictionary.get?_insert]
    by_cases hName : e.name = name
    · rw [if_pos hName, if_pos ⟨hFile, hName⟩]
    · rw [if_neg hName, if_neg (by simp [hName]), hFile]
      cases table.get? file with
      | none => rfl
      | some names => rfl
  · rw [if_neg hFile, if_neg (by simp [hFile])]

theorem insert_ne_nil
    {α : Type}
    (d : Dictionary α)
    (key : Text)
    (a : α) :
    d.insert key a ≠ [] := by
  intro hNil
  have hFound := Dictionary.get?_insert d key key a
  rw [hNil, if_pos rfl] at hFound
  cases hFound

theorem WellFormed.add
    {table : Libraries}
    (hTable : table.WellFormed)
    (e : Entry) :
    (table.add e).WellFormed := by
  have hInner : Dictionary.Ordered ((table.get? e.file).getD []) := by
    cases hFound : table.get? e.file with
    | none => exact List.Pairwise.nil
    | some names =>
        exact (hTable.inner _ _ (Dictionary.mem_of_get? hFound)).1
  constructor
  · exact Dictionary.ordered_insert hTable.ordered _ _
  · intro file names hMember
    rcases Dictionary.mem_insert hMember with hNew | hOld
    · cases hNew
      exact ⟨Dictionary.ordered_insert hInner _ _,
        insert_ne_nil _ _ _⟩
    · exact hTable.inner file names hOld

theorem WellFormed.foldl_add
    {table : Libraries}
    (hTable : table.WellFormed)
    (es : List Entry) :
    (es.foldl Libraries.add table).WellFormed := by
  induction es generalizing table with
  | nil => exact hTable
  | cons e es ih => exact ih (hTable.add e)

/- An entry behind which there is none for the same library. -/
def Decides (es : List Entry) (e : Entry) : Prop :=
  ∃ front back, es = front ++ e :: back ∧
    ∀ e' ∈ back, ¬ (e'.file = e.file ∧ e'.name = e.name)

/- The last entry of a library decides. -/
theorem decides_concat_iff
    {es : List Entry}
    {e x : Entry} :
    Decides (es ++ [e]) x ↔
      x = e ∨
        (¬ (e.file = x.file ∧ e.name = x.name) ∧ Decides es x) := by
  constructor
  · rintro ⟨front, back, hEntries, hLast⟩
    rcases List.eq_nil_or_concat back with rfl | ⟨back', e', rfl⟩
    · left
      exact (List.append_inj_right' hEntries rfl |> List.cons.inj).1.symm
    · right
      rw [List.concat_eq_append, ← List.cons_append,
        ← List.append_assoc] at hEntries
      rcases List.append_inj' hEntries rfl with ⟨rfl, hEq⟩
      cases hEq
      refine ⟨hLast e (by simp), front, back', rfl, ?_⟩
      intro e' hMember
      exact hLast e' (by simp [hMember])
  · rintro (rfl | ⟨hOther, front, back, rfl, hLast⟩)
    · exact ⟨es, [], rfl, by simp⟩
    · refine ⟨front, back ++ [e], by simp, ?_⟩
      intro e' hMember
      rcases List.mem_append.mp hMember with hBack | hEnd
      · exact hLast e' hBack
      · rw [List.mem_singleton.mp hEnd]
        exact hOther

/- Of the entries of a library the last one decides. -/
theorem address?_foldl_add_iff
    {es : List Entry}
    {e : Entry} :
    (es.foldl add []).address? e.file e.name = some e.address ↔
      Decides es e := by
  induction es using List.reverseRecOn with
  | nil =>
      constructor
      · intro hAddress
        cases hAddress
      · rintro ⟨front, back, hEntries, -⟩
        simp at hEntries
  | append_singleton es e' ih =>
      rw [List.foldl_concat, address?_add, decides_concat_iff]
      by_cases hSame : e'.file = e.file ∧ e'.name = e.name
      · rw [if_pos hSame]
        constructor
        · intro hAddress
          left
          rcases e with ⟨file, name, address⟩
          rcases e' with ⟨file', name', address'⟩
          rcases hSame with ⟨rfl, rfl⟩
          cases hAddress
          rfl
        · rintro (rfl | ⟨hOther, -⟩)
          · rfl
          · exact absurd hSame hOther
      · rw [if_neg hSame, ih]
        constructor
        · intro hDecides
          exact Or.inr ⟨hSame, hDecides⟩
        · rintro (rfl | ⟨-, hDecides⟩)
          · exact absurd ⟨rfl, rfl⟩ hSame
          · exact hDecides

------------------------------------------------------------
-- Lists Of Specifications
------------------------------------------------------------

/- A library's address comes from the last specification of it. -/
def LastSpecified (specifications : List Text) (e : Entry) : Prop :=
  ∃ front s back, specifications = front ++ s :: back ∧
    Specifies s e ∧
    ∀ t ∈ back, ∀ e', Specifies t e' →
      ¬ (e'.file = e.file ∧ e'.name = e.name)

theorem parse_eq
    (specifications : List Text) :
    parse specifications =
      (specifications.mapM Entry.parse).map fun es =>
        es.foldl add [] := by
  rfl

theorem mapM_parse_eq_ok_iff
    {specifications : List Text}
    {es : List Entry} :
    specifications.mapM Entry.parse = .ok es ↔
      List.Forall₂ Specifies specifications es := by
  rw [mapM_eq_ok_iff]
  simp only [Entry.parse_eq_ok_iff_specifies]

/- What the last specification of a library is, its entry is too. -/
theorem lastSpecified_iff
    {specifications : List Text}
    {es : List Entry}
    (hEntries : List.Forall₂ Specifies specifications es)
    {e : Entry} :
    LastSpecified specifications e ↔ Decides es e := by
  constructor
  · rintro ⟨front, s, back, rfl, hSpecifies, hLast⟩
    rcases exists_split_of_forall₂ hEntries.flip with
      ⟨front', e', back', rfl, -, hEntry, hBack⟩
    rw [hSpecifies.unique hEntry]
    rw [hSpecifies.unique hEntry] at hLast
    refine ⟨front', back', rfl, ?_⟩
    intro x hMember
    rcases exists_right_of_forall₂ hBack hMember with
      ⟨t, hText, hOther⟩
    exact hLast t hText x hOther
  · rintro ⟨front, back, rfl, hLast⟩
    rcases exists_split_of_forall₂ hEntries with
      ⟨front', s, back', rfl, -, hSpecifies, hBack⟩
    refine ⟨front', s, back', rfl, hSpecifies, ?_⟩
    intro t hText x hOther
    rcases exists_right_of_forall₂ hBack hText with
      ⟨x', hMember, hEntry⟩
    rw [hOther.unique hEntry]
    exact hLast x' hMember

/- Specifications are read together just if each specifies a library. -/
theorem exists_parse_iff
    {specifications : List Text} :
    (∃ table, parse specifications = .ok table) ↔
      ∀ s ∈ specifications, ∃ e, Specifies s e := by
  rw [← exists_forall₂_iff]
  constructor
  · rintro ⟨table, hParse⟩
    rw [parse_eq, map_eq_ok_iff] at hParse
    rcases hParse with ⟨es, hEntries, -⟩
    exact ⟨es, mapM_parse_eq_ok_iff.mp hEntries⟩
  · rintro ⟨es, hSpecifies⟩
    rw [parse_eq, mapM_parse_eq_ok_iff.mpr hSpecifies]
    exact ⟨_, rfl⟩

/- The first specification of no library is the one that is told of. -/
theorem fails_of_parse
    {specifications : List Text}
    {error : LibraryError}
    (hParse : parse specifications = .error error) :
    ∃ front s back, specifications = front ++ s :: back ∧
      (∀ t ∈ front, ∃ e, Specifies t e) ∧
      (¬ ∃ e, Specifies s e) ∧ Blames error s := by
  rw [parse_eq] at hParse
  cases hEntries : specifications.mapM Entry.parse with
  | ok es =>
      rw [hEntries] at hParse
      cases hParse
  | error error' =>
      rw [hEntries] at hParse
      cases hParse
      rcases mapM_eq_error_iff.mp hEntries with
        ⟨front, s, back, rfl, hFront, hFails⟩
      rcases Entry.blames_of_parse hFails with ⟨hBlames, hNone⟩
      refine ⟨front, s, back, rfl, ?_, hNone, hBlames⟩
      intro t hMember
      rcases hFront t hMember with ⟨e, hPasses⟩
      exact ⟨e, Entry.parse_eq_ok_iff_specifies.mp hPasses⟩

theorem wellFormed_nil :
    WellFormed [] := by
  constructor
  · exact List.Pairwise.nil
  · intro file names hMember
    cases hMember

/- The table holds what the last specifications say and nothing else. -/
theorem holds_of_parse
    {specifications : List Text}
    {table : Libraries}
    (hParse : parse specifications = .ok table) :
    table.WellFormed ∧
      ∀ e : Entry, table.address? e.file e.name = some e.address ↔
        LastSpecified specifications e := by
  rw [parse_eq, map_eq_ok_iff] at hParse
  rcases hParse with ⟨es, hEntries, rfl⟩
  refine ⟨wellFormed_nil.foldl_add es, ?_⟩
  intro e
  rw [address?_foldl_add_iff,
    lastSpecified_iff (mapM_parse_eq_ok_iff.mp hEntries)]

------------------------------------------------------------
-- Rendered Tables
------------------------------------------------------------

/- A library whose specification has no white space at its ends. -/
theorem Entry.Valid.specifies_render
    {e : Entry}
    (hValid : e.Valid)
    (hStart : ∀ b ∈ e.file.head?, Text.isBlank b = false) :
    Specifies e.render e := by
  refine ⟨hValid, ⟨?_, ?_⟩, [], [], by simp [Text.AllBlank],
    by simp [Text.AllBlank], by simp⟩
  · rw [render, List.head?_append_of_ne_nil _ hValid.file]
    exact hStart
  · have hRender :
        e.render =
          (e.file ++ ':'.toUInt8 :: (e.name ++ ['='.toUInt8])) ++
            e.address := by
      simp [render]
    rw [hRender]
    exact hValid.address.getLast?_append _

/- Without repetition, every entry decides. -/
theorem decides_iff_mem
    {es : List Entry}
    (hUnique : es.Pairwise fun e e' =>
      ¬ (e'.file = e.file ∧ e'.name = e.name))
    {e : Entry} :
    Decides es e ↔ e ∈ es := by
  constructor
  · rintro ⟨front, back, rfl, -⟩
    simp
  · intro hMember
    rcases List.append_of_mem hMember with ⟨front, back, rfl⟩
    refine ⟨front, back, rfl, ?_⟩
    have hRest := (List.pairwise_append.mp hUnique).2.1
    exact (List.pairwise_cons.mp hRest).1

/- No library has two entries in a table. -/
theorem pairwise_entries
    {table : Libraries}
    (hTable : table.WellFormed) :
    table.entries.Pairwise fun e e' =>
      ¬ (e'.file = e.file ∧ e'.name = e.name) := by
  unfold entries
  rw [List.pairwise_flatMap]
  constructor
  · rintro ⟨file, names⟩ hFile
    rw [List.pairwise_map]
    apply (hTable.inner file names hFile).1.imp
    rintro ⟨name, address⟩ ⟨name', address'⟩ hLess ⟨-, hName⟩
    dsimp only at hLess hName
    rw [hName] at hLess
    exact List.lt_irrefl name hLess
  · apply hTable.ordered.imp
    rintro ⟨file, names⟩ ⟨file', names'⟩ hLess e hEntry e' hEntry'
      ⟨hFile, -⟩
    rcases List.mem_map.mp hEntry with ⟨⟨name, address⟩, -, rfl⟩
    rcases List.mem_map.mp hEntry' with ⟨⟨name', address'⟩, -, rfl⟩
    dsimp only at hLess hFile
    rw [hFile] at hLess
    exact List.lt_irrefl file hLess

/- A table is read from the specifications of its libraries. -/
theorem parse_map_render
    {table : Libraries}
    (hTable : table.WellFormed)
    (hValid : ∀ e ∈ table.entries,
      e.Valid ∧ ∀ b ∈ e.file.head?, Text.isBlank b = false)
    {es : List Entry}
    (hEntries : es.Perm table.entries) :
    parse (es.map Entry.render) = .ok table := by
  have hSpecifies :
      List.Forall₂ Specifies (es.map Entry.render) es := by
    rw [List.forall₂_map_left_iff, List.forall₂_same]
    intro e hMember
    rcases hValid e (hEntries.mem_iff.mp hMember) with
      ⟨hEntry, hStart⟩
    exact hEntry.specifies_render hStart
  have hUnique :
      es.Pairwise fun e e' =>
        ¬ (e'.file = e.file ∧ e'.name = e.name) := by
    apply (hEntries.pairwise_iff _).mpr (pairwise_entries hTable)
    rintro e e' hOther ⟨hFile, hName⟩
    exact hOther ⟨hFile.symm, hName.symm⟩
  rw [parse_eq, mapM_parse_eq_ok_iff.mpr hSpecifies]
  apply congrArg Except.ok
  apply ext_address? (wellFormed_nil.foldl_add es) hTable
  intro file name
  apply Option.ext
  intro address
  have hFold :=
    @address?_foldl_add_iff es ⟨file, name, address⟩
  have hHeld := @mem_entries_iff table hTable ⟨file, name, address⟩
  rw [decides_iff_mem hUnique, hEntries.mem_iff] at hFold
  exact hFold.trans hHeld

/-
  Specifications are read just if each of them is that of a
  library, and otherwise the first which is not is told of.
  The table which is read has the address of every library
  from the last specification of it, and no other one. The
  specifications of the libraries of a table are read as the
  table, in whatever order they stand.
-/
theorem parse_specifications :
    (∀ specifications,
      ((∃ table, parse specifications = .ok table) ↔
          ∀ s ∈ specifications, ∃ e, Specifies s e) ∧
        (∀ error, parse specifications = .error error →
          ∃ front s back, specifications = front ++ s :: back ∧
            (∀ t ∈ front, ∃ e, Specifies t e) ∧
            (¬ ∃ e, Specifies s e) ∧ Blames error s) ∧
        ∀ table, parse specifications = .ok table →
          table.WellFormed ∧
            ∀ e : Entry,
              table.address? e.file e.name = some e.address ↔
                LastSpecified specifications e) ∧
      ∀ table : Libraries, table.WellFormed →
        (∀ e ∈ table.entries,
          e.Valid ∧ ∀ b ∈ e.file.head?, Text.isBlank b = false) →
        ∀ es : List Entry, es.Perm table.entries →
          parse (es.map Entry.render) = .ok table := by
  constructor
  · intro specifications
    refine ⟨exists_parse_iff, ?_, ?_⟩
    · intro error hParse
      exact fails_of_parse hParse
    · intro table hParse
      exact holds_of_parse hParse
  · intro table hTable hValid es hEntries
    exact parse_map_render hTable hValid hEntries

/- A table of two files, one of them with a colon and an equals sign. -/
def mathTable : Libraries :=
  [ (ascii "a=b:c.sol",
      [(ascii "L=M", ascii "0x00000000000000000000000000000000000000aA")]),
    (ascii "d.sol",
      [ (ascii "L", ascii "0x1111111111111111111111111111111111111111"),
        (ascii "N", ascii "0x2222222222222222222222222222222222222222") ]) ]

/- Its specifications, with one that is overruled and white space. -/
def mathSpecifications : List Text :=
  [ ascii "d.sol:N=0x2222222222222222222222222222222222222222",
    ascii "d.sol:L=0x3333333333333333333333333333333333333333",
    ascii "\t a=b:c.sol:L=M=0x00000000000000000000000000000000000000aA \n",
    ascii "d.sol:L=0x1111111111111111111111111111111111111111" ]

theorem parse_mathSpecifications :
    parse mathSpecifications = .ok mathTable := by
  rfl

theorem valid_mathTable :
    ∀ e ∈ mathTable.entries,
      e.Valid ∧ ∀ b ∈ e.file.head?, Text.isBlank b = false := by
  have hChecked :
      ∀ e ∈ mathTable.entries,
        (e.file ≠ [] ∧ e.name ≠ [] ∧ ':'.toUInt8 ∉ e.name ∧
            isAddress e.address = true) ∧
          ∀ b ∈ e.file.head?, Text.isBlank b = false := by
    decide +kernel
  intro e hMember
  rcases hChecked e hMember with
    ⟨⟨hFile, hName, hColon, hAddress⟩, hStart⟩
  exact ⟨⟨hFile, hName, hColon, isAddress_iff.mp hAddress⟩, hStart⟩

theorem parse_mathTable :
    parse mathSpecifications = .ok mathTable ∧
      (∀ s ∈ mathSpecifications, ∃ e, Specifies s e) ∧
      LastSpecified mathSpecifications
        ⟨ascii "d.sol", ascii "L",
          ascii "0x1111111111111111111111111111111111111111"⟩ ∧
      mathTable.WellFormed ∧
      (∀ e ∈ mathTable.entries,
        e.Valid ∧ ∀ b ∈ e.file.head?, Text.isBlank b = false) ∧
      parse (mathTable.entries.reverse.map Entry.render) =
        .ok mathTable := by
  rcases parse_specifications with ⟨hRead, hRendered⟩
  rcases hRead mathSpecifications with ⟨hExists, -, hHolds⟩
  rcases hHolds mathTable parse_mathSpecifications with
    ⟨hFormed, hLast⟩
  exact ⟨parse_mathSpecifications,
    hExists.mp ⟨mathTable, parse_mathSpecifications⟩,
    (hLast _).mp rfl, hFormed, valid_mathTable,
    hRendered mathTable hFormed valid_mathTable _
      (List.reverse_perm _)⟩

end Libraries

end ContractLinker
