import ContractLinker.Proofs.Json.Spelling

/-
  Documents are read as they were written, in every format.
  The pretty form is cleared of the blanks in front of its
  line breaks once it is written. No literal has a line break
  in it, so that only white space between the parts of the
  document is lost, and a text of a value stays one.

  Key definitions include:
    * `Json.Solid`

  Main statements:
    * `Json.Spells.tidy`
    * `Json.spells_layout`
    * `Json.parse?_of_spells`
    * `Json.parse?_render`
-/

namespace ContractLinker

namespace Json

------------------------------------------------------------
-- Clearing
------------------------------------------------------------

theorem tidy_cons
    {b : UInt8}
    {s : Text}
    (hKept : b ≠ ' '.toUInt8 ∨ s.head? ≠ some Text.newline) :
    tidy (b :: s) = b :: tidy s := by
  rw [tidy, if_neg]
  rw [Bool.and_eq_true, decide_eq_true_iff, decide_eq_true_iff]
  rintro ⟨hBlank, hBreak⟩
  rcases hKept with hOther | hOther
  · exact hOther hBlank
  · exact hOther hBreak

theorem tidy_blank
    {b : UInt8}
    {s : Text}
    (hBlank : b = ' '.toUInt8)
    (hBreak : s.head? = some Text.newline) :
    tidy (b :: s) = tidy s := by
  rw [tidy, if_pos]
  rw [Bool.and_eq_true, decide_eq_true_iff, decide_eq_true_iff]
  exact ⟨hBlank, hBreak⟩

/- Clearing takes bytes away and adds none. -/
theorem tidy_sublist
    (s : Text) :
    (tidy s).Sublist s := by
  induction s with
  | nil =>
      exact List.Sublist.slnil
  | cons b s ih =>
      rw [tidy]
      split
      · exact ih.cons b
      · exact ih.cons_cons b

/-
  Two texts are cleared one by one, unless a blank at the end
  of the first one meets a line break.
-/
theorem tidy_append
    {s t : Text}
    (hApart :
      s.getLast? ≠ some ' '.toUInt8 ∨ t.head? ≠ some Text.newline) :
    tidy (s ++ t) = tidy s ++ tidy t := by
  induction s with
  | nil =>
      rfl
  | cons b s ih =>
      cases s with
      | nil =>
          have hKept : b ≠ ' '.toUInt8 ∨ t.head? ≠ some Text.newline := by
            simpa using hApart
          rw [List.singleton_append, tidy_cons hKept,
            tidy_cons (Or.inr (by simp))]
          rfl
      | cons c s =>
          rw [List.getLast?_cons_cons] at hApart
          have hRest := ih hApart
          by_cases hKept :
              b ≠ ' '.toUInt8 ∨ (c :: s).head? ≠ some Text.newline
          · rw [tidy_cons hKept, List.cons_append,
              tidy_cons (by simpa using hKept), hRest]
            rfl
          · rw [not_or, Decidable.not_not, Decidable.not_not] at hKept
            rw [List.cons_append, tidy_blank hKept.1 hKept.2,
              tidy_blank hKept.1 (by simpa using hKept.2), hRest]

/- A text without line breaks which does not end with a blank. -/
def Solid (s : Text) : Prop :=
  Text.newline ∉ s ∧ s.getLast? ≠ some ' '.toUInt8

theorem tidy_of_notMem
    {s : Text}
    (hBreak : Text.newline ∉ s) :
    tidy s = s := by
  induction s with
  | nil =>
      rfl
  | cons b s ih =>
      rw [List.mem_cons, not_or] at hBreak
      have hHead : s.head? ≠ some Text.newline := by
        intro hEq
        exact hBreak.2 (List.mem_of_mem_head? hEq)
      rw [tidy_cons (Or.inr hHead), ih hBreak.2]

/- A solid text is left as it is, whatever stands behind it. -/
theorem Solid.tidy_append
    {s : Text}
    (hSolid : Solid s)
    (t : Text) :
    tidy (s ++ t) = s ++ tidy t := by
  rw [Json.tidy_append (Or.inl hSolid.2), tidy_of_notMem hSolid.1]

theorem Gap.tidy
    {gap : Text}
    (hGap : Gap gap) :
    Gap (tidy gap) := by
  intro b hMember
  exact hGap b ((tidy_sublist gap).mem hMember)

/- White space is cleared up to the part behind it. -/
theorem tidy_gap_append
    (gap : Text)
    {c : UInt8}
    (hSpace : isSpace c = false)
    (s : Text) :
    tidy (gap ++ c :: s) = tidy gap ++ tidy (c :: s) := by
  apply tidy_append
  right
  rw [List.head?_cons]
  intro hEq
  rw [Option.some.inj hEq] at hSpace
  exact absurd hSpace (by decide)

------------------------------------------------------------
-- Literals
------------------------------------------------------------

/- Digits of an escape are printed on a line. -/
theorem newline_ne_digit :
    ∀ b : UInt8,
      Hex.digit .lower (b >>> 4) ≠ Text.newline ∧
        Hex.digit .lower (b &&& 15) ≠ Text.newline := by
  apply Utf8.forall_byte
  decide +kernel

theorem newline_notMem_unicodeEscape
    (n : Nat) :
    Text.newline ∉ unicodeEscape n := by
  rcases newline_ne_digit (n / 256).toUInt8 with ⟨hA, hB⟩
  rcases newline_ne_digit n.toUInt8 with ⟨hC, hD⟩
  simp only [unicodeEscape, Hex.encode, List.flatMap_cons,
    List.flatMap_nil, List.cons_append, List.nil_append,
    List.mem_cons, List.not_mem_nil, or_false, not_or]
  exact ⟨by decide, by decide, hA.symm, hB.symm, hC.symm, hD.symm⟩

/- No code point is written with a line break. -/
theorem newline_notMem_escape
    (n : Nat) :
    Text.newline ∉ escape n := by
  by_cases hLetter : n ∈ letterPoints
  · simp only [letterPoints, List.mem_cons, List.not_mem_nil,
      or_false] at hLetter
    rcases hLetter with rfl | rfl | rfl | rfl | rfl | rfl | rfl
    all_goals decide
  · simp only [letterPoints, List.mem_cons, List.not_mem_nil,
      or_false, not_or] at hLetter
    rcases hLetter with ⟨h₁, h₂, h₃, h₄, h₅, h₆, h₇⟩
    unfold escape
    rw [if_neg h₁, if_neg h₂, if_neg h₃, if_neg h₄, if_neg h₅,
      if_neg h₆, if_neg h₇]
    split
    · exact newline_notMem_unicodeEscape n
    · split
      · next hControl hAscii =>
          have hByte : n.toUInt8.toNat = n :=
            Nat.mod_eq_of_lt (by omega)
          rw [List.mem_singleton]
          intro hEq
          apply h₅
          rw [← hByte, ← hEq]
          rfl
      · split
        · exact newline_notMem_unicodeEscape n
        · rw [List.mem_append, not_or]
          exact ⟨newline_notMem_unicodeEscape _,
            newline_notMem_unicodeEscape _⟩

/- A string literal stands on one line, whatever it quotes. -/
theorem solid_quote
    (s : Text) :
    Solid (quote s) := by
  constructor
  · rw [quote, List.mem_cons, List.mem_append, List.mem_singleton,
      List.mem_flatMap]
    rintro (hOpen | ⟨n, -, hEscape⟩ | hClose)
    · exact absurd hOpen (by decide)
    · exact newline_notMem_escape n hEscape
    · exact absurd hClose (by decide)
  · rw [quote, ← List.cons_append, List.getLast?_concat]
    decide

theorem solid_of_forall
    {s : Text}
    (hBytes : ∀ b ∈ s, b ≠ Text.newline ∧ b ≠ ' '.toUInt8) :
    Solid s := by
  constructor
  · intro hBreak
    exact (hBytes _ hBreak).1 rfl
  · intro hLast
    exact (hBytes _ (List.mem_of_getLast? hLast)).2 rfl

theorem solid_ofInt
    (n : Int) :
    Solid (Decimal.ofInt n) := by
  have hDigit :
      ∀ b : UInt8, Text.isDigit b = true →
        b ≠ Text.newline ∧ b ≠ ' '.toUInt8 := by
    apply Utf8.forall_byte
    decide +kernel
  apply solid_of_forall
  cases n with
  | ofNat n =>
      intro b hMember
      exact hDigit b (Decimal.isDigit_of_mem_ofNat n b hMember)
  | negSucc n =>
      rw [Decimal.ofInt, List.forall_mem_cons]
      refine ⟨by decide, ?_⟩
      intro b hMember
      exact hDigit b (Decimal.isDigit_of_mem_ofNat (n + 1) b hMember)

theorem solid_scalar
    {j : Json}
    (hPlain : j.isPlain = true)
    (hObject : j.isObject = false)
    (hArray : j.isArray = false) :
    Solid (scalar j) := by
  cases j with
  | null => unfold Solid; decide
  | bool b => cases b <;> (unfold Solid; decide)
  | int n => exact solid_ofInt n
  | double x => cases hPlain
  | str s => exact solid_quote s
  | arr items => cases hArray
  | obj members => cases hObject

------------------------------------------------------------
-- Texts Of Values
------------------------------------------------------------

/- The elements of an array end with its closing bracket. -/
theorem SpellsItems.exists_end
    {items : List Json}
    {s : Text}
    (hSpells : SpellsItems items s) :
    ∃ t, s = t ++ [']'.toUInt8] := by
  induction items generalizing s with
  | nil => cases hSpells
  | cons j items ih =>
      cases hSpells with
      | @last _ gap s gap' hGap hValue hGap' =>
          exact ⟨gap ++ (s ++ gap'), by simp⟩
      | @cons _ _ gap s gap' t hGap hValue hGap' hItems =>
          rcases ih hItems with ⟨u, rfl⟩
          exact ⟨gap ++ (s ++ (gap' ++ ','.toUInt8 :: u)), by simp⟩

/- The members of an object end with its closing brace. -/
theorem SpellsMembers.exists_end
    {members : List (Text × Json)}
    {s : Text}
    (hSpells : SpellsMembers members s) :
    ∃ t, s = t ++ ['}'.toUInt8] := by
  induction members generalizing s with
  | nil => cases hSpells
  | cons m members ih =>
      cases hSpells with
      | @last key _ gap gap' s gap'' hGap hGap' hValue hGap'' =>
          exact ⟨gap ++ (quote key ++ ':'.toUInt8 ::
            (gap' ++ (s ++ gap''))), by simp⟩
      | @cons key _ _ gap gap' s gap'' t hGap hGap' hValue hGap''
          hMembers =>
          rcases ih hMembers with ⟨u, rfl⟩
          exact ⟨gap ++ (quote key ++ ':'.toUInt8 ::
            (gap' ++ (s ++ (gap'' ++ ','.toUInt8 :: u)))), by simp⟩

/- No text of a value ends with a blank. -/
theorem Spells.getLast?_ne
    {j : Json}
    {s : Text}
    (hSpells : Spells j s)
    (hPlain : j.isPlain = true) :
    s.getLast? ≠ some ' '.toUInt8 := by
  cases hSpells with
  | scalar hObject hArray =>
      exact (solid_scalar hPlain hObject hArray).2
  | emptyArr hGap =>
      rw [← List.cons_append, List.getLast?_concat]
      decide
  | arr hItems =>
      rcases hItems.exists_end with ⟨t, rfl⟩
      rw [← List.cons_append, List.getLast?_concat]
      decide
  | emptyObj hGap =>
      rw [← List.cons_append, List.getLast?_concat]
      decide
  | obj hMembers =>
      rcases hMembers.exists_end with ⟨t, rfl⟩
      rw [← List.cons_append, List.getLast?_concat]
      decide

/-
  A value between white space is cleared by itself, and so is
  the white space on either side.
-/
theorem tidy_between
    {j : Json}
    {s : Text}
    (hValue : Spells j s)
    (hPlain : j.isPlain = true)
    (gap gap' : Text)
    {c : UInt8}
    (hSpace : isSpace c = false)
    (hBlank : c ≠ ' '.toUInt8)
    (rest : Text) :
    tidy (gap ++ (s ++ (gap' ++ c :: rest))) =
      tidy gap ++ (tidy s ++ (tidy gap' ++ c :: tidy rest)) := by
  have hLast := hValue.getLast?_ne hPlain
  rcases hValue.eq_cons hPlain with ⟨b, t, hCons, hOpens⟩
  have hFront :
      tidy (gap ++ (s ++ (gap' ++ c :: rest))) =
        tidy gap ++ tidy (s ++ (gap' ++ c :: rest)) := by
    rw [hCons, List.cons_append]
    exact tidy_gap_append gap hOpens.1 _
  rw [hFront, tidy_append (Or.inl hLast), tidy_gap_append gap' hSpace,
    tidy_cons (Or.inl hBlank)]

/- A key is left as it is; what stands around it is cleared. -/
theorem tidy_key
    (gap key s : Text) :
    tidy (gap ++ (quote key ++ ':'.toUInt8 :: s)) =
      tidy gap ++ (quote key ++ ':'.toUInt8 :: tidy s) := by
  have hFront :
      tidy (gap ++ (quote key ++ ':'.toUInt8 :: s)) =
        tidy gap ++ tidy (quote key ++ ':'.toUInt8 :: s) := by
    rw [quote, List.cons_append]
    exact tidy_gap_append gap (by decide) _
  rw [hFront, (solid_quote key).tidy_append,
    tidy_cons (Or.inl (by decide))]

theorem spells_tidy_scalar
    {j : Json}
    (hObject : j.isObject = false)
    (hArray : j.isArray = false)
    {s : Text}
    (hSpells : Spells j s)
    (hPlain : j.isPlain = true) :
    Spells j (tidy s) := by
  cases hSpells with
  | scalar _ _ =>
      rw [tidy_of_notMem (solid_scalar hPlain hObject hArray).1]
      exact Spells.scalar hObject hArray
  | emptyArr hGap => cases hArray
  | arr hItems => cases hArray
  | emptyObj hGap => cases hObject
  | obj hMembers => cases hObject

mutual

/- What clearing makes of a text of a value is a text of it. -/
theorem spells_tidy :
    ∀ (j : Json) {s : Text}, Spells j s → j.isPlain = true →
      Spells j (tidy s)
  | .arr items, _, hSpells, hPlain => by
      rw [isPlain] at hPlain
      cases hSpells with
      | scalar hObject hArray => cases hArray
      | emptyArr hGap =>
          rw [tidy_cons (Or.inl (by decide)),
            tidy_gap_append _ (by decide)]
          exact Spells.emptyArr hGap.tidy
      | arr hItems =>
          rw [tidy_cons (Or.inl (by decide))]
          exact Spells.arr (spellsItems_tidy items hItems hPlain)
  | .obj members, _, hSpells, hPlain => by
      rw [isPlain, Bool.and_eq_true] at hPlain
      cases hSpells with
      | scalar hObject hArray => cases hObject
      | emptyObj hGap =>
          rw [tidy_cons (Or.inl (by decide)),
            tidy_gap_append _ (by decide)]
          exact Spells.emptyObj hGap.tidy
      | obj hMembers =>
          rw [tidy_cons (Or.inl (by decide))]
          exact Spells.obj
            (spellsMembers_tidy members hMembers hPlain.2)
  | .null, _, hSpells, hPlain =>
      spells_tidy_scalar rfl rfl hSpells hPlain
  | .bool _, _, hSpells, hPlain =>
      spells_tidy_scalar rfl rfl hSpells hPlain
  | .int _, _, hSpells, hPlain =>
      spells_tidy_scalar rfl rfl hSpells hPlain
  | .double _, _, hSpells, hPlain =>
      spells_tidy_scalar rfl rfl hSpells hPlain
  | .str _, _, hSpells, hPlain =>
      spells_tidy_scalar rfl rfl hSpells hPlain
termination_by structural j => j

theorem spellsItems_tidy :
    ∀ (items : List Json) {s : Text}, SpellsItems items s →
      arePlainItems items = true → SpellsItems items (tidy s)
  | [], _, hSpells, _ => by
      cases hSpells
  | j :: items, _, hSpells, hPlain => by
      rw [arePlainItems, Bool.and_eq_true] at hPlain
      cases hSpells with
      | @last _ gap s gap' hGap hValue hGap' =>
          rw [tidy_between hValue hPlain.1 gap gap' (by decide)
            (by decide)]
          exact SpellsItems.last hGap.tidy
            (spells_tidy j hValue hPlain.1) hGap'.tidy
      | @cons _ _ gap s gap' t hGap hValue hGap' hItems =>
          rw [tidy_between hValue hPlain.1 gap gap' (by decide)
            (by decide)]
          exact SpellsItems.cons hGap.tidy
            (spells_tidy j hValue hPlain.1) hGap'.tidy
            (spellsItems_tidy items hItems hPlain.2)
termination_by structural items => items

theorem spellsMembers_tidy :
    ∀ (members : List (Text × Json)) {s : Text},
      SpellsMembers members s → arePlainMembers members = true →
        SpellsMembers members (tidy s)
  | [], _, hSpells, _ => by
      cases hSpells
  | (key, j) :: members, _, hSpells, hPlain => by
      rw [arePlainMembers, Bool.and_eq_true, Bool.and_eq_true]
        at hPlain
      rcases hPlain with ⟨⟨-, hPlain⟩, hOthers⟩
      cases hSpells with
      | @last _ _ gap gap' s gap'' hGap hGap' hValue hGap'' =>
          rw [tidy_key,
            tidy_between hValue hPlain gap' gap'' (by decide)
              (by decide)]
          exact SpellsMembers.last hGap.tidy hGap'.tidy
            (spells_tidy j hValue hPlain) hGap''.tidy
      | @cons _ _ _ gap gap' s gap'' t hGap hGap' hValue hGap''
          hMembers =>
          rw [tidy_key,
            tidy_between hValue hPlain gap' gap'' (by decide)
              (by decide)]
          exact SpellsMembers.cons hGap.tidy hGap'.tidy
            (spells_tidy j hValue hPlain) hGap''.tidy
            (spellsMembers_tidy members hMembers hOthers)
termination_by structural members => members

end

------------------------------------------------------------
-- The Pretty Form
------------------------------------------------------------

theorem gap_lineBreak
    (indent level : Nat) :
    Gap (lineBreak indent level) := by
  intro b hMember
  unfold lineBreak at hMember
  split at hMember
  · cases hMember
  · rcases List.mem_cons.mp hMember with rfl | hBlank
    · decide
    · rw [List.eq_of_mem_replicate hBlank]
      decide

/- Between a colon and the value behind it is white space. -/
theorem gap_beforeValue
    (indent level : Nat)
    (j : Json) :
    Gap (' '.toUInt8 :: beforeValue indent level j) := by
  intro b hMember
  rcases List.mem_cons.mp hMember with rfl | hBreak
  · decide
  · unfold beforeValue at hBreak
    split at hBreak
    · exact gap_lineBreak indent level b hBreak
    · exact gap_lineBreak indent level b hBreak
    · cases hBreak

theorem colon_eq :
    ascii ": " = [':'.toUInt8, ' '.toUInt8] := by
  rfl

mutual

/- The layout of a value at any level is a text of it. -/
theorem spells_layout :
    ∀ (j : Json) (indent level : Nat),
      Spells j (j.layout indent level)
  | .arr [], _, _ => Spells.emptyArr gap_nil
  | .arr (j :: items), indent, level => by
      rw [layout, List.append_assoc]
      exact Spells.arr
        (spellsItems_layout items j (spells_layout j indent (level + 1)))
  | .obj [], _, _ => Spells.emptyObj gap_nil
  | .obj ((key, j) :: members), indent, level => by
      rw [layout, colon_eq]
      simp only [List.append_assoc, List.cons_append, List.nil_append]
      exact Spells.obj
        (spellsMembers_layout members key j
          (spells_layout j indent (level + 1)))
  | .null, _, _ => Spells.scalar rfl rfl
  | .bool _, _, _ => Spells.scalar rfl rfl
  | .int _, _, _ => Spells.scalar rfl rfl
  | .double _, _, _ => Spells.scalar rfl rfl
  | .str _, _, _ => Spells.scalar rfl rfl
termination_by structural j => j

theorem spellsItems_layout :
    ∀ (items : List Json) (j : Json) {indent level : Nat},
      Spells j (j.layout indent (level + 1)) →
        SpellsItems (j :: items)
          (lineBreak indent (level + 1) ++
            (j.layout indent (level + 1) ++
              layoutItems indent level items))
  | [], _, indent, level, hFirst => by
      rw [layoutItems]
      exact SpellsItems.last (gap_lineBreak indent (level + 1)) hFirst
        (gap_lineBreak indent level)
  | i :: items, _, indent, level, hFirst => by
      rw [layoutItems, List.append_assoc]
      exact SpellsItems.cons (gap_lineBreak indent (level + 1)) hFirst
        gap_nil
        (spellsItems_layout items i (spells_layout i indent (level + 1)))
termination_by structural items => items

theorem spellsMembers_layout :
    ∀ (members : List (Text × Json)) (key : Text) (j : Json)
      {indent level : Nat},
      Spells j (j.layout indent (level + 1)) →
        SpellsMembers ((key, j) :: members)
          (lineBreak indent (level + 1) ++
            (quote key ++ ':'.toUInt8 ::
              (' '.toUInt8 :: beforeValue indent (level + 1) j ++
                (j.layout indent (level + 1) ++
                  layoutMembers indent level members))))
  | [], _, j, indent, level, hFirst => by
      rw [layoutMembers]
      exact SpellsMembers.last (gap_lineBreak indent (level + 1))
        (gap_beforeValue indent (level + 1) j) hFirst
        (gap_lineBreak indent level)
  | (key', i) :: members, _, j, indent, level, hFirst => by
      rw [layoutMembers, colon_eq]
      simp only [List.append_assoc, List.cons_append, List.nil_append]
      exact SpellsMembers.cons (gap_lineBreak indent (level + 1))
        (gap_beforeValue indent (level + 1) j) hFirst gap_nil
        (spellsMembers_layout members key' i
          (spells_layout i indent (level + 1)))
termination_by structural members => members

end

------------------------------------------------------------
-- Documents
------------------------------------------------------------

/- A document in a format is a text of its value. -/
theorem spells_render
    {j : Json}
    (hPlain : j.isPlain = true)
    (format : Format) :
    Spells j (j.render format) := by
  cases format with
  | compact => exact spells_compact j
  | pretty indent =>
      exact spells_tidy j (spells_layout j indent 0) hPlain

/- A text of a container does not begin with a byte-order mark. -/
theorem afterMark_of_spells
    {j : Json}
    (hContainer : (j.isObject || j.isArray) = true)
    {s : Text}
    (hSpells : Spells j s) :
    Utf8.afterMark s = s := by
  cases hSpells with
  | scalar hObject hArray =>
      rw [hObject, hArray] at hContainer
      cases hContainer
  | emptyArr hGap => rfl
  | arr hItems => rfl
  | emptyObj hGap => rfl
  | obj hMembers => rfl

/- Every text of a container is a document of it. -/
theorem parse?_of_spells
    {j : Json}
    (hContainer : (j.isObject || j.isArray) = true)
    (hPlain : j.isPlain = true)
    {s : Text}
    (hSpells : Spells j s) :
    parse? s = some j := by
  have hEnds : EndsNumber [] := by
    intro c t hCons
    cases hCons
  have hRead :=
    readValue_of_spells j hSpells hPlain
      (show _ ≤ 2 * s.length + 2 by omega) [] hEnds
  rw [List.append_nil] at hRead
  unfold parse?
  rw [afterMark_of_spells hContainer hSpells]
  dsimp only [Option.bind_eq_bind]
  rw [hRead]
  dsimp only [Option.bind_some]
  rw [hContainer]
  rfl

/-
  A document is read as the value it was written for, in
  every format, and so is the pretty form before it is
  cleared.
-/
theorem parse?_render
    {j : Json}
    (hContainer : (j.isObject || j.isArray) = true)
    (hPlain : j.isPlain = true) :
    (∀ format, parse? (j.render format) = some j) ∧
      ∀ indent, parse? (j.layout indent 0) = some j := by
  constructor
  · intro format
    exact parse?_of_spells hContainer hPlain
      (spells_render hPlain format)
  · intro indent
    exact parse?_of_spells hContainer hPlain
      (spells_layout j indent 0)

/-
  Blanks in front of line breaks in a key and in a text, with
  quotes, backslashes and a letter outside of ASCII, and all
  kinds of containers behind colons.
-/
def brokenLines : Json :=
  .obj
    [ (ascii "\"key\" \n", .str (ascii ": \n\\ \n" ++ [0xc3, 0xa9])),
      (ascii "nested",
        .obj
          [ (ascii "", .arr []),
            (ascii "items",
              .arr [.arr [.int (-7), .null], .obj [], .bool true]) ]) ]

theorem parse?_render_brokenLines :
    (brokenLines.isObject || brokenLines.isArray) = true ∧
      brokenLines.isPlain = true ∧
      (∀ format, parse? (brokenLines.render format) = some brokenLines) ∧
      ∀ indent,
        parse? (brokenLines.layout indent 0) = some brokenLines := by
  have hContainer :
      (brokenLines.isObject || brokenLines.isArray) = true := by
    rfl
  have hPlain : brokenLines.isPlain = true := by
    decide +kernel
  exact ⟨hContainer, hPlain, parse?_render hContainer hPlain⟩

end Json

end ContractLinker
