import ContractLinker.Proofs.Dictionary
import ContractLinker.Proofs.Project.Version
import Mathlib.Data.Prod.Lex
import Mathlib.Order.Basic

/-
  Precedence of versions. Semantic precedence goes by the
  three numbers, then puts pre-releases in front of the
  release, and then goes by the identifiers of pre-releases:
  numbers by their value and in front of words, words by
  their bytes. The order of versions takes the bytes of
  pre-releases as a whole instead. It is a total order, and
  it is precedence, unless the first identifiers that differ
  have their bytes the other way round. Then it is turned
  round as well.

  Key definitions include:
    * `Version.IsIdentifier`
    * `Version.IdentifiersBefore`
    * `Version.Precedes`
    * `Version.Crossed`
    * `Version.Misplaced`

  Main statements:
    * `Version.joined_lt_of_crossed`
    * `Version.joined_lt_of_identifiersBefore`
    * `Version.before_iff`
    * `Version.before_iff_precedes_iff`
    * `Version.before_iff_precedes`
    * `Version.not_forall_before_iff_precedes`
-/

------------------------------------------------------------
-- Bytes Of Texts
------------------------------------------------------------

namespace ContractLinker

namespace Text

/-
  Of two texts in order, either the second one goes on where
  the first one ends, or it does not matter how they go on.
-/
theorem append_lt_append_of_lt
    {s t : Text}
    (hLess : s < t) :
    (∃ c rest, t = s ++ c :: rest) ∨
      ∀ back back' : Text, s ++ back < t ++ back' := by
  induction s generalizing t with
  | nil =>
      cases t with
      | nil => exact absurd hLess (List.lt_irrefl [])
      | cons c t => exact Or.inl ⟨c, t, rfl⟩
  | cons b s ih =>
      cases t with
      | nil => exact absurd hLess (List.not_lt_nil _)
      | cons c t =>
          rcases List.cons_lt_cons_iff.mp hLess with
            hByte | ⟨rfl, hRest⟩
          · right
            intro back back'
            exact List.cons_lt_cons_iff.mpr (Or.inl hByte)
          · rcases ih hRest with ⟨c, rest, rfl⟩ | hAlways
            · exact Or.inl ⟨c, rest, rfl⟩
            · right
              intro back back'
              exact List.cons_lt_cons_iff.mpr
                (Or.inr ⟨rfl, hAlways back back'⟩)

end Text

------------------------------------------------------------
-- Identifiers
------------------------------------------------------------

namespace Version

/- An identifier which is compared as a number. -/
def IsNumeric (s : Text) : Prop :=
  ∀ b ∈ s, Text.isDigit b = true

instance (s : Text) : Decidable (IsNumeric s) :=
  List.decidableBAll _ s

/-
  Digits, letters and dashes. A number has no zero in front
  of other digits.
-/
structure IsIdentifier (s : Text) : Prop where
  nonempty : s ≠ []
  bytes : ∀ b ∈ s, Text.isDigit b = true ∨
    Text.isLetter b = true ∨ b = '-'.toUInt8
  zero : IsNumeric s →
    s = ascii "0" ∨ s.head? ≠ some '0'.toUInt8

/- Numbers come first, by their value; other identifiers by bytes. -/
inductive IdentifierBefore : Text → Text → Prop where
  | numbers {x y : Text}
      (hFirst : IsNumeric x)
      (hSecond : IsNumeric y)
      (hLess : Decimal.value x < Decimal.value y) :
      IdentifierBefore x y
  | numberFirst {x y : Text}
      (hFirst : IsNumeric x)
      (hSecond : ¬ IsNumeric y) :
      IdentifierBefore x y
  | words {x y : Text}
      (hFirst : ¬ IsNumeric x)
      (hSecond : ¬ IsNumeric y)
      (hLess : x < y) :
      IdentifierBefore x y

/- The first identifiers that differ decide, or else the number of them. -/
inductive IdentifiersBefore : List Text → List Text → Prop where
  | shorter {y : Text} {ys : List Text} :
      IdentifiersBefore [] (y :: ys)
  | here {x y : Text} {xs ys : List Text}
      (hBefore : IdentifierBefore x y) :
      IdentifiersBefore (x :: xs) (y :: ys)
  | behind {x : Text} {xs ys : List Text}
      (hBefore : IdentifiersBefore xs ys) :
      IdentifiersBefore (x :: xs) (x :: ys)

theorem IdentifierBefore.irrefl
    (x : Text) :
    ¬ IdentifierBefore x x := by
  intro hBefore
  cases hBefore with
  | numbers _ _ hLess => exact Nat.lt_irrefl _ hLess
  | numberFirst hFirst hSecond => exact hSecond hFirst
  | words _ _ hLess => exact List.lt_irrefl x hLess

theorem IdentifierBefore.asymm
    {x y : Text}
    (hBefore : IdentifierBefore x y) :
    ¬ IdentifierBefore y x := by
  intro hAfter
  cases hBefore with
  | numbers hFirst hSecond hLess =>
      cases hAfter with
      | numbers _ _ hMore => exact Nat.lt_asymm hLess hMore
      | numberFirst _ hOther => exact hOther hFirst
      | words hOther _ _ => exact hOther hSecond
  | numberFirst hFirst hSecond =>
      cases hAfter with
      | numbers hOther _ _ => exact hSecond hOther
      | numberFirst hOther _ => exact hSecond hOther
      | words _ hOther _ => exact hOther hFirst
  | words hFirst hSecond hLess =>
      cases hAfter with
      | numbers hOther _ _ => exact hSecond hOther
      | numberFirst hOther _ => exact hSecond hOther
      | words _ _ hMore => exact List.lt_asymm hLess hMore

/- Numbers without zeros in front are told apart by their value. -/
theorem eq_of_value_eq
    {x y : Text}
    (hX : IsIdentifier x)
    (hY : IsIdentifier y)
    (hFirst : IsNumeric x)
    (hSecond : IsNumeric y)
    (hValue : Decimal.value x = Decimal.value y) :
    x = y := by
  rw [← Decimal.ofNat_value hFirst hX.nonempty (hX.zero hFirst),
    ← Decimal.ofNat_value hSecond hY.nonempty (hY.zero hSecond),
    hValue]

theorem identifierBefore_or_eq_or_before
    {x y : Text}
    (hX : IsIdentifier x)
    (hY : IsIdentifier y) :
    IdentifierBefore x y ∨ x = y ∨ IdentifierBefore y x := by
  by_cases hFirst : IsNumeric x
  · by_cases hSecond : IsNumeric y
    · rcases Nat.lt_trichotomy (Decimal.value x) (Decimal.value y)
        with hLess | hSame | hMore
      · exact Or.inl (.numbers hFirst hSecond hLess)
      · exact Or.inr (Or.inl
          (eq_of_value_eq hX hY hFirst hSecond hSame))
      · exact Or.inr (Or.inr (.numbers hSecond hFirst hMore))
    · exact Or.inl (.numberFirst hFirst hSecond)
  · by_cases hSecond : IsNumeric y
    · exact Or.inr (Or.inr (.numberFirst hSecond hFirst))
    · rcases Text.lt_or_eq_or_lt x y with hLess | hSame | hMore
      · exact Or.inl (.words hFirst hSecond hLess)
      · exact Or.inr (Or.inl hSame)
      · exact Or.inr (Or.inr (.words hSecond hFirst hMore))

theorem IdentifiersBefore.asymm
    {xs ys : List Text}
    (hBefore : IdentifiersBefore xs ys) :
    ¬ IdentifiersBefore ys xs := by
  induction hBefore with
  | shorter =>
      intro hAfter
      cases hAfter
  | here hHere =>
      intro hAfter
      cases hAfter with
      | here hOther => exact hHere.asymm hOther
      | behind => exact IdentifierBefore.irrefl _ hHere
  | behind hBehind ih =>
      intro hAfter
      cases hAfter with
      | here hOther => exact IdentifierBefore.irrefl _ hOther
      | behind hOther => exact ih hOther

theorem identifiersBefore_or_eq_or_before
    {xs ys : List Text}
    (hXs : ∀ x ∈ xs, IsIdentifier x)
    (hYs : ∀ y ∈ ys, IsIdentifier y) :
    IdentifiersBefore xs ys ∨ xs = ys ∨ IdentifiersBefore ys xs := by
  induction xs generalizing ys with
  | nil =>
      cases ys with
      | nil => exact Or.inr (Or.inl rfl)
      | cons y ys => exact Or.inl .shorter
  | cons x xs ih =>
      cases ys with
      | nil => exact Or.inr (Or.inr .shorter)
      | cons y ys =>
          rw [List.forall_mem_cons] at hXs hYs
          rcases identifierBefore_or_eq_or_before hXs.1 hYs.1 with
            hBefore | rfl | hAfter
          · exact Or.inl (.here hBefore)
          · rcases ih hXs.2 hYs.2 with hBefore | rfl | hAfter
            · exact Or.inl (.behind hBefore)
            · exact Or.inr (Or.inl rfl)
            · exact Or.inr (Or.inr (.behind hAfter))
          · exact Or.inr (Or.inr (.here hAfter))

------------------------------------------------------------
-- Semantic Precedence
------------------------------------------------------------

/- The three numbers, in their lexicographic order. -/
def numbers (v : Version) : ℕ ×ₗ ℕ ×ₗ ℕ :=
  toLex (v.major.toNat, toLex (v.minor.toNat, v.patch.toNat))

/- The identifiers of a pre-release. -/
def identifiers (preRelease : Text) : List Text :=
  preRelease.splitOn '.'.toUInt8

/- A version without a pre-release, or with one of identifiers. -/
def IsSemantic (v : Version) : Prop :=
  v.preRelease ≠ [] →
    ∀ x ∈ identifiers v.preRelease, IsIdentifier x

/- A pre-release comes before the release and by its identifiers. -/
inductive PreReleaseBefore : Text → Text → Prop where
  | release {s : Text}
      (hSome : s ≠ []) :
      PreReleaseBefore s []
  | identifiers {s t : Text}
      (hFirst : s ≠ [])
      (hSecond : t ≠ [])
      (hBefore : IdentifiersBefore (identifiers s) (identifiers t)) :
      PreReleaseBefore s t

/- Semantic precedence. Build metadata takes no part in it. -/
def Precedes (a b : Version) : Prop :=
  a.numbers < b.numbers ∨
    a.numbers = b.numbers ∧
      PreReleaseBefore a.preRelease b.preRelease

/-
  Identifiers of which the first ones come first, although
  their bytes come last: numbers with different numbers of
  digits, a number and a word, or an identifier with more of
  them behind it and one that goes on with a dash instead.
-/
inductive Crossed : List Text → List Text → Prop where
  | numbers {x y : Text} {xs ys : List Text}
      (hFirst : IsNumeric x)
      (hSecond : IsNumeric y)
      (hLess : Decimal.value x < Decimal.value y)
      (hBytes : y < x) :
      Crossed (x :: xs) (y :: ys)
  | numberFirst {x y : Text} {xs ys : List Text}
      (hFirst : IsNumeric x)
      (hSecond : ¬ IsNumeric y)
      (hBytes : y < x) :
      Crossed (x :: xs) (y :: ys)
  | dash {x rest : Text} {xs ys : List Text}
      (hMore : xs ≠ []) :
      Crossed (x :: xs) ((x ++ '-'.toUInt8 :: rest) :: ys)
  | behind {x : Text} {xs ys : List Text}
      (hCrossed : Crossed xs ys) :
      Crossed (x :: xs) (x :: ys)

/- A pre-release whose place among those of its version is wrong. -/
structure Misplaced (a b : Version) : Prop where
  numbers_eq : a.numbers = b.numbers
  first : a.preRelease ≠ []
  second : b.preRelease ≠ []
  crossed :
    Crossed (identifiers a.preRelease) (identifiers b.preRelease)

theorem not_isNumeric_append_dash
    (x rest : Text) :
    ¬ IsNumeric (x ++ '-'.toUInt8 :: rest) := by
  intro hNumeric
  have hDigit := hNumeric '-'.toUInt8 (by simp)
  exact absurd hDigit (by decide)

theorem Crossed.before
    {xs ys : List Text}
    (hCrossed : Crossed xs ys) :
    IdentifiersBefore xs ys := by
  induction hCrossed with
  | numbers hFirst hSecond hLess _ =>
      exact .here (.numbers hFirst hSecond hLess)
  | numberFirst hFirst hSecond _ =>
      exact .here (.numberFirst hFirst hSecond)
  | @dash x rest xs ys _ =>
      have hSecond := not_isNumeric_append_dash x rest
      by_cases hFirst : IsNumeric x
      · exact .here (.numberFirst hFirst hSecond)
      · have hLess : x ++ [] < x ++ '-'.toUInt8 :: rest :=
          List.append_left_lt (List.nil_lt_cons _ _)
        rw [List.append_nil] at hLess
        exact .here (.words hFirst hSecond hLess)
  | behind _ ih =>
      exact .behind ih

------------------------------------------------------------
-- Bytes Of Pre-Releases
------------------------------------------------------------

/- The dot is behind the dash and in front of other bytes. -/
theorem dot_lt_of_identifier :
    ∀ b : UInt8,
      Text.isDigit b = true ∨ Text.isLetter b = true ∨
          b = '-'.toUInt8 →
        b = '-'.toUInt8 ∨ '.'.toUInt8 < b := by
  apply Utf8.forall_byte
  decide +kernel

/- Both lists of crossed identifiers have some. -/
theorem Crossed.ne_nil
    {xs ys : List Text}
    (hCrossed : Crossed xs ys) :
    xs ≠ [] ∧ ys ≠ [] := by
  cases hCrossed <;> simp

/- Crossed identifiers have their bytes the other way round. -/
theorem joined_lt_of_crossed
    {xs ys : List Text}
    (hCrossed : Crossed xs ys) :
    Text.joined '.'.toUInt8 ys < Text.joined '.'.toUInt8 xs := by
  induction hCrossed with
  | @numbers x y xs ys hFirst hSecond hLess hBytes =>
      rw [Text.joined_cons, Text.joined_cons]
      rcases Text.append_lt_append_of_lt hBytes with
        ⟨c, rest, rfl⟩ | hAlways
      · exact absurd (Decimal.value_le_append y (c :: rest))
          (Nat.not_le_of_lt hLess)
      · exact hAlways _ _
  | @numberFirst x y xs ys hFirst hSecond hBytes =>
      rw [Text.joined_cons, Text.joined_cons]
      rcases Text.append_lt_append_of_lt hBytes with
        ⟨c, rest, rfl⟩ | hAlways
      · exact absurd (List.forall_mem_append.mp hFirst).1 hSecond
      · exact hAlways _ _
  | @dash x rest xs ys hMore =>
      rw [Text.joined_cons, Text.joined_cons, List.append_assoc,
        Text.joinedBehind_of_ne_nil hMore]
      exact List.append_left_lt
        (List.cons_lt_cons_iff.mpr (Or.inl (by decide)))
  | behind hCrossed ih =>
      rcases hCrossed.ne_nil with ⟨hXs, hYs⟩
      rw [Text.joined_cons, Text.joined_cons,
        Text.joinedBehind_of_ne_nil hXs,
        Text.joinedBehind_of_ne_nil hYs]
      exact List.append_left_lt
        (List.cons_lt_cons_iff.mpr (Or.inr ⟨rfl, ih⟩))

/- An identifier that comes first has its bytes first, or is crossed. -/
theorem IdentifierBefore.lt
    {x y : Text}
    (hBefore : IdentifierBefore x y)
    {xs ys : List Text}
    (hStraight : ¬ Crossed (x :: xs) (y :: ys)) :
    x < y := by
  rcases Text.lt_or_eq_or_lt x y with hLess | rfl | hBytes
  · exact hLess
  · exact absurd hBefore (IdentifierBefore.irrefl x)
  · cases hBefore with
    | numbers hFirst hSecond hLess =>
        exact absurd (.numbers hFirst hSecond hLess hBytes) hStraight
    | numberFirst hFirst hSecond =>
        exact absurd (.numberFirst hFirst hSecond hBytes) hStraight
    | words _ _ hLess =>
        exact hLess

/- Identifiers that are not crossed have their bytes in order. -/
theorem joined_lt_of_identifiersBefore
    {xs ys : List Text}
    (hBefore : IdentifiersBefore xs ys)
    (hYs : ∀ y ∈ ys, IsIdentifier y)
    (hStraight : ¬ Crossed xs ys) :
    Text.joined '.'.toUInt8 xs < Text.joined '.'.toUInt8 ys := by
  induction hBefore with
  | @shorter y ys =>
      rcases List.exists_cons_of_ne_nil
          (hYs y List.mem_cons_self).nonempty with
        ⟨b, rest, rfl⟩
      rw [Text.joined_cons]
      exact List.nil_lt_cons _ _
  | @here x y xs ys hHere =>
      rw [Text.joined_cons, Text.joined_cons]
      rcases Text.append_lt_append_of_lt (hHere.lt hStraight) with
        ⟨c, rest, rfl⟩ | hAlways
      · rw [List.append_assoc]
        apply List.append_left_lt
        by_cases hMore : xs = []
        · subst hMore
          exact List.nil_lt_cons _ _
        · have hByte :=
            (hYs _ List.mem_cons_self).bytes c (by simp)
          rw [Text.joinedBehind_of_ne_nil hMore]
          rcases dot_lt_of_identifier c hByte with rfl | hLess
          · exact absurd (.dash hMore) hStraight
          · exact List.cons_lt_cons_iff.mpr (Or.inl hLess)
      · exact hAlways _ _
  | @behind x xs ys hBehind ih =>
      have hRest := ih (List.forall_mem_cons.mp hYs).2
        (fun hCrossed => hStraight (.behind hCrossed))
      have hSome : ys ≠ [] := by
        rintro rfl
        cases hBehind
      rw [Text.joined_cons, Text.joined_cons,
        Text.joinedBehind_of_ne_nil hSome]
      apply List.append_left_lt
      by_cases hMore : xs = []
      · subst hMore
        exact List.nil_lt_cons _ _
      · rw [Text.joinedBehind_of_ne_nil hMore]
        exact List.cons_lt_cons_iff.mpr (Or.inr ⟨rfl, hRest⟩)

/- The bytes of pre-releases tell which of them comes first. -/
theorem lt_iff_identifiersBefore
    {s t : Text}
    (hFirst : ∀ x ∈ identifiers s, IsIdentifier x)
    (hSecond : ∀ y ∈ identifiers t, IsIdentifier y)
    (hStraight : ¬ Crossed (identifiers s) (identifiers t))
    (hStraight' : ¬ Crossed (identifiers t) (identifiers s)) :
    s < t ↔ IdentifiersBefore (identifiers s) (identifiers t) := by
  have hBytes :=
    fun hBefore =>
      joined_lt_of_identifiersBefore hBefore hSecond hStraight
  have hBytes' :=
    fun hAfter =>
      joined_lt_of_identifiersBefore hAfter hFirst hStraight'
  unfold identifiers at hBytes hBytes'
  rw [Text.joined_splitOn, Text.joined_splitOn] at hBytes hBytes'
  constructor
  · intro hLess
    rcases identifiersBefore_or_eq_or_before hFirst hSecond with
      hBefore | hSame | hAfter
    · exact hBefore
    · have hEq := congrArg (Text.joined '.'.toUInt8) hSame
      unfold identifiers at hEq
      rw [Text.joined_splitOn, Text.joined_splitOn] at hEq
      exact absurd (hEq ▸ hLess) (List.lt_irrefl t)
    · exact absurd (hBytes' hAfter) (List.lt_asymm hLess)
  · exact hBytes

------------------------------------------------------------
-- The Order Of Versions
------------------------------------------------------------

/- A pre-release comes before the release and by its bytes. -/
def BytesBefore (s t : Text) : Prop :=
  s ≠ [] ∧ (t = [] ∨ s < t)

theorem numbers_eq_iff
    {a b : Version} :
    a.numbers = b.numbers ↔ a.core = b.core := by
  unfold numbers core
  simp only [EmbeddingLike.apply_eq_iff_eq, Prod.mk.injEq,
    UInt32.toNat_inj]

theorem coreBefore_iff
    {a b : Version} :
    coreBefore a b = true ↔ a.numbers < b.numbers := by
  unfold coreBefore numbers
  simp only [Prod.Lex.toLex_lt_toLex, Bool.or_eq_true,
    Bool.and_eq_true, decide_eq_true_iff, UInt32.lt_iff_toNat_lt,
    UInt32.toNat_inj]

theorem same_iff
    {a b : Version} :
    a.same b = true ↔
      a.numbers = b.numbers ∧ a.preRelease = b.preRelease := by
  unfold same
  rw [Bool.and_eq_true, decide_eq_true_iff, decide_eq_true_iff,
    numbers_eq_iff]

/- A version comes first by its numbers or by the bytes behind them. -/
theorem before_iff
    {a b : Version} :
    a.before b = true ↔
      a.numbers < b.numbers ∨
        a.numbers = b.numbers ∧
          BytesBefore a.preRelease b.preRelease := by
  unfold before BytesBefore
  by_cases hCore : a.core = b.core
  · have hNumbers := numbers_eq_iff.mpr hCore
    have hTest : (a.core != b.core) = false := by
      simp [hCore]
    rw [hTest, if_neg Bool.false_ne_true, hNumbers]
    cases hFirst : a.preRelease with
    | nil => simp
    | cons x s =>
        cases hSecond : b.preRelease with
        | nil => simp
        | cons y t => simp
  · have hNumbers := mt numbers_eq_iff.mp hCore
    have hTest : (a.core != b.core) = true := by
      simp [hCore]
    rw [if_pos hTest, coreBefore_iff]
    simp [hNumbers]

theorem BytesBefore.irrefl
    (s : Text) :
    ¬ BytesBefore s s := by
  rintro ⟨hSome, hNil | hLess⟩
  · exact hSome hNil
  · exact List.lt_irrefl s hLess

theorem BytesBefore.trans
    {s t u : Text}
    (hFirst : BytesBefore s t)
    (hSecond : BytesBefore t u) :
    BytesBefore s u := by
  rcases hFirst with ⟨hSome, hNil | hLess⟩
  · exact absurd hNil hSecond.1
  · rcases hSecond with ⟨-, hNil | hLess'⟩
    · exact ⟨hSome, Or.inl hNil⟩
    · exact ⟨hSome, Or.inr (List.lt_trans hLess hLess')⟩

theorem bytesBefore_or_eq_or_before
    (s t : Text) :
    BytesBefore s t ∨ s = t ∨ BytesBefore t s := by
  by_cases hFirst : s = []
  · by_cases hSecond : t = []
    · exact Or.inr (Or.inl (hFirst.trans hSecond.symm))
    · exact Or.inr (Or.inr ⟨hSecond, Or.inl hFirst⟩)
  · by_cases hSecond : t = []
    · exact Or.inl ⟨hFirst, Or.inl hSecond⟩
    · rcases Text.lt_or_eq_or_lt s t with hLess | hSame | hMore
      · exact Or.inl ⟨hFirst, Or.inr hLess⟩
      · exact Or.inr (Or.inl hSame)
      · exact Or.inr (Or.inr ⟨hSecond, Or.inr hMore⟩)

theorem before_trans
    {a b c : Version}
    (hFirst : a.before b = true)
    (hSecond : b.before c = true) :
    a.before c = true := by
  rw [before_iff] at hFirst hSecond ⊢
  rcases hFirst with hLess | ⟨hSame, hBytes⟩
  · rcases hSecond with hLess' | ⟨hSame', -⟩
    · exact Or.inl (lt_trans hLess hLess')
    · exact Or.inl (hSame' ▸ hLess)
  · rcases hSecond with hLess' | ⟨hSame', hBytes'⟩
    · exact Or.inl (hSame ▸ hLess')
    · exact Or.inr ⟨hSame.trans hSame', hBytes.trans hBytes'⟩

theorem before_irrefl_of_same
    {a b : Version}
    (hSame : a.same b = true) :
    ¬ a.before b = true ∧ ¬ b.before a = true := by
  rcases same_iff.mp hSame with ⟨hNumbers, hPre⟩
  rw [before_iff, before_iff, hNumbers, hPre]
  have hNot :
      ¬ (b.numbers < b.numbers ∨
        b.numbers = b.numbers ∧
          BytesBefore b.preRelease b.preRelease) := by
    rintro (hLess | ⟨-, hBytes⟩)
    · exact lt_irrefl _ hLess
    · exact BytesBefore.irrefl _ hBytes
  exact ⟨hNot, hNot⟩

theorem before_asymm
    {a b : Version}
    (hBefore : a.before b = true) :
    ¬ b.before a = true := by
  intro hAfter
  have hSame : a.same a = true := same_iff.mpr ⟨rfl, rfl⟩
  exact (before_irrefl_of_same hSame).1 (before_trans hBefore hAfter)

theorem before_or_same_or_before
    (a b : Version) :
    a.before b = true ∨ a.same b = true ∨ b.before a = true := by
  rw [before_iff, same_iff, before_iff]
  rcases lt_trichotomy a.numbers b.numbers with
    hLess | hSame | hMore
  · exact Or.inl (Or.inl hLess)
  · rcases bytesBefore_or_eq_or_before a.preRelease b.preRelease
      with hBefore | hEq | hAfter
    · exact Or.inl (Or.inr ⟨hSame, hBefore⟩)
    · exact Or.inr (Or.inl ⟨hSame, hEq⟩)
    · exact Or.inr (Or.inr (Or.inr ⟨hSame.symm, hAfter⟩))
  · exact Or.inr (Or.inr (Or.inl hMore))

------------------------------------------------------------
-- Order And Precedence
------------------------------------------------------------

theorem preReleaseBefore_iff
    {s t : Text} :
    PreReleaseBefore s t ↔
      s ≠ [] ∧
        (t = [] ∨
          t ≠ [] ∧
            IdentifiersBefore (identifiers s) (identifiers t)) := by
  constructor
  · intro hBefore
    cases hBefore with
    | release hSome => exact ⟨hSome, Or.inl rfl⟩
    | identifiers hFirst hSecond hIdentifiers =>
        exact ⟨hFirst, Or.inr ⟨hSecond, hIdentifiers⟩⟩
  · rintro ⟨hSome, rfl | ⟨hSecond, hIdentifiers⟩⟩
    · exact .release hSome
    · exact .identifiers hSome hSecond hIdentifiers

/- Pre-releases at their place are compared by their identifiers. -/
theorem bytesBefore_iff_preReleaseBefore
    {a b : Version}
    (hNumbers : a.numbers = b.numbers)
    (hFirst : a.IsSemantic)
    (hSecond : b.IsSemantic)
    (hPlace : ¬ Misplaced a b)
    (hPlace' : ¬ Misplaced b a) :
    BytesBefore a.preRelease b.preRelease ↔
      PreReleaseBefore a.preRelease b.preRelease := by
  rw [preReleaseBefore_iff]
  refine and_congr_right fun hSome => ?_
  by_cases hNone : b.preRelease = []
  · exact iff_of_true (Or.inl hNone) (Or.inl hNone)
  · have hBytes :=
      lt_iff_identifiersBefore (hFirst hSome) (hSecond hNone)
        (fun hCrossed => hPlace ⟨hNumbers, hSome, hNone, hCrossed⟩)
        (fun hCrossed =>
          hPlace' ⟨hNumbers.symm, hNone, hSome, hCrossed⟩)
    rw [hBytes]
    simp [hNone]

/- A misplaced pre-release comes last, although it precedes. -/
theorem Misplaced.reversed
    {a b : Version}
    (hMisplaced : Misplaced a b) :
    Precedes a b ∧ b.before a = true := by
  rcases hMisplaced with ⟨hNumbers, hFirst, hSecond, hCrossed⟩
  have hBytes := joined_lt_of_crossed hCrossed
  unfold identifiers at hBytes
  rw [Text.joined_splitOn, Text.joined_splitOn] at hBytes
  constructor
  · exact Or.inr
      ⟨hNumbers, .identifiers hFirst hSecond hCrossed.before⟩
  · exact before_iff.mpr
      (Or.inr ⟨hNumbers.symm, hSecond, Or.inr hBytes⟩)

/- Of two versions one at most precedes the other. -/
theorem Precedes.asymm
    {a b : Version}
    (hPrecedes : Precedes a b) :
    ¬ Precedes b a := by
  rcases hPrecedes with hLess | ⟨hNumbers, hBefore⟩
  · rintro (hMore | ⟨hNumbers, -⟩)
    · exact lt_asymm hLess hMore
    · exact hLess.ne hNumbers.symm
  · rintro (hMore | ⟨-, hAfter⟩)
    · exact hMore.ne hNumbers.symm
    · rw [preReleaseBefore_iff] at hBefore hAfter
      rcases hBefore with ⟨hSome, hNone | ⟨-, hIdentifiers⟩⟩
      · exact hAfter.1 hNone
      · rcases hAfter.2 with hNone | ⟨-, hOther⟩
        · exact hSome hNone
        · exact hIdentifiers.asymm hOther

/- The order is precedence just where no pre-release is misplaced. -/
theorem before_iff_precedes_iff
    {a b : Version}
    (hFirst : a.IsSemantic)
    (hSecond : b.IsSemantic) :
    (a.before b = true ↔ Precedes a b) ↔
      ¬ Misplaced a b ∧ ¬ Misplaced b a := by
  constructor
  · intro hAgree
    constructor
    · intro hMisplaced
      rcases hMisplaced.reversed with ⟨hPrecedes, hAfter⟩
      exact before_asymm hAfter (hAgree.mpr hPrecedes)
    · intro hMisplaced
      rcases hMisplaced.reversed with ⟨hPrecedes, hBefore⟩
      exact hPrecedes.asymm (hAgree.mp hBefore)
  · rintro ⟨hPlace, hPlace'⟩
    rw [before_iff]
    unfold Precedes
    exact or_congr_right (and_congr_right fun hNumbers =>
      bytesBefore_iff_preReleaseBefore hNumbers hFirst hSecond
        hPlace hPlace')

/-
  The order of two versions is semantic precedence just if
  neither of them is a misplaced pre-release; those it puts
  the other way round. Whatever the pre-releases are, just
  one of two versions comes first or they are the same, the
  order is transitive, and build metadata takes no part in
  it.
-/
theorem before_iff_precedes
    (a b : Version) :
    (a.IsSemantic → b.IsSemantic →
      ((a.before b = true ↔ Precedes a b) ↔
          ¬ Misplaced a b ∧ ¬ Misplaced b a) ∧
        (Misplaced a b →
          Precedes a b ∧ a.before b = false ∧
            b.before a = true)) ∧
      ((a.before b = true ∨ a.same b = true ∨
          b.before a = true) ∧
        ¬ (a.before b = true ∧ a.same b = true) ∧
        ¬ (a.before b = true ∧ b.before a = true) ∧
        ¬ (a.same b = true ∧ b.before a = true)) ∧
      (∀ c : Version, a.before b = true → b.before c = true →
        a.before c = true) ∧
      ∀ build build' : Text,
        { a with build := build }.before
            { b with build := build' } = a.before b ∧
          { a with build := build }.same
            { b with build := build' } = a.same b := by
  refine ⟨?_, ?_, fun c => before_trans, ?_⟩
  · intro hFirst hSecond
    refine ⟨before_iff_precedes_iff hFirst hSecond, ?_⟩
    intro hMisplaced
    rcases hMisplaced.reversed with ⟨hPrecedes, hAfter⟩
    exact ⟨hPrecedes, Bool.not_eq_true _ ▸ before_asymm hAfter,
      hAfter⟩
  · refine ⟨before_or_same_or_before a b, ?_, ?_, ?_⟩
    · rintro ⟨hBefore, hSame⟩
      exact (before_irrefl_of_same hSame).1 hBefore
    · rintro ⟨hBefore, hAfter⟩
      exact before_asymm hBefore hAfter
    · rintro ⟨hSame, hAfter⟩
      exact (before_irrefl_of_same hSame).2 hAfter
  · intro build build'
    exact ⟨rfl, rfl⟩

instance (s : Text) : Decidable (IsIdentifier s) :=
  -- the bytes of the text are gone through, not all bytes
  have : Decidable (∀ b ∈ s, Text.isDigit b = true ∨
      Text.isLetter b = true ∨ b = '-'.toUInt8) :=
    List.decidableBAll _ s
  decidable_of_iff
    (s ≠ [] ∧
      (∀ b ∈ s, Text.isDigit b = true ∨
        Text.isLetter b = true ∨ b = '-'.toUInt8) ∧
      (IsNumeric s → s = ascii "0" ∨ s.head? ≠ some '0'.toUInt8))
    ⟨fun h => ⟨h.1, h.2.1, h.2.2⟩,
      fun h => ⟨h.nonempty, h.bytes, h.zero⟩⟩

/- A version of the compiler with a given pre-release. -/
def candidate (preRelease : Text) : Version where
  major := 0
  minor := 8
  patch := 21
  preRelease := preRelease
  build := []

theorem numbers_candidate
    (s t : Text) :
    (candidate s).numbers = (candidate t).numbers := by
  rfl

/- Two nightly builds, the first one of June and the second of October. -/
def juneBuild : Version :=
  candidate (ascii "nightly.2023.6.30")

def octoberBuild : Version :=
  candidate (ascii "nightly.2023.10.1")

theorem isSemantic_builds :
    juneBuild.IsSemantic ∧ octoberBuild.IsSemantic := by
  have hIdentifiers :
      (∀ x ∈ identifiers juneBuild.preRelease, IsIdentifier x) ∧
        ∀ x ∈ identifiers octoberBuild.preRelease,
          IsIdentifier x := by
    decide +kernel
  exact ⟨fun _ => hIdentifiers.1, fun _ => hIdentifiers.2⟩

/- The months are numbers with one and with two digits. -/
theorem misplaced_builds :
    Misplaced juneBuild octoberBuild := by
  refine ⟨numbers_candidate _ _, by decide, by decide, ?_⟩
  have hMonths :
      Crossed [ascii "6", ascii "30"] [ascii "10", ascii "1"] :=
    .numbers (by decide) (by decide) (by decide) (by decide)
  exact .behind (.behind hMonths)

/- An older nightly build may come last. -/
theorem not_forall_before_iff_precedes :
    ¬ ∀ s t a b, parse s = .ok a → parse t = .ok b →
      a.IsSemantic → b.IsSemantic →
        (a.before b = true ↔ Precedes a b) := by
  intro hAll
  have hBefore :=
    hAll (ascii "0.8.21-nightly.2023.6.30")
      (ascii "0.8.21-nightly.2023.10.1") juneBuild octoberBuild
      rfl rfl isSemantic_builds.1 isSemantic_builds.2
  rcases misplaced_builds.reversed with ⟨hPrecedes, hAfter⟩
  exact before_asymm hAfter (hBefore.mpr hPrecedes)

/- One list of identifiers goes on where the other one ends. -/
theorem not_crossed_candidates :
    ¬ Crossed [ascii "rc"] [ascii "rc", ascii "2"] ∧
      ¬ Crossed [ascii "rc", ascii "2"] [ascii "rc"] := by
  constructor
  · intro hCrossed
    cases hCrossed with
    | numbers hFirst => exact absurd hFirst (by decide)
    | numberFirst hFirst => exact absurd hFirst (by decide)
    | behind hCrossed => cases hCrossed
  · intro hCrossed
    cases hCrossed with
    | numbers hFirst => exact absurd hFirst (by decide)
    | numberFirst hFirst => exact absurd hFirst (by decide)
    | behind hCrossed => cases hCrossed

theorem before_candidates :
    let a := candidate (ascii "rc")
    let b := candidate (ascii "rc.2")
    let c := candidate []
    (a.IsSemantic ∧ b.IsSemantic ∧ ¬ Misplaced a b ∧
        ¬ Misplaced b a ∧ Precedes a b) ∧
      (juneBuild.IsSemantic ∧ octoberBuild.IsSemantic ∧
        Misplaced juneBuild octoberBuild ∧
        juneBuild.before octoberBuild = false) ∧
      a.before b = true ∧ b.before c = true ∧ a.before c = true := by
  intro a b c
  rcases before_iff_precedes a b with ⟨hPlaced, -, hTrans, -⟩
  rcases before_iff_precedes juneBuild octoberBuild with
    ⟨hBuilds, -⟩
  have hSemantic : a.IsSemantic ∧ b.IsSemantic := by
    have hIdentifiers :
        (∀ x ∈ identifiers a.preRelease, IsIdentifier x) ∧
          ∀ x ∈ identifiers b.preRelease, IsIdentifier x := by
      decide +kernel
    exact ⟨fun _ => hIdentifiers.1, fun _ => hIdentifiers.2⟩
  have hBefore : a.before b = true ∧ b.before c = true := by
    decide +kernel
  have hPlace : ¬ Misplaced a b :=
    fun hMisplaced => not_crossed_candidates.1 hMisplaced.crossed
  have hPlace' : ¬ Misplaced b a :=
    fun hMisplaced => not_crossed_candidates.2 hMisplaced.crossed
  exact ⟨⟨hSemantic.1, hSemantic.2, hPlace, hPlace',
      ((hPlaced hSemantic.1 hSemantic.2).1.mpr
        ⟨hPlace, hPlace'⟩).mp hBefore.1⟩,
    ⟨isSemantic_builds.1, isSemantic_builds.2, misplaced_builds,
      ((hBuilds isSemantic_builds.1 isSemantic_builds.2).2
        misplaced_builds).2.1⟩,
    hBefore.1, hBefore.2, hTrans c hBefore.1 hBefore.2⟩

end Version

end ContractLinker
