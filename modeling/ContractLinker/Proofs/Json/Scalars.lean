import ContractLinker.Json.Printer
import ContractLinker.Json.Reader
import ContractLinker.Proofs.Text.Decimal
import ContractLinker.Proofs.Text.Utf8

/-
  Scalars are read as they were written. A string literal
  gives back the text it quotes, and a numeral the integer
  it was written for, whatever follows them.

  Key definitions include:
    * `Json.EndsNumber`

  Main statements:
    * `Json.readString_quote`
    * `Json.readNumber_ofInt`
-/

namespace ContractLinker

namespace Json

------------------------------------------------------------
-- Escapes
------------------------------------------------------------

/- The two digits of a byte. -/
theorem value?_digits :
    ∀ b : UInt8,
      Hex.value? (Hex.digit .lower (b >>> 4)) = some (b >>> 4) ∧
        Hex.value? (Hex.digit .lower (b &&& 15)) =
          some (b &&& 15) ∧
        (b >>> 4).toNat * 16 + (b &&& 15).toNat = b.toNat := by
  apply Utf8.forall_byte
  decide +kernel

/- A code unit is read from the four digits of its escape. -/
theorem exists_digits
    {n : Nat}
    (hBound : n < 0x10000) :
    ∃ a b c d,
      unicodeEscape n =
          [Text.backslash, 'u'.toUInt8, a, b, c, d] ∧
        codeUnit? a b c d = some n := by
  refine ⟨_, _, _, _, rfl, ?_⟩
  rcases value?_digits (n / 256).toUInt8 with ⟨hA, hB, hHigh⟩
  rcases value?_digits n.toUInt8 with ⟨hC, hD, hLow⟩
  unfold codeUnit?
  rw [hA, hB, hC, hD]
  have hHighByte : (n / 256).toUInt8.toNat = n / 256 :=
    Nat.mod_eq_of_lt (by omega)
  have hLowByte : n.toUInt8.toNat = n % 256 := rfl
  rw [hHighByte] at hHigh
  rw [hLowByte] at hLow
  apply congrArg some
  omega

------------------------------------------------------------
-- Strings
------------------------------------------------------------

/- Read a string from the unit of an escape. -/
def readUnit (first : Nat) (s : Text) : Option (Text × Text) :=
  if isLeading first then
    match s with
    | b :: v :: l₃ :: l₂ :: l₁ :: l₀ :: t =>
        if b = Text.backslash && v = 'u'.toUInt8 then
          match codeUnit? l₃ l₂ l₁ l₀ with
          | none => none
          | some second =>
              prepend (Utf8.encode (joinUnits first second))
                (readString t)
        else
          none
    | _ => none
  else
    prepend (Utf8.encode first) (readString s)

/- Read a string behind a backslash. -/
def readEscape : Text → Option (Text × Text)
  | [] => none
  | e :: s =>
      if e = 'u'.toUInt8 then
        match s with
        | h₃ :: h₂ :: h₁ :: h₀ :: t =>
            match codeUnit? h₃ h₂ h₁ h₀ with
            | none => none
            | some first => readUnit first t
        | _ => none
      else
        match escaped? e with
        | none => none
        | some b => prepend [b] (readString s)

theorem readString_cons
    (c : UInt8)
    (s : Text) :
    readString (c :: s) =
      if c = Text.doubleQuote then some ([], s)
      else if c = Text.backslash then readEscape s
      else if c < 0x20 then none
      else prepend [c] (readString s) := by
  rw [readString.eq_def]
  rfl

theorem readString_plain
    {c : UInt8}
    (hQuote : c ≠ Text.doubleQuote)
    (hBackslash : c ≠ Text.backslash)
    (hPrintable : ¬ c < 0x20)
    (s : Text) :
    readString (c :: s) = prepend [c] (readString s) := by
  rw [readString_cons, if_neg hQuote, if_neg hBackslash,
    if_neg hPrintable]

theorem readString_backslash
    (s : Text) :
    readString (Text.backslash :: s) = readEscape s := by
  have hQuote : Text.backslash ≠ Text.doubleQuote := by decide
  rw [readString_cons, if_neg hQuote, if_pos rfl]

theorem readString_letter
    {e b : UInt8}
    (hLetter : e ≠ 'u'.toUInt8)
    (hByte : escaped? e = some b)
    (s : Text) :
    readString (Text.backslash :: e :: s) =
      prepend [b] (readString s) := by
  rw [readString_backslash]
  unfold readEscape
  dsimp only
  rw [if_neg hLetter, hByte]

/- An escape with four digits is read as the unit they make up. -/
theorem readString_unicodeEscape
    {n : Nat}
    (hBound : n < 0x10000)
    (s : Text) :
    readString (unicodeEscape n ++ s) = readUnit n s := by
  rcases exists_digits hBound with ⟨a, b, c, d, hEscape, hUnit⟩
  rw [hEscape, List.cons_append, readString_backslash]
  unfold readEscape
  dsimp only [List.cons_append, List.nil_append]
  rw [if_pos rfl, hUnit]

theorem readString_unit
    {n : Nat}
    (hBound : n < 0x10000)
    (hAlone : isLeading n = false)
    (s : Text) :
    readString (unicodeEscape n ++ s) =
      prepend (Utf8.encode n) (readString s) := by
  rw [readString_unicodeEscape hBound]
  unfold readUnit
  rw [hAlone]
  rfl

theorem readString_units
    {first second : Nat}
    (hFirst : first < 0x10000)
    (hSecond : second < 0x10000)
    (hLeading : isLeading first = true)
    (s : Text) :
    readString (unicodeEscape first ++ (unicodeEscape second ++ s)) =
      prepend (Utf8.encode (joinUnits first second))
        (readString s) := by
  rcases exists_digits hSecond with ⟨a, b, c, d, hEscape, hUnit⟩
  rw [readString_unicodeEscape hFirst, hEscape]
  unfold readUnit
  dsimp only [List.cons_append, List.nil_append]
  rw [if_pos hLeading, hUnit]
  rfl

/- Two escaped units are read as the code point which they make up. -/
theorem readString_surrogates
    {n : Nat}
    (hLow : 0x10000 ≤ n)
    (hHigh : n < 0x110000)
    (s : Text) :
    readString
        (unicodeEscape (0xd800 + (n - 0x10000) / 0x400 % 0x400) ++
          (unicodeEscape (0xdc00 + (n - 0x10000) % 0x400) ++ s)) =
      prepend (Utf8.encode n) (readString s) := by
  have hJoin :
      joinUnits (0xd800 + (n - 0x10000) / 0x400 % 0x400)
          (0xdc00 + (n - 0x10000) % 0x400) = n := by
    unfold joinUnits
    omega
  rw [readString_units (by omega) (by omega), hJoin]
  unfold isLeading
  rw [Bool.and_eq_true, decide_eq_true_iff, decide_eq_true_iff]
  omega

/- The code points which a letter behind a backslash stands for. -/
def letterPoints : List Nat :=
  [0x22, 0x5c, 0x08, 0x0c, 0x0a, 0x0d, 0x09]

theorem exists_letter
    {n : Nat}
    (hLetter : n ∈ letterPoints) :
    ∃ e b, escape n = [Text.backslash, e] ∧
      e ≠ 'u'.toUInt8 ∧ escaped? e = some b ∧
      Utf8.encode n = [b] := by
  simp only [letterPoints, List.mem_cons, List.not_mem_nil,
    or_false] at hLetter
  rcases hLetter with rfl | rfl | rfl | rfl | rfl | rfl | rfl
  all_goals exact ⟨_, _, rfl, by decide, rfl, rfl⟩

/- An escaped code point is read as the bytes that encode it. -/
theorem readString_escape
    {n : Nat}
    (hScalar : Utf8.IsScalar n)
    (s : Text) :
    readString (escape n ++ s) =
      prepend (Utf8.encode n) (readString s) := by
  by_cases hLetter : n ∈ letterPoints
  · rcases exists_letter hLetter with
      ⟨e, b, hEscape, hOther, hByte, hEncode⟩
    rw [hEscape, hEncode]
    exact readString_letter hOther hByte s
  · simp only [letterPoints, List.mem_cons, List.not_mem_nil,
      or_false, not_or] at hLetter
    rcases hLetter with ⟨h₁, h₂, h₃, h₄, h₅, h₆, h₇⟩
    have hAlone : n < 0x10000 → isLeading n = false := by
      intro hBound
      unfold isLeading
      rcases hScalar with hLow | hHigh
      · simp [Nat.not_le.mpr hLow]
      · have hMore : ¬ n < 0xdc00 := by omega
        simp [hMore]
    unfold escape
    rw [if_neg h₁, if_neg h₂, if_neg h₃, if_neg h₄, if_neg h₅,
      if_neg h₆, if_neg h₇]
    by_cases hControl : n < 0x20
    · rw [if_pos hControl]
      exact readString_unit (by omega) (hAlone (by omega)) s
    · rw [if_neg hControl]
      by_cases hAscii : n < 0x80
      · have hByte : n.toUInt8.toNat = n :=
          Nat.mod_eq_of_lt (by omega)
        rw [if_pos hAscii, Utf8.encode, if_pos hAscii]
        apply readString_plain
        · intro hEq
          exact h₁ (hByte.symm.trans (congrArg UInt8.toNat hEq))
        · intro hEq
          exact h₂ (hByte.symm.trans (congrArg UInt8.toNat hEq))
        · rw [UInt8.lt_iff_toNat_lt, hByte]
          exact hControl
      · rw [if_neg hAscii]
        by_cases hBound : n < 0x10000
        · rw [if_pos hBound]
          exact readString_unit hBound (hAlone hBound) s
        · rw [if_neg hBound, List.append_assoc]
          apply readString_surrogates
          · omega
          · rcases hScalar with hLow | hHigh
            · omega
            · exact hHigh.2

/- A string literal is read as the text which it quotes. -/
theorem readString_quote
    {text : Text}
    (hValid : Utf8.isValid text = true)
    (s : Text) :
    readString
        ((Utf8.codePoints text).flatMap escape ++
          Text.doubleQuote :: s) =
      some (text, s) := by
  rcases Utf8.isEncoding_of_isValid hValid with
    ⟨points, hScalars, rfl⟩
  rw [Utf8.codePoints_flatMap_encode hScalars]
  clear hValid
  induction points with
  | nil =>
      rw [List.flatMap_nil, List.nil_append, readString_cons,
        if_pos rfl]
      rfl
  | cons n points ih =>
      rw [List.forall_mem_cons] at hScalars
      rw [List.flatMap_cons, List.append_assoc,
        readString_escape hScalars.1, ih hScalars.2,
        List.flatMap_cons]
      rfl

------------------------------------------------------------
-- Numbers
------------------------------------------------------------

/- A text which does not go on with a number in front of it. -/
def EndsNumber (s : Text) : Prop :=
  ∀ c t, s = c :: t →
    Text.isDigit c = false ∧ c ≠ '.'.toUInt8 ∧
      c ≠ 'e'.toUInt8 ∧ c ≠ 'E'.toUInt8

theorem readDigits_append
    {digits rest : Text}
    (hDigits : ∀ b ∈ digits, Text.isDigit b = true)
    (hSome : digits ≠ [])
    (hRest : EndsNumber rest) :
    readDigits (digits ++ rest) = some (digits, rest) := by
  have hTake : rest.takeWhile Text.isDigit = [] := by
    cases rest with
    | nil => rfl
    | cons c t =>
        exact List.takeWhile_cons_of_neg (by simp [(hRest c t rfl).1])
  have hDrop : rest.dropWhile Text.isDigit = rest := by
    cases rest with
    | nil => rfl
    | cons c t =>
        exact List.dropWhile_cons_of_neg (by simp [(hRest c t rfl).1])
  unfold readDigits
  rw [List.takeWhile_append_of_pos hDigits,
    List.dropWhile_append_of_pos hDigits, hTake, hDrop,
    List.append_nil]
  cases digits with
  | nil => exact absurd rfl hSome
  | cons c digits => rfl

theorem readWhole_ofNat
    (n : Nat)
    {rest : Text}
    (hRest : EndsNumber rest) :
    readWhole (Decimal.ofNat n ++ rest) =
      some (Decimal.ofNat n, rest) := by
  rcases Decimal.ofNat_eq_cons n with ⟨b, digits, hCons, hZero⟩
  have hSome : Decimal.ofNat n ≠ [] := by
    rw [hCons]
    exact List.cons_ne_nil b digits
  unfold readWhole
  rw [readDigits_append (Decimal.isDigit_of_mem_ofNat n) hSome hRest,
    hCons]
  dsimp only [Option.bind_eq_bind, Option.bind_some]
  rw [if_neg]
  rw [Bool.and_eq_true, decide_eq_true_iff, decide_eq_true_iff]
  intro hLong
  rw [hZero (Option.some.inj hLong.2)] at hLong
  exact absurd hLong.1 (by simp)

theorem readFraction_of_ends
    {s : Text}
    (hEnds : EndsNumber s) :
    readFraction s = some (none, s) := by
  cases s with
  | nil => rfl
  | cons c t =>
      rw [readFraction, if_neg (hEnds c t rfl).2.1]

theorem readExponent_of_ends
    {s : Text}
    (hEnds : EndsNumber s) :
    readExponent s = some (none, s) := by
  cases s with
  | nil => rfl
  | cons c t =>
      rcases (hEnds c t rfl).2.2 with ⟨hSmall, hCapital⟩
      rw [readExponent, if_neg (by simp [hSmall, hCapital])]

theorem readNumber_unsigned
    (negative : Bool)
    (n : Nat)
    {front rest : Text}
    (hFront :
      (if front.head? = some '-'.toUInt8 then (true, front.drop 1)
        else (false, front)) =
        (negative, Decimal.ofNat n ++ rest))
    (hRest : EndsNumber rest)
    (hFits :
      fitsInteger (if negative then -(n : Int) else n) = true) :
    readNumber front =
      some (.int (if negative then -(n : Int) else n), rest) := by
  unfold readNumber
  rw [hFront]
  dsimp only
  rw [readWhole_ofNat n hRest]
  dsimp only [Option.bind_eq_bind, Option.bind_some]
  rw [readFraction_of_ends hRest]
  dsimp only [Option.bind_some]
  rw [readExponent_of_ends hRest]
  dsimp only [Option.bind_some]
  unfold numberOf
  rw [Decimal.value_ofNat]
  dsimp only
  rw [if_pos (by simp [hFits])]

/- A numeral is read as its integer. -/
theorem readNumber_ofInt
    {n : Int}
    (hFits : fitsInteger n = true)
    {rest : Text}
    (hRest : EndsNumber rest) :
    readNumber (Decimal.ofInt n ++ rest) = some (.int n, rest) := by
  cases n with
  | ofNat n =>
      apply readNumber_unsigned false n _ hRest hFits
      rcases Decimal.ofNat_eq_cons n with ⟨b, digits, hCons, -⟩
      have hDigit : Text.isDigit b = true := by
        apply Decimal.isDigit_of_mem_ofNat n
        rw [hCons]
        exact List.mem_cons_self
      have hSign : b ≠ '-'.toUInt8 := by
        intro hEq
        rw [hEq] at hDigit
        exact absurd hDigit (by decide)
      rw [Decimal.ofInt, hCons, List.cons_append, List.head?_cons,
        if_neg (by simp [hSign])]
  | negSucc n =>
      apply readNumber_unsigned true (n + 1) _ hRest hFits
      rfl

end Json

end ContractLinker
