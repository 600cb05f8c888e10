import ContractLinker.Project.Version
import ContractLinker.Proofs.Text.Cutting
import ContractLinker.Proofs.Text.Decimal

/-
  Versions as text. A text is read as a version just if it
  spells one, and it spells one version at most. Nothing of
  the text is lost: it is written as it was read. Components
  have nine digits at most, so that 32 bits hold each number
  that comes up while their digits are added up.

  Key definitions include:
    * `Version.ComponentText`
    * `Version.PartText`
    * `Version.Spells`
    * `Version.AddsUp`

  Main statements:
    * `Version.component?_eq_some_iff`
    * `Version.addsUp_of_component?`
    * `Version.cutPart_eq_some_iff`
    * `Version.parse_eq_ok_iff_spells`
    * `Version.parse_exact`
-/

------------------------------------------------------------
-- Components
------------------------------------------------------------

namespace ContractLinker

namespace Version

/-
  One to nine digits, of which the first is not a zero unless
  it is the only one, and the number which they denote.
-/
structure ComponentText (s : Text) (n : Nat) : Prop where
  nonempty : s ≠ []
  length : s.length ≤ 9
  digits : ∀ b ∈ s, Text.isDigit b = true
  zero : s = ascii "0" ∨ s.head? ≠ some '0'.toUInt8
  value : Decimal.value s = n

/- Each digit is added to the number of those in front in 32 bits. -/
def AddsUp (digits : Text) : Prop :=
  ∀ front b back, digits = front ++ b :: back →
    (digitsValue front).toNat * 10 + Decimal.digitValue b <
      UInt32.size

/- The first number with ten digits. -/
def componentBound : Nat :=
  1000000000

theorem isComponent_iff
    {s : Text} :
    isComponent s = true ↔ ComponentText s (Decimal.value s) := by
  unfold isComponent
  simp only [Bool.and_eq_true, Bool.or_eq_true, Bool.not_eq_true',
    List.isEmpty_eq_false_iff, decide_eq_true_iff, bne_iff_ne,
    List.all_eq_true]
  constructor
  · rintro ⟨⟨⟨hSome, hLength⟩, hZero⟩, hDigits⟩
    exact ⟨hSome, hLength, hDigits, hZero, rfl⟩
  · rintro ⟨hSome, hLength, hDigits, hZero, -⟩
    exact ⟨⟨⟨hSome, hLength⟩, hZero⟩, hDigits⟩

theorem value_lt_componentBound
    {digits : Text}
    (hDigits : ∀ b ∈ digits, Text.isDigit b = true)
    (hLength : digits.length ≤ 9) :
    Decimal.value digits < componentBound := by
  calc
    Decimal.value digits < 10 ^ digits.length :=
      Decimal.value_lt hDigits
    _ ≤ 10 ^ 9 := Nat.pow_le_pow_right (by decide) hLength
    _ = componentBound := by decide

/- The arithmetic of 32 bits goes along with that of numbers. -/
theorem digitsValue_eq
    (digits : Text) :
    digitsValue digits = UInt32.ofNat (Decimal.value digits) := by
  induction digits using List.reverseRecOn with
  | nil =>
      rfl
  | append_singleton digits b ih =>
      have hDigit :
          (b - '0'.toUInt8).toUInt32 =
            UInt32.ofNat (Decimal.digitValue b) := by
        exact (UInt32.ofNat_uInt8ToNat _).symm
      rw [Decimal.value_concat, UInt32.ofNat_add, UInt32.ofNat_mul,
        ← ih, ← hDigit]
      unfold digitsValue
      rw [List.foldl_append]
      rfl

theorem toNat_digitsValue
    {digits : Text}
    (hDigits : ∀ b ∈ digits, Text.isDigit b = true)
    (hLength : digits.length ≤ 9) :
    (digitsValue digits).toNat = Decimal.value digits := by
  have hBound := value_lt_componentBound hDigits hLength
  unfold componentBound at hBound
  rw [digitsValue_eq, UInt32.toNat_ofNat_of_lt']
  exact Nat.lt_trans hBound (by decide)

theorem component?_eq_some_iff
    {s : Text}
    {n : UInt32} :
    component? s = some n ↔ ComponentText s n.toNat := by
  unfold component?
  constructor
  · intro hComponent
    split at hComponent
    · next hTest =>
        cases hComponent
        have hText := isComponent_iff.mp hTest
        rw [toNat_digitsValue hText.digits hText.length]
        exact hText
    · cases hComponent
  · intro hText
    have hTest : ComponentText s (Decimal.value s) :=
      { hText with value := rfl }
    have hValue : digitsValue s = n := by
      rw [← UInt32.toNat_inj, ← hText.value]
      exact toNat_digitsValue hText.digits hText.length
    rw [if_pos (isComponent_iff.mpr hTest), hValue]

/- Nothing that comes up in reading a component is too large. -/
theorem addsUp_of_component?
    {s : Text}
    {n : UInt32}
    (hComponent : component? s = some n) :
    AddsUp s := by
  have hText := component?_eq_some_iff.mp hComponent
  rintro front b back rfl
  have hDigits := (List.forall_mem_append.mp hText.digits).1
  have hLength : front.length ≤ 9 := by
    have hWhole := hText.length
    rw [List.length_append] at hWhole
    omega
  rw [toNat_digitsValue hDigits hLength]
  calc
    Decimal.value front * 10 + Decimal.digitValue b ≤
        Decimal.value (front ++ b :: back) :=
      Decimal.value_step_le front b back
    _ < componentBound :=
      value_lt_componentBound hText.digits hText.length
    _ < UInt32.size := by decide

/- The marks which part a version are no digits. -/
theorem ComponentText.marks_notMem
    {s : Text}
    {n : Nat}
    (hText : ComponentText s n) :
    '.'.toUInt8 ∉ s ∧ '-'.toUInt8 ∉ s ∧ '+'.toUInt8 ∉ s := by
  have hOther :
      ∀ b ∈ s, b ≠ '.'.toUInt8 ∧ b ≠ '-'.toUInt8 ∧
        b ≠ '+'.toUInt8 := by
    intro b hMember
    rcases Decimal.digitValue_lt b (hText.digits b hMember) with
      ⟨-, hDash, -, hDot, hPlus⟩
    exact ⟨hDot, hDash, hPlus⟩
  exact ⟨fun hMember => (hOther _ hMember).1 rfl,
    fun hMember => (hOther _ hMember).2.1 rfl,
    fun hMember => (hOther _ hMember).2.2 rfl⟩

/- A component is the numeral of its number. -/
theorem ComponentText.ofNat_eq
    {s : Text}
    {n : Nat}
    (hText : ComponentText s n) :
    Decimal.ofNat n = s := by
  rw [← hText.value]
  exact Decimal.ofNat_value hText.digits hText.nonempty hText.zero

/- The numeral of a number which is not too large is a component. -/
theorem componentText_ofNat
    {n : Nat}
    (hBound : n < componentBound) :
    ComponentText (Decimal.ofNat n) n := by
  rcases Decimal.ofNat_eq_cons n with ⟨b, rest, hDigits, hZero⟩
  refine ⟨?_, Decimal.length_ofNat_le (by decide) hBound,
    Decimal.isDigit_of_mem_ofNat n, ?_, Decimal.value_ofNat n⟩
  · rw [hDigits]
    exact List.cons_ne_nil b rest
  · rw [hDigits, List.head?_cons]
    by_cases hHead : b = '0'.toUInt8
    · rw [hHead, hZero hHead]
      exact Or.inl rfl
    · exact Or.inr fun hEq => hHead (Option.some.inj hEq)

------------------------------------------------------------
-- Optional Parts
------------------------------------------------------------

/- A part as it is written: not at all, or behind its mark. -/
inductive PartText (mark : UInt8) : Text → Text → Prop where
  | missing : PartText mark [] []
  | given {s : Text} (hSome : s ≠ []) : PartText mark (mark :: s) s

theorem part_nil
    (mark : UInt8) :
    part mark [] = [] := by
  rfl

theorem partText_iff
    {mark : UInt8}
    {t s : Text} :
    PartText mark t s ↔ t = part mark s := by
  unfold part
  constructor
  · intro hPart
    cases hPart with
    | missing => rfl
    | given hSome =>
        rw [if_neg (mt List.isEmpty_iff.mp hSome)]
  · rintro rfl
    cases s with
    | nil => exact PartText.missing
    | cons b s => exact PartText.given (List.cons_ne_nil b s)

/- A part is cut off at the first of its marks. -/
theorem cutPart_eq_some_iff
    {mark : UInt8}
    {s front back : Text} :
    cutPart mark s = some (front, back) ↔
      s = front ++ part mark back ∧ mark ∉ front := by
  unfold cutPart
  cases hCut : s.cutFirst mark with
  | none =>
      have hAbsent := Text.cutFirst_eq_none_iff.mp hCut
      constructor
      · intro hEq
        cases hEq
        exact ⟨(List.append_nil s).symm, hAbsent⟩
      · rintro ⟨rfl, -⟩
        cases back with
        | nil =>
            rw [part_nil, List.append_nil]
        | cons b back =>
            exact absurd (by simp [part]) hAbsent
  | some cut =>
      rcases cut with ⟨front', back'⟩
      rcases Text.cutFirst_eq_some_iff.mp hCut with ⟨rfl, hFront⟩
      dsimp only
      constructor
      · intro hEq
        cases back' with
        | nil => cases hEq
        | cons b back' =>
            cases hEq
            exact ⟨rfl, hFront⟩
      · rintro ⟨hText, hAbsent⟩
        cases back with
        | nil =>
            rw [part_nil, List.append_nil] at hText
            exact absurd (hText ▸ by simp) hAbsent
        | cons b back =>
            have hSame :=
              Text.cutFirst_eq_some_iff.mpr ⟨hText, hAbsent⟩
            rw [hCut] at hSame
            cases hSame
            rfl

------------------------------------------------------------
-- Versions
------------------------------------------------------------

/-
  Three components parted by dots, then a pre-release behind
  a dash, which has no plus sign, and build metadata behind a
  plus sign. Both may be missing, and neither may be empty.
-/
def Spells (s : Text) (v : Version) : Prop :=
  ∃ major minor patch preRelease build,
    s = major ++ '.'.toUInt8 :: (minor ++ '.'.toUInt8 ::
        (patch ++ (preRelease ++ build))) ∧
      ComponentText major v.major.toNat ∧
      ComponentText minor v.minor.toNat ∧
      ComponentText patch v.patch.toNat ∧
      PartText '-'.toUInt8 preRelease v.preRelease ∧
      '+'.toUInt8 ∉ v.preRelease ∧
      PartText '+'.toUInt8 build v.build

theorem parse?_eq_some_iff
    {s : Text}
    {v : Version} :
    parse? s = some v ↔
      ∃ behind core major minor patch,
        cutPart '+'.toUInt8 s = some (behind, v.build) ∧
        cutPart '-'.toUInt8 behind = some (core, v.preRelease) ∧
        core.splitOn '.'.toUInt8 = [major, minor, patch] ∧
        component? major = some v.major ∧
        component? minor = some v.minor ∧
        component? patch = some v.patch := by
  unfold parse?
  simp only [Option.bind_eq_bind, Option.bind_eq_some_iff]
  constructor
  · rintro ⟨⟨behind, build⟩, hBuild, ⟨core, preRelease⟩, hPre, hCore⟩
    dsimp only at hPre hCore
    split at hCore
    · next major minor patch hSplit =>
        simp only [Option.bind_eq_some_iff] at hCore
        rcases hCore with ⟨a, hMajor, b, hMinor, c, hPatch, hEq⟩
        cases hEq
        exact ⟨behind, core, major, minor, patch, hBuild, hPre,
          hSplit, hMajor, hMinor, hPatch⟩
    · cases hCore
  · rintro ⟨behind, core, major, minor, patch, hBuild, hPre, hSplit,
      hMajor, hMinor, hPatch⟩
    refine ⟨_, hBuild, _, hPre, ?_⟩
    dsimp only
    rw [hSplit]
    dsimp only
    rw [hMajor, hMinor, hPatch]
    rfl

/- The components of a version, with the dots between them. -/
def coreText (major minor patch : Text) : Text :=
  major ++ '.'.toUInt8 :: (minor ++ '.'.toUInt8 :: patch)

theorem notMem_coreText
    {b : UInt8}
    {major minor patch : Text}
    (hDot : b ≠ '.'.toUInt8)
    (hMajor : b ∉ major)
    (hMinor : b ∉ minor)
    (hPatch : b ∉ patch) :
    b ∉ coreText major minor patch := by
  unfold coreText
  simp only [List.mem_append, List.mem_cons, not_or]
  exact ⟨hMajor, hDot, hMinor, hDot, hPatch⟩

/- A part has its mark and the bytes of its text. -/
theorem mem_part_iff
    {b mark : UInt8}
    {s : Text} :
    b ∈ part mark s ↔ s ≠ [] ∧ (b = mark ∨ b ∈ s) := by
  cases s with
  | nil => simp [part]
  | cons c s => simp [part]

/- What is read is spelled by the text which it is read from. -/
theorem spells_of_parse?
    {s : Text}
    {v : Version}
    (hParse : parse? s = some v) :
    Spells s v := by
  rcases parse?_eq_some_iff.mp hParse with
    ⟨behind, core, major, minor, patch, hBuild, hPre, hSplit,
      hMajor, hMinor, hPatch⟩
  rcases cutPart_eq_some_iff.mp hBuild with ⟨rfl, hPlus⟩
  rcases cutPart_eq_some_iff.mp hPre with ⟨rfl, -⟩
  rcases Text.splitOn_eq_three_iff.mp hSplit with ⟨rfl, -⟩
  rw [component?_eq_some_iff] at hMajor hMinor hPatch
  refine ⟨major, minor, patch, _, _, by simp, hMajor, hMinor, hPatch,
    partText_iff.mpr rfl, ?_, partText_iff.mpr rfl⟩
  intro hMember
  have hPart : '+'.toUInt8 ∈ part '-'.toUInt8 v.preRelease :=
    mem_part_iff.mpr ⟨List.ne_nil_of_mem hMember, Or.inr hMember⟩
  exact hPlus (List.mem_append_right _ hPart)

/-
  A text which spells a version is read as that version. The
  first plus sign begins the build metadata, and the first
  dash in front of it the pre-release.
-/
theorem parse?_of_spells
    {s : Text}
    {v : Version}
    (hSpells : Spells s v) :
    parse? s = some v := by
  rcases hSpells with
    ⟨major, minor, patch, preRelease, build, rfl, hMajor, hMinor,
      hPatch, hPre, hPlus, hBuild⟩
  rw [partText_iff] at hPre hBuild
  subst hPre hBuild
  have hDash :
      '-'.toUInt8 ∉ coreText major minor patch :=
    notMem_coreText (by decide) hMajor.marks_notMem.2.1
      hMinor.marks_notMem.2.1 hPatch.marks_notMem.2.1
  have hBehind :
      '+'.toUInt8 ∉
        coreText major minor patch ++
          part '-'.toUInt8 v.preRelease := by
    rw [List.mem_append, not_or, mem_part_iff]
    refine ⟨notMem_coreText (by decide) hMajor.marks_notMem.2.2
      hMinor.marks_notMem.2.2 hPatch.marks_notMem.2.2, ?_⟩
    rintro ⟨-, hMark | hMember⟩
    · exact absurd hMark (by decide)
    · exact hPlus hMember
  refine parse?_eq_some_iff.mpr
    ⟨coreText major minor patch ++ part '-'.toUInt8 v.preRelease,
      coreText major minor patch, major, minor, patch,
      cutPart_eq_some_iff.mpr ⟨by simp [coreText], hBehind⟩,
      cutPart_eq_some_iff.mpr ⟨rfl, hDash⟩,
      Text.splitOn_eq_three_iff.mpr
        ⟨rfl, hMajor.marks_notMem.1, hMinor.marks_notMem.1,
          hPatch.marks_notMem.1⟩,
      component?_eq_some_iff.mpr hMajor,
      component?_eq_some_iff.mpr hMinor,
      component?_eq_some_iff.mpr hPatch⟩

theorem parse_eq_ok_iff_spells
    {s : Text}
    {v : Version} :
    parse s = .ok v ↔ Spells s v := by
  have hRead : parse? s = some v ↔ Spells s v :=
    ⟨spells_of_parse?, parse?_of_spells⟩
  rw [← hRead]
  unfold parse
  cases parse? s with
  | none => simp
  | some v' => simp

/- A text which is refused is told of as a whole. -/
theorem parse_eq_error_iff
    {s : Text}
    {e : InvalidVersion} :
    parse s = .error e ↔ e = ⟨s⟩ ∧ ¬ ∃ v, Spells s v := by
  constructor
  · intro hFails
    constructor
    · unfold parse at hFails
      split at hFails
      · cases hFails
      · cases hFails
        rfl
    · rintro ⟨v, hSpells⟩
      rw [parse_eq_ok_iff_spells.mpr hSpells] at hFails
      cases hFails
  · rintro ⟨rfl, hNone⟩
    cases hParse : parse? s with
    | none =>
        unfold parse
        rw [hParse]
    | some v =>
        exact absurd ⟨v, spells_of_parse? hParse⟩ hNone

------------------------------------------------------------
-- Writing Of Versions
------------------------------------------------------------

/- A version is written as any text that spells it. -/
theorem Spells.render_eq
    {s : Text}
    {v : Version}
    (hSpells : Spells s v) :
    v.render = s := by
  rcases hSpells with
    ⟨major, minor, patch, preRelease, build, rfl, hMajor, hMinor,
      hPatch, hPre, -, hBuild⟩
  unfold render
  rw [hMajor.ofNat_eq, hMinor.ofNat_eq, hPatch.ofNat_eq,
    partText_iff.mp hPre, partText_iff.mp hBuild,
    List.append_assoc patch]

/- What is written spells the version it is written for. -/
theorem spells_render
    {v : Version}
    (hMajor : v.major.toNat < componentBound)
    (hMinor : v.minor.toNat < componentBound)
    (hPatch : v.patch.toNat < componentBound)
    (hPre : '+'.toUInt8 ∉ v.preRelease) :
    Spells v.render v := by
  refine ⟨_, _, _, _, _, ?_, componentText_ofNat hMajor,
    componentText_ofNat hMinor, componentText_ofNat hPatch,
    partText_iff.mpr rfl, hPre, partText_iff.mpr rfl⟩
  unfold render
  rw [List.append_assoc (Decimal.ofNat v.patch.toNat)]

/-
  A text is read as a version just if it spells one, and else
  it is refused as invalid. What is read is written as the
  text it was read from, and no number on the way is too
  large for 32 bits. A version with small components and no
  plus sign in its pre-release is read from what is written.
-/
theorem parse_exact :
    (∀ s,
      (∀ v, parse s = .ok v ↔ Spells s v) ∧
        (∀ e, parse s = .error e ↔
          e = ⟨s⟩ ∧ ¬ ∃ v, Spells s v) ∧
        ∀ v, parse s = .ok v → v.render = s) ∧
      (∀ s n, component? s = some n →
        ComponentText s n.toNat ∧ AddsUp s) ∧
      ∀ v : Version,
        v.major.toNat < componentBound →
        v.minor.toNat < componentBound →
        v.patch.toNat < componentBound →
        '+'.toUInt8 ∉ v.preRelease →
          parse v.render = .ok v := by
  refine ⟨?_, ?_, ?_⟩
  · intro s
    refine ⟨fun v => parse_eq_ok_iff_spells, fun e => parse_eq_error_iff, ?_⟩
    intro v hParse
    exact (parse_eq_ok_iff_spells.mp hParse).render_eq
  · intro s n hComponent
    exact ⟨component?_eq_some_iff.mp hComponent,
      addsUp_of_component? hComponent⟩
  · intro v hMajor hMinor hPatch hPre
    exact parse_eq_ok_iff_spells.mpr (spells_render hMajor hMinor hPatch hPre)

/- A nightly build, with marks inside its parts. -/
def nightly : Version where
  major := 0
  minor := 8
  patch := 999999999
  preRelease := ascii "nightly-2023.6.30"
  build := ascii "commit-1f5f+1a2e"

/- The same as text. -/
def nightlyText : Text :=
  ascii "0.8.999999999-nightly-2023.6.30+commit-1f5f+1a2e"

theorem parse_nightlyText :
    (parse nightlyText = .ok nightly ∧ Spells nightlyText nightly ∧
        nightly.render = nightlyText) ∧
      (parse (ascii "0.08.19") = .error ⟨ascii "0.08.19"⟩ ∧
        ¬ ∃ v, Spells (ascii "0.08.19") v) ∧
      (component? (ascii "999999999") = some 999999999 ∧
        AddsUp (ascii "999999999")) ∧
      nightly.major.toNat < componentBound ∧
      nightly.minor.toNat < componentBound ∧
      nightly.patch.toNat < componentBound ∧
      '+'.toUInt8 ∉ nightly.preRelease ∧
      parse nightly.render = .ok nightly := by
  rcases parse_exact with ⟨hRead, hComponents, hWritten⟩
  have hNightly : parse nightlyText = .ok nightly := by
    rfl
  have hRefused :
      parse (ascii "0.08.19") = .error ⟨ascii "0.08.19"⟩ := by
    rfl
  have hComponent :
      component? (ascii "999999999") = some 999999999 := by
    rfl
  have hSmall :
      nightly.major.toNat < componentBound ∧
        nightly.minor.toNat < componentBound ∧
        nightly.patch.toNat < componentBound ∧
        '+'.toUInt8 ∉ nightly.preRelease := by
    decide +kernel
  rcases hSmall with ⟨hMajor, hMinor, hPatch, hPre⟩
  exact ⟨⟨hNightly, ((hRead _).1 _).mp hNightly,
      (hRead _).2.2 _ hNightly⟩,
    ⟨hRefused, (((hRead _).2.1 _).mp hRefused).2⟩,
    ⟨hComponent, (hComponents _ _ hComponent).2⟩,
    hMajor, hMinor, hPatch, hPre,
    hWritten nightly hMajor hMinor hPatch hPre⟩

end Version

end ContractLinker
