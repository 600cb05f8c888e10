import ContractLinker.Text.Decimal

/-
  Versions of the compiler: three numbers, an optional
  pre-release and optional build metadata.

  Key definitions include:
    * `Version`
    * `Version.parse`
    * `Version.render`
    * `Version.same`
    * `Version.before`
-/

------------------------------------------------------------
-- Versions
------------------------------------------------------------

namespace ContractLinker

/- A version. Empty texts stand for parts which are missing. -/
structure Version where
  major : UInt32
  minor : UInt32
  patch : UInt32
  preRelease : Text
  build : Text
deriving DecidableEq, Repr

/- A text which is no version. -/
structure InvalidVersion where
  text : Text
deriving DecidableEq, Repr

/- What a user is told. -/
def InvalidVersion.message (e : InvalidVersion) : Text :=
  ascii "Invalid version `" ++ e.text ++ ascii "`"

namespace Version

------------------------------------------------------------
-- Reading
------------------------------------------------------------

/- The value of some digits in the arithmetic of 32 bits. -/
def digitsValue (digits : Text) : UInt32 :=
  digits.foldl
    (fun n b => n * 10 + (b - '0'.toUInt8).toUInt32) 0

/- One to nine digits, the first of several not a zero. -/
def isComponent (s : Text) : Bool :=
  !s.isEmpty && s.length ≤ 9 &&
    (s = ascii "0" || s.head? != some '0'.toUInt8) &&
    s.all Text.isDigit

/- The value of a component. -/
def component? (s : Text) : Option UInt32 :=
  if isComponent s then some (digitsValue s) else none

/-
  Cut an optional part off a text at its mark. The part is
  empty if the mark is missing, and only then.
-/
def cutPart (mark : UInt8) (s : Text) : Option (Text × Text) :=
  match s.cutFirst mark with
  | none => some (s, [])
  | some (front, back) =>
      if back.isEmpty then none else some (front, back)

/- The version which a text denotes, if it does. -/
def parse? (s : Text) : Option Version := do
  let (core, build) ← cutPart '+'.toUInt8 s
  let (core, preRelease) ← cutPart '-'.toUInt8 core
  match core.splitOn '.'.toUInt8 with
  | [a, b, c] =>
      let major ← component? a
      let minor ← component? b
      let patch ← component? c
      some { major, minor, patch, preRelease, build }
  | _ => none

/- Read a version. -/
def parse (s : Text) : Except InvalidVersion Version :=
  match parse? s with
  | some v => .ok v
  | none => .error ⟨s⟩

------------------------------------------------------------
-- Writing
------------------------------------------------------------

/- A part behind its mark, nothing if it is missing. -/
def part (mark : UInt8) (s : Text) : Text :=
  if s.isEmpty then [] else mark :: s

/- A version as text. -/
def render (v : Version) : Text :=
  Decimal.ofNat v.major.toNat ++ '.'.toUInt8 ::
    (Decimal.ofNat v.minor.toNat ++ '.'.toUInt8 ::
      (Decimal.ofNat v.patch.toNat ++
        part '-'.toUInt8 v.preRelease ++ part '+'.toUInt8 v.build))

------------------------------------------------------------
-- Order
------------------------------------------------------------

/- The three numbers of a version. -/
def core (v : Version) : UInt32 × UInt32 × UInt32 :=
  (v.major, v.minor, v.patch)

/- Whether two versions are the same but for build metadata. -/
def same (a b : Version) : Bool :=
  a.core = b.core && a.preRelease = b.preRelease

/- Whether the numbers of one version come before another's. -/
def coreBefore (a b : Version) : Bool :=
  a.major < b.major ||
    (a.major = b.major &&
      (a.minor < b.minor ||
        (a.minor = b.minor && a.patch < b.patch)))

/-
  Whether a version comes before another one: by its numbers,
  then a pre-release before the release, then by the bytes
  of the pre-releases.
-/
def before (a b : Version) : Bool :=
  if a.core != b.core then
    coreBefore a b
  else if a.preRelease.isEmpty || b.preRelease.isEmpty then
    !a.preRelease.isEmpty && b.preRelease.isEmpty
  else
    a.preRelease < b.preRelease

/- Whether a version does not come behind another one. -/
def notAfter (a b : Version) : Bool :=
  !b.before a

end Version

end ContractLinker
