import ContractLinker.Dictionary
import ContractLinker.Json.Double

/-
  JSON values. Objects hold their members in the order of
  the keys, each key once.

  Key definitions include:
    * `Json`
    * `Json.member?`
    * `Json.isObject`, `Json.isArray`
    * `Json.string?`
    * `Json.int64?`
    * `Json.uint64?`
    * `Json.object`
-/

------------------------------------------------------------
-- Values
------------------------------------------------------------

namespace ContractLinker

/- A JSON value. Integers are told apart from doubles. -/
inductive Json where
  | null
  | bool (value : Bool)
  | int (value : Int)
  | double (value : Double)
  | str (value : Text)
  | arr (items : List Json)
  | obj (members : List (Text × Json))

namespace Json

------------------------------------------------------------
-- Equality
------------------------------------------------------------

mutual

/- Equality of values is decided along their structure. -/
def decEq : (a b : Json) → Decidable (a = b)
  | .null, .null => isTrue rfl
  | .bool a, .bool b => decidable_of_iff (a = b) (by simp)
  | .int a, .int b => decidable_of_iff (a = b) (by simp)
  | .double a, .double b => decidable_of_iff (a = b) (by simp)
  | .str a, .str b => decidable_of_iff (a = b) (by simp)
  | .arr a, .arr b =>
      match decEqItems a b with
      | isTrue h => isTrue (by rw [h])
      | isFalse h => isFalse (by simpa using h)
  | .obj a, .obj b =>
      match decEqMembers a b with
      | isTrue h => isTrue (by rw [h])
      | isFalse h => isFalse (by simpa using h)
  | .null, .bool _ | .null, .int _ | .null, .double _
  | .null, .str _ | .null, .arr _ | .null, .obj _
  | .bool _, .null | .bool _, .int _ | .bool _, .double _
  | .bool _, .str _ | .bool _, .arr _ | .bool _, .obj _
  | .int _, .null | .int _, .bool _ | .int _, .double _
  | .int _, .str _ | .int _, .arr _ | .int _, .obj _
  | .double _, .null | .double _, .bool _ | .double _, .int _
  | .double _, .str _ | .double _, .arr _ | .double _, .obj _
  | .str _, .null | .str _, .bool _ | .str _, .int _
  | .str _, .double _ | .str _, .arr _ | .str _, .obj _
  | .arr _, .null | .arr _, .bool _ | .arr _, .int _
  | .arr _, .double _ | .arr _, .str _ | .arr _, .obj _
  | .obj _, .null | .obj _, .bool _ | .obj _, .int _
  | .obj _, .double _ | .obj _, .str _ | .obj _, .arr _ =>
      isFalse (by simp)
termination_by structural a => a

def decEqItems : (a b : List Json) → Decidable (a = b)
  | [], [] => isTrue rfl
  | [], _ :: _ => isFalse (by simp)
  | _ :: _, [] => isFalse (by simp)
  | x :: xs, y :: ys =>
      match decEq x y, decEqItems xs ys with
      | isTrue h, isTrue h' => isTrue (by rw [h, h'])
      | isFalse h, _ => isFalse (by simp [h])
      | _, isFalse h => isFalse (by simp [h])
termination_by structural a => a

def decEqMembers : (a b : List (Text × Json)) → Decidable (a = b)
  | [], [] => isTrue rfl
  | [], _ :: _ => isFalse (by simp)
  | _ :: _, [] => isFalse (by simp)
  | (k, x) :: xs, (l, y) :: ys =>
      match decEq x y, decEqMembers xs ys with
      | isTrue h, isTrue h' =>
          decidable_of_iff (k = l) (by simp [h, h'])
      | isFalse h, _ => isFalse (by simp [h])
      | _, isFalse h => isFalse (by simp [h])
termination_by structural a => a

end

instance : DecidableEq Json :=
  decEq

------------------------------------------------------------
-- Inspection
------------------------------------------------------------

/- Whether a value is an object. -/
def isObject : Json → Bool
  | .obj _ => true
  | _ => false

/- Whether a value is an array. -/
def isArray : Json → Bool
  | .arr _ => true
  | _ => false

/- The member of a name. A member holding `null` is present. -/
def member? (name : Text) : Json → Option Json
  | .obj members => Dictionary.get? name members
  | _ => none

/- The text of a string. -/
def string? : Json → Option Text
  | .str s => some s
  | _ => none

/- The value of a number without a fraction. -/
def integral? : Json → Option Int
  | .int n => some n
  | .double x => x.toInt?
  | _ => none

/- The value of a number which is a signed integer of 64 bits. -/
def int64? (j : Json) : Option Int64 :=
  match j.integral? with
  | some n =>
      if Int64.minValue.toInt ≤ n ∧ n ≤ Int64.maxValue.toInt then
        some (Int64.ofInt n)
      else
        none
  | none => none

/- The value of a number which is an unsigned integer of 64 bits. -/
def uint64? (j : Json) : Option UInt64 :=
  match j.integral? with
  | some n =>
      if 0 ≤ n ∧ n < UInt64.size then
        some (UInt64.ofNat n.toNat)
      else
        none
  | none => none

------------------------------------------------------------
-- Construction
------------------------------------------------------------

/- An integer of 64 bits as a value. -/
def ofInt64 (n : Int64) : Json :=
  .int n.toInt

def ofUInt64 (n : UInt64) : Json :=
  .int n.toNat

/- An array of strings. -/
def ofTexts (texts : List Text) : Json :=
  .arr (texts.map .str)

/-
  The object of those members of a list which are present.
  The list is in the order of the keys.
-/
def object (members : List (Text × Option Json)) : Json :=
  .obj
    (members.filterMap fun (name, value) =>
      value.map fun v => (name, v))

end Json

end ContractLinker
