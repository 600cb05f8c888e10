import ContractLinker.Json.Basic

/-
  Reading typed values out of JSON. A decoder names what is
  wrong by a `DecodeError`, whose wording is in
  `DecodeError.message`.

  Key definitions include:
    * `DecodeError`
    * `DecodeError.message`
    * `Json.requireObject`
    * `Json.requireArray`
    * `Json.optionalString`
    * `Json.requiredString`
    * `Json.optional`
    * `Dictionary.traverse`
-/

------------------------------------------------------------
-- Errors
------------------------------------------------------------

namespace ContractLinker

/- What keeps a document from being a report. -/
inductive DecodeError where
  | malformedReport
  | notString (name : Text)
  | notObject (what : Text)
  | notArray (what : Text)
  | instructionName
  | instructionField (name : Text)
  | dataEntry
  | factoryDependency
  | missingString (name : Text)
  | locationField (name : Text)
  | sourceId
deriving DecidableEq, Repr

namespace DecodeError

/- A text between double quotes. -/
def quoted (s : Text) : Text :=
  Text.doubleQuote :: (s ++ [Text.doubleQuote])

/-
  What a user is told. What is wrong with a malformed report
  is said by the JSON library in texts of its own; `malformed
  document` stands for all of them.
-/
def message : DecodeError → Text
  | .malformedReport =>
      ascii "Invalid solc output JSON: malformed document"
  | .notString name => quoted name ++ ascii " must be a string"
  | .notObject what => quoted what ++ ascii " must be an object"
  | .notArray what => quoted what ++ ascii " must be an array"
  | .instructionName =>
      ascii "Instruction must have a string " ++
        quoted (ascii "name")
  | .instructionField name =>
      ascii "Instruction field " ++ quoted name ++
        ascii " must be an integer"
  | .dataEntry =>
      ascii "Assembly data entry must be an object or a string"
  | .factoryDependency =>
      quoted (ascii "factoryDependencies") ++
        ascii " values must be strings"
  | .missingString name =>
      ascii "Error entry must have a string " ++ quoted name
  | .locationField name =>
      ascii "Source location must have an integer " ++ quoted name
  | .sourceId =>
      ascii "Source " ++ quoted (ascii "id") ++
        ascii " must be an unsigned integer"

end DecodeError

------------------------------------------------------------
-- Decoders
------------------------------------------------------------

namespace Json

/- The members of a value which has to be an object. -/
def requireObject (what : Text) :
    Json → Except DecodeError (Dictionary Json)
  | .obj members => .ok members
  | _ => .error (.notObject what)

/- The elements of a value which has to be an array. -/
def requireArray (what : Text) :
    Json → Except DecodeError (List Json)
  | .arr items => .ok items
  | _ => .error (.notArray what)

/- The text of a member, which has to be a string if present. -/
def optionalString (name : Text) (j : Json) :
    Except DecodeError (Option Text) :=
  match j.member? name with
  | none => .ok none
  | some (.str s) => .ok (some s)
  | some _ => .error (.notString name)

/- The text of a member, which has to be a string. -/
def requiredString (name : Text) (j : Json) :
    Except DecodeError Text := do
  match ← j.optionalString name with
  | some s => .ok s
  | none => .error (.missingString name)

/- Decode a member if it is present. -/
def optional {α : Type} (name : Text)
    (decode : Json → Except DecodeError α) (j : Json) :
    Except DecodeError (Option α) :=
  match j.member? name with
  | none => .ok none
  | some value => (decode value).map some

end Json

/- Decode the values of a dictionary in key order. -/
def Dictionary.traverse {α β ε : Type}
    (f : Text → α → Except ε β) :
    Dictionary α → Except ε (Dictionary β)
  | [] => .ok []
  | (k, a) :: rest => do
      let b ← f k a
      let rest ← Dictionary.traverse f rest
      .ok ((k, b) :: rest)

end ContractLinker
