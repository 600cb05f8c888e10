import ContractLinker.Json.Decode

/-
  Sources of a report: an identifier and a syntax tree, which
  is kept as it is.

  Key definitions include:
    * `Source`
    * `Source.toJson`
    * `Source.ofJson`
-/

------------------------------------------------------------
-- Sources
------------------------------------------------------------

namespace ContractLinker

/- What a report says about a source file. -/
structure Source where
  id : Option UInt64
  ast : Option Json
deriving DecidableEq

namespace Source

/- A source as JSON. -/
def toJson (s : Source) : Json :=
  .object
    [ (ascii "ast", s.ast),
      (ascii "id", s.id.map .ofUInt64) ]

/- An identifier, which has to be an unsigned integer of 64 bits. -/
def decodeId (j : Json) : Except DecodeError UInt64 :=
  match j.uint64? with
  | some n => .ok n
  | none => .error .sourceId

/- Decode a source. -/
def ofJson (j : Json) : Except DecodeError Source := do
  let _ ← j.requireObject (ascii "source")
  let id ← j.optional (ascii "id") decodeId
  return { id, ast := j.member? (ascii "ast") }

end Source

end ContractLinker
