import ContractLinker.Json.Decode

/-
  Instructions of an assembly listing. Some of them are
  data aliases: their operand is a key of the data section,
  which linking replaces by the path of a contract.

  Key definitions include:
    * `Instruction`
    * `Instruction.Kind`
    * `Instruction.localReference`
    * `Instruction.link`
    * `Instruction.toJson`
    * `Instruction.ofJson`
-/

------------------------------------------------------------
-- Instructions
------------------------------------------------------------

namespace ContractLinker

/- One item of a listing, with its place in the sources. -/
structure Instruction where
  name : Text
  value : Option Text
  source : Option Int64
  rangeBegin : Option Int64
  rangeEnd : Option Int64
  jumpType : Option Text
deriving DecidableEq

namespace Instruction

/- What the operand of an instruction refers to. -/
inductive Kind where
  | subOffset
  | subSize
  | data
  | other
deriving DecidableEq, Repr

/- The kind goes by the name alone. -/
def kind (i : Instruction) : Kind :=
  if i.name = ascii "PUSH [$]" then .subOffset
  else if i.name = ascii "PUSH #[$]" then .subSize
  else if i.name = ascii "PUSH data" then .data
  else .other

/- Whether the operand is a key of the data section. -/
def isDataAlias (i : Instruction) : Bool :=
  i.kind != .other

------------------------------------------------------------
-- Data References
------------------------------------------------------------

/- Data references are numbers of 32 bytes in hexadecimal. -/
def referenceWidth : Nat :=
  64

/- A key or an operand at the full width of a reference. -/
def reference (s : Text) : Text :=
  s.padLeft referenceWidth

/- The reference which a data alias with an operand makes. -/
def localReference (i : Instruction) : Option Text :=
  if i.isDataAlias then i.value.map reference else none

/- Replace the operand of a data alias that has been resolved. -/
def link (mapping : Dictionary Text) (i : Instruction) :
    Instruction :=
  match i.localReference with
  | none => i
  | some key =>
      match mapping.get? key with
      | none => i
      | some path => { i with value := some path }

------------------------------------------------------------
-- Encoding
------------------------------------------------------------

/- An instruction as an object of its present fields. -/
def toJson (i : Instruction) : Json :=
  .object
    [ (ascii "begin", i.rangeBegin.map .ofInt64),
      (ascii "end", i.rangeEnd.map .ofInt64),
      (ascii "jumpType", i.jumpType.map .str),
      (ascii "name", some (.str i.name)),
      (ascii "source", i.source.map .ofInt64),
      (ascii "value", i.value.map .str) ]

/- A field which has to be an integer of 64 bits if present. -/
def decodeInteger (name : Text) (j : Json) :
    Except DecodeError (Option Int64) :=
  match j.member? name with
  | none => .ok none
  | some value =>
      match value.int64? with
      | some n => .ok (some n)
      | none => .error (.instructionField name)

/- Decode an instruction. -/
def ofJson (j : Json) : Except DecodeError Instruction := do
  let _ ← j.requireObject (ascii "instruction")
  let name ←
    match j.member? (ascii "name") with
    | some (.str name) => .ok name
    | _ => .error .instructionName
  let value ← j.optionalString (ascii "value")
  let source ← decodeInteger (ascii "source") j
  let rangeBegin ← decodeInteger (ascii "begin") j
  let rangeEnd ← decodeInteger (ascii "end") j
  let jumpType ← j.optionalString (ascii "jumpType")
  return {
    name, value, source, rangeBegin, rangeEnd, jumpType
  }

end Instruction

end ContractLinker
