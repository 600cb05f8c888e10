import ContractLinker.Assembly.Basic
import ContractLinker.Json.Printer
import ContractLinker.Keccak.Sponge

/-
  Assemblies in JSON. The canonical form leaves the auxiliary
  data out at every level, so that it depends on nothing but
  code and data; the content hash is the Keccak-256 digest of
  its compact text.

  Key definitions include:
    * `Assembly.toJson`
    * `Assembly.canonicalText`
    * `Assembly.contentHash`
    * `Assembly.ofJson`
    * `DataEntry.ofJson`
-/

------------------------------------------------------------
-- Encoding
------------------------------------------------------------

namespace ContractLinker

mutual

/- Encode an entry, with or without auxiliary data inside. -/
def DataEntry.encode (withAuxdata : Bool) : DataEntry → Json
  | .nested a => Assembly.encode withAuxdata a
  | .hash text => .str text
  | .path text => .str text
termination_by structural e => e

/- Encode an assembly, with or without auxiliary data. -/
def Assembly.encode (withAuxdata : Bool) : Assembly → Json
  | ⟨_, code, data, auxdata, _⟩ =>
      .object
        [ (ascii ".auxdata",
            if withAuxdata then auxdata.map .str else none),
          (ascii ".code",
            code.map fun instructions =>
              .arr (instructions.map Instruction.toJson)),
          (ascii ".data", encodeData withAuxdata data) ]
termination_by structural a => a

/- Encode a data section which is present. -/
def encodeData (withAuxdata : Bool) :
    Option (List (Text × DataEntry)) → Option Json
  | none => none
  | some entries => some (.obj (encodeEntries withAuxdata entries))
termination_by structural d => d

/- Encode entries under their keys. -/
def encodeEntries (withAuxdata : Bool) :
    List (Text × DataEntry) → List (Text × Json)
  | [] => []
  | (key, entry) :: rest =>
      (key, entry.encode withAuxdata) ::
        encodeEntries withAuxdata rest
termination_by structural entries => entries

end

namespace DataEntry

/- An entry as JSON. Hashes and paths are written alike. -/
def toJson (e : DataEntry) : Json :=
  e.encode true

end DataEntry

namespace Assembly

/- An assembly as JSON. -/
def toJson (a : Assembly) : Json :=
  a.encode true

/- The text which identifies code and data of an assembly. -/
def canonicalText (a : Assembly) : Text :=
  (a.encode false).compact

/- The digest of the canonical text. -/
def contentHash (a : Assembly) : Text :=
  Keccak.hexDigest a.canonicalText

end Assembly

------------------------------------------------------------
-- Decoding
------------------------------------------------------------

namespace Assembly

/- Decode the code section among some members. -/
def decodeCode (members : List (Text × Json)) :
    Except DecodeError (Option (List Instruction)) :=
  Json.optional (ascii ".code")
    (fun code => do
      let items ← code.requireArray (ascii ".code")
      items.mapM Instruction.ofJson)
    (.obj members)

/-
  Put an assembly together from its members and the outcome
  of decoding its data section. Of several faults the one
  in the code comes first and the auxiliary data last.
-/
def ofMembers (members : List (Text × Json))
    (data : Except DecodeError (Option (List (Text × DataEntry)))) :
    Except DecodeError Assembly := do
  let code ← decodeCode members
  let data ← data
  let auxdata ←
    Json.optionalString (ascii ".auxdata") (.obj members)
  return {
    fullPath := none, code, data, auxdata,
    factoryDependencies := []
  }

end Assembly

mutual

/- Decode an entry: an assembly or a text. -/
def DataEntry.ofJson : Json → Except DecodeError DataEntry
  | .obj members =>
      (Assembly.ofMembers members (decodeData members)).map .nested
  | .str text => .ok (.hash text)
  | .null | .bool _ | .int _ | .double _ | .arr _ =>
      .error .dataEntry
termination_by structural j => j

/- Decode the data section among some members. -/
def decodeData :
    List (Text × Json) →
      Except DecodeError (Option (List (Text × DataEntry)))
  | [] => .ok none
  | (key, j) :: rest =>
      if key = ascii ".data" then
        (decodeSection j).map some
      else
        decodeData rest
termination_by structural members => members

/- Decode a data section, which has to be an object. -/
def decodeSection :
    Json → Except DecodeError (List (Text × DataEntry))
  | .obj entries => decodeEntries entries
  | .null | .bool _ | .int _ | .double _ | .str _ | .arr _ =>
      .error (.notObject (ascii ".data"))
termination_by structural j => j

/- Decode entries in key order. -/
def decodeEntries :
    List (Text × Json) →
      Except DecodeError (List (Text × DataEntry))
  | [] => .ok []
  | (key, j) :: rest =>
      match DataEntry.ofJson j with
      | .error e => .error e
      | .ok entry =>
          (decodeEntries rest).map fun entries =>
            (key, entry) :: entries
termination_by structural entries => entries

end

namespace Assembly

/- Decode an assembly. -/
def ofJson (j : Json) : Except DecodeError Assembly := do
  let members ← j.requireObject (ascii "assembly")
  ofMembers members (decodeData members)

end Assembly

end ContractLinker
