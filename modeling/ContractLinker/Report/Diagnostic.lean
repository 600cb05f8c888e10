import ContractLinker.Json.Decode

/-
  Diagnostics of a report: the messages of the compiler and
  those which the linker adds.

  Key definitions include:
    * `SourceLocation`
    * `Diagnostic`
    * `Diagnostic.warning`
    * `Diagnostic.pushPath`
    * `Diagnostic.isError`
    * `Diagnostic.toJson`
    * `Diagnostic.ofJson`
-/

------------------------------------------------------------
-- Source Locations
------------------------------------------------------------

namespace ContractLinker

/- A range of a source file. -/
structure SourceLocation where
  file : Text
  start : Int64
  stop : Int64
deriving DecidableEq

namespace SourceLocation

/- A location as JSON. -/
def toJson (l : SourceLocation) : Json :=
  .object
    [ (ascii "end", some (.ofInt64 l.stop)),
      (ascii "file", some (.str l.file)),
      (ascii "start", some (.ofInt64 l.start)) ]

/- A member which has to be an integer of 64 bits. -/
def requiredInteger (name : Text) (j : Json) :
    Except DecodeError Int64 :=
  match (j.member? name).bind Json.int64? with
  | some n => .ok n
  | none => .error (.locationField name)

/- Decode a location. -/
def ofJson (j : Json) : Except DecodeError SourceLocation := do
  let _ ← j.requireObject (ascii "sourceLocation")
  let file ← j.requiredString (ascii "file")
  let start ← requiredInteger (ascii "start") j
  let stop ← requiredInteger (ascii "end") j
  return { file, start, stop }

end SourceLocation

------------------------------------------------------------
-- Diagnostics
------------------------------------------------------------

/- A message about the sources of a report. -/
structure Diagnostic where
  component : Text
  errorCode : Option Text
  formattedMessage : Text
  message : Text
  severity : Text
  sourceLocation : Option SourceLocation
  type : Text
deriving DecidableEq

namespace Diagnostic

/- A warning with a message of the linker's own. -/
def warning (message : Text) (location : Option SourceLocation) :
    Diagnostic where
  component := ascii "general"
  errorCode := none
  formattedMessage :=
    ascii "Warning: " ++ message ++ [Text.newline]
  message := message
  severity := ascii "warning"
  sourceLocation := location
  type := ascii "Warning"

/-
  Tell a diagnostic where it belongs: its location gets the
  path as file, and its formatted message a line with it.
-/
def pushPath (path : Text) (d : Diagnostic) : Diagnostic :=
  { d with
    sourceLocation := d.sourceLocation.map fun l =>
      { l with file := path }
    formattedMessage :=
      d.formattedMessage ++
        (ascii "--> " ++ path ++ [Text.newline]) }

/- Whether a diagnostic forbids to go on. -/
def isError (d : Diagnostic) : Bool :=
  d.severity = ascii "error"

------------------------------------------------------------
-- Encoding
------------------------------------------------------------

/- A diagnostic as JSON. -/
def toJson (d : Diagnostic) : Json :=
  .object
    [ (ascii "component", some (.str d.component)),
      (ascii "errorCode", d.errorCode.map .str),
      (ascii "formattedMessage", some (.str d.formattedMessage)),
      (ascii "message", some (.str d.message)),
      (ascii "severity", some (.str d.severity)),
      (ascii "sourceLocation",
        d.sourceLocation.map SourceLocation.toJson),
      (ascii "type", some (.str d.type)) ]

/- Decode a diagnostic. -/
def ofJson (j : Json) : Except DecodeError Diagnostic := do
  let _ ← j.requireObject (ascii "error")
  let component ← j.requiredString (ascii "component")
  let errorCode ← j.optionalString (ascii "errorCode")
  let formattedMessage ←
    j.requiredString (ascii "formattedMessage")
  let message ← j.requiredString (ascii "message")
  let severity ← j.requiredString (ascii "severity")
  let sourceLocation ←
    j.optional (ascii "sourceLocation") SourceLocation.ofJson
  let type ← j.requiredString (ascii "type")
  return {
    component, errorCode, formattedMessage, message, severity,
    sourceLocation, type
  }

end Diagnostic

end ContractLinker
