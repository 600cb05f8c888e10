import ContractLinker.Dictionary
import ContractLinker.Text.Hex

/-
  Addresses of deployed libraries, given as specifications
  of the form `file:Name=address`.

  Key definitions include:
    * `Libraries`
    * `LibraryError`
    * `Libraries.Entry`
    * `Libraries.Entry.parse`
    * `Libraries.parse`
-/

------------------------------------------------------------
-- Errors
------------------------------------------------------------

namespace ContractLinker

/- What is wrong with a library specification. -/
inductive LibraryError where
  | missingAddress (specification : Text)
  | malformed (specification : Text)
  | invalidAddress (address path : Text)
deriving DecidableEq, Repr

/- What a user is told. -/
def LibraryError.message : LibraryError → Text
  | .missingAddress specification =>
      ascii "Library specification `" ++ specification ++
        ascii "` is missing the address"
  | .malformed specification =>
      ascii "Library specification `" ++ specification ++
        ascii "` must be of the form `file:Name=address`"
  | .invalidAddress address path =>
      ascii "Invalid address `" ++ address ++
        ascii "` of library `" ++ path ++ ascii "`"

------------------------------------------------------------
-- Entries
------------------------------------------------------------

/- The addresses of libraries, by file and then by name. -/
abbrev Libraries :=
  Dictionary (Dictionary Text)

namespace Libraries

/- One library with its address. -/
structure Entry where
  file : Text
  name : Text
  address : Text
deriving DecidableEq, Repr

/- The hexadecimal mark and the forty digits of an address. -/
def isAddress (s : Text) : Bool :=
  Hex.mark.isPrefixOf s && s.length = 42 && Hex.isNumeral s

/-
  Read a specification. White space around it is dropped; the
  last equals sign and the last colon in front of it part the
  file, the name and the address.
-/
def Entry.parse (specification : Text) :
    Except LibraryError Entry :=
  match specification.trim.cutLast '='.toUInt8 with
  | none => .error (.missingAddress specification)
  | some (path, address) =>
      match path.cutLast ':'.toUInt8 with
      | none => .error (.malformed specification)
      | some (file, name) =>
          if file.isEmpty || name.isEmpty then
            .error (.malformed specification)
          else if isAddress address then
            .ok { file, name, address }
          else
            .error (.invalidAddress address path)

------------------------------------------------------------
-- Tables
------------------------------------------------------------

/- Put a library into a table, in the place of an earlier one. -/
def add (table : Libraries) (e : Entry) : Libraries :=
  table.insert e.file
    (((table.get? e.file).getD []).insert e.name e.address)

/- Read specifications, the last one of a library deciding. -/
def parse (specifications : List Text) :
    Except LibraryError Libraries := do
  let entries ← specifications.mapM Entry.parse
  return entries.foldl add []

end Libraries

end ContractLinker
