import ContractLinker.Assembly.Instruction

/-
  Assemblies: a listing of instructions with a data section
  whose entries are nested assemblies, hashes or other raw
  texts, and paths of contracts. The nested assembly under
  the key `0` of a deploy assembly is its runtime code.

  Key definitions include:
    * `Assembly`
    * `DataEntry`
    * `Assembly.same`
    * `Assembly.runtimeCode`
    * `Assembly.mapRuntimeCode`
    * `Assembly.addFactoryDependencies`
-/

------------------------------------------------------------
-- Assemblies And Data Entries
------------------------------------------------------------

namespace ContractLinker

mutual

/-
  An assembly. The full path and the factory dependencies,
  the paths of the contracts it creates, are known only
  after linking. The data section is in key order.
-/
structure Assembly where
  fullPath : Option Text
  code : Option (List Instruction)
  data : Option (List (Text × DataEntry))
  auxdata : Option Text
  factoryDependencies : List Text

/-
  An entry of a data section: a nested assembly, a text as
  the compiler wrote it, or the path of the contract which
  took the place of either.
-/
inductive DataEntry where
  | nested (assembly : Assembly)
  | hash (text : Text)
  | path (text : Text)

end

------------------------------------------------------------
-- Equality
------------------------------------------------------------

mutual

/- Whether two entries are of one kind and the same inside. -/
def DataEntry.same : DataEntry → DataEntry → Bool
  | .nested a, .nested b => Assembly.same a b
  | .hash s, .hash t => s = t
  | .path s, .path t => s = t
  | _, _ => false
termination_by structural e => e

/-
  Whether two assemblies are the same. Factory dependencies
  follow from the data section and are not compared.
-/
def Assembly.same : Assembly → Assembly → Bool
  | ⟨path, code, data, auxdata, _⟩, b =>
      path = b.fullPath && code = b.code &&
        auxdata = b.auxdata && sameData data b.data
termination_by structural a => a

/- Whether two data sections are the same, or both absent. -/
def sameData :
    Option (List (Text × DataEntry)) →
      Option (List (Text × DataEntry)) → Bool
  | none, none => true
  | some d, some e => sameEntries d e
  | _, _ => false
termination_by structural d => d

/- Whether two lists of entries are the same, keys included. -/
def sameEntries :
    List (Text × DataEntry) → List (Text × DataEntry) → Bool
  | [], [] => true
  | (k, x) :: xs, (l, y) :: ys =>
      k = l && x.same y && sameEntries xs ys
  | _, _ => false
termination_by structural xs => xs

end

namespace DataEntry

/- The assembly of an entry which is one. -/
def nested? : DataEntry → Option Assembly
  | .nested a => some a
  | _ => none

end DataEntry

namespace Assembly

------------------------------------------------------------
-- Runtime Code
------------------------------------------------------------

/- The data key of the runtime code. -/
def runtimeKey : Text :=
  ascii "0"

/- The runtime code of a deploy assembly, if it has one. -/
def runtimeCode (a : Assembly) : Option Assembly :=
  match a.data with
  | none => none
  | some data => (Dictionary.get? runtimeKey data).bind DataEntry.nested?

/- Change the runtime code where it stands. -/
def mapRuntimeCode (f : Assembly → Assembly) (a : Assembly) :
    Assembly :=
  { a with
    data := a.data.map fun data =>
      Dictionary.mapValues
        (fun key entry =>
          match entry with
          | .nested runtime =>
              if key = runtimeKey then .nested (f runtime) else entry
          | _ => entry)
        data }

------------------------------------------------------------
-- Contracts
------------------------------------------------------------

/- Tell an assembly the path of its contract. -/
def setFullPath (path : Text) (a : Assembly) : Assembly :=
  { a with fullPath := some path }

/- Add to the contracts which an assembly creates. -/
def addFactoryDependencies (paths : List Text) (a : Assembly) :
    Assembly :=
  { a with
    factoryDependencies := TextSet.union a.factoryDependencies paths }

end Assembly

end ContractLinker
