import ContractLinker.Assembly.Encoding

/-
  Linking one assembly. A pass over a data section maps the
  reference of every entry that stands for a contract to
  that contract's path; linking then replaces the operands
  of the code and the entries themselves.

  Key definitions include:
    * `UnresolvedDependency`
    * `Assembly.resolveEntry`
    * `Assembly.sectionPass`
    * `Assembly.deployPass`
    * `Assembly.runtimePass`
    * `Assembly.link`
    * `Assembly.resolve`
-/

------------------------------------------------------------
-- Errors
------------------------------------------------------------

namespace ContractLinker

/- A nested assembly which no contract of the report produced. -/
structure UnresolvedDependency where
  hash : Text
  path : Text
deriving DecidableEq, Repr

namespace UnresolvedDependency

/- What a user is told. -/
def message (e : UnresolvedDependency) : Text :=
  ascii "Contract path not found for hash `" ++ e.hash ++
    ascii "` in `" ++ e.path ++ ascii "`"

end UnresolvedDependency

namespace Assembly

------------------------------------------------------------
-- Passes
------------------------------------------------------------

/-
  The path which an entry stands for. A nested assembly must
  be known by its content hash; a text which is no hash of a
  contract is plain data.
-/
def resolveEntry (fullPath : Text) (hashes : Dictionary Text) :
    DataEntry → Except UnresolvedDependency (Option Text)
  | .nested a =>
      match hashes.get? a.contentHash with
      | some path => .ok (some path)
      | none => .error ⟨a.contentHash, fullPath⟩
  | .hash text => .ok (hashes.get? text)
  | .path text => .ok (some text)

/-
  Map the references of a data section to paths, in key
  order. Of several keys which make the same reference the
  first one counts. The entries of skipped keys are not
  looked at.
-/
def sectionPass (skip : Text → Bool) (fullPath : Text)
    (hashes : Dictionary Text) :
    List (Text × DataEntry) → Dictionary Text →
      Except UnresolvedDependency (Dictionary Text)
  | [], mapping => .ok mapping
  | (key, entry) :: rest, mapping =>
      if skip key then
        sectionPass skip fullPath hashes rest mapping
      else
        match resolveEntry fullPath hashes entry with
        | .error e => .error e
        | .ok none => sectionPass skip fullPath hashes rest mapping
        | .ok (some path) =>
            sectionPass skip fullPath hashes rest
              (mapping.insertNew (Instruction.reference key) path)

/- The pass over the data of the deploy code, runtime code left out. -/
def deployPass (fullPath : Text) (hashes : Dictionary Text)
    (a : Assembly) :
    Except UnresolvedDependency (Dictionary Text) :=
  match a.data with
  | none => .ok []
  | some data =>
      sectionPass (· = runtimeKey) fullPath hashes data []

/- The pass over the data of the runtime code. -/
def runtimePass (fullPath : Text) (hashes : Dictionary Text)
    (a : Assembly) :
    Except UnresolvedDependency (Dictionary Text) :=
  match a.runtimeCode.bind Assembly.data with
  | none => .ok []
  | some data =>
      sectionPass (fun _ => false) fullPath hashes data []

------------------------------------------------------------
-- Replacement
------------------------------------------------------------

/- The path which takes the place of the entry under a key. -/
def linkedPath? (mapping : Dictionary Text) (key : Text) :
    Option Text :=
  mapping.get? (Instruction.reference key)

/- An entry after linking. -/
def linkEntry (mapping : Dictionary Text) (key : Text)
    (entry : DataEntry) : DataEntry :=
  match linkedPath? mapping key with
  | some path => .path path
  | none => entry

/-
  Replace the data aliases of the code and the entries of the
  data section. The paths that were put in become factory
  dependencies.
-/
def link (mapping : Dictionary Text) (a : Assembly) : Assembly :=
  let data := a.data.getD []
  let paths :=
    data.filterMap fun (key, _) => linkedPath? mapping key
  { a with
    code := a.code.map fun code =>
      code.map (Instruction.link mapping)
    data := a.data.map fun data =>
      Dictionary.mapValues (linkEntry mapping) data
    factoryDependencies :=
      TextSet.union a.factoryDependencies paths }

------------------------------------------------------------
-- Resolution Of One Contract
------------------------------------------------------------

/- Link the runtime code and take over what it creates. -/
def linkRuntime (fullPath : Text) (mapping : Dictionary Text)
    (a : Assembly) : Assembly :=
  match a.runtimeCode with
  | none => a
  | some runtime =>
      let linked := link mapping (setFullPath fullPath runtime)
      addFactoryDependencies linked.factoryDependencies
        (mapRuntimeCode (fun _ => linked) a)

/-
  Run both passes on the assembly of a contract, and link it
  only if both succeed.
-/
def resolve (fullPath : Text) (hashes : Dictionary Text)
    (a : Assembly) : Except UnresolvedDependency Assembly := do
  let deploy ← a.deployPass fullPath hashes
  let runtime ← a.runtimePass fullPath hashes
  return linkRuntime fullPath runtime
    (link deploy (setFullPath fullPath a))

end Assembly

end ContractLinker
