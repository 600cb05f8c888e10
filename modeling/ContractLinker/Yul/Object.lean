import ContractLinker.Dictionary
import ContractLinker.Json.Basic

/-
  Objects of the object notation: named containers of code,
  data and further objects. The object whose name is that of
  its parent with a suffix is the parent's runtime object.

  Key definitions include:
    * `Yul.Code`
    * `Yul.Object`
    * `Yul.runtimeName`
    * `Yul.Object.factoryDependencies`
    * `Yul.Object.toJson`
-/

------------------------------------------------------------
-- Objects
------------------------------------------------------------

namespace ContractLinker

namespace Yul

/-
  A block of code, braces included, and the names which it
  asks the size or the offset of.
-/
structure Code where
  text : Text
  references : TextSet
deriving DecidableEq, Repr

/- An object. The runtime object is kept apart from the others. -/
structure Object where
  name : Text
  code : Code
  data : List (Text × Text)
  runtime : Option Object
  subObjects : List Object

/- The name of the runtime object of an object. -/
def runtimeName (name : Text) : Text :=
  name ++ ascii "_deployed"

------------------------------------------------------------
-- Dependencies
------------------------------------------------------------

namespace Object

/-
  The references of an object's own code to anything but
  itself, its data and its runtime object.
-/
def foreignReferences (name : Text) (code : Code)
    (data : Dictionary Text) (runtime : Option Text) : TextSet :=
  code.references.filter fun reference =>
    reference != name && !data.contains reference &&
      some reference != runtime

mutual

/- The objects which an object and its runtime object create. -/
def factoryDependencies : Object → TextSet
  | ⟨name, code, data, runtime, _⟩ =>
      TextSet.union
        (foreignReferences name code data (runtime.map Object.name))
        (runtimeDependencies runtime)
termination_by structural o => o

/- The objects which a runtime object creates, if there is one. -/
def runtimeDependencies : Option Object → TextSet
  | none => []
  | some o => factoryDependencies o
termination_by structural o => o

end

------------------------------------------------------------
-- Encoding
------------------------------------------------------------

mutual

/- An object as JSON. Only runtime objects are written in full. -/
def toJson : Object → Json
  | ⟨name, code, data, runtime, subObjects⟩ =>
      .object
        [ (ascii "factoryDependencies",
            some
              (.ofTexts
                (factoryDependencies
                  ⟨name, code, data, runtime, subObjects⟩))),
          (ascii "name", some (.str name)),
          (ascii "runtime", runtimeJson runtime),
          (ascii "subObjects",
            some (.ofTexts (subObjects.map Object.name))) ]
termination_by structural o => o

/- A runtime object as JSON, if there is one. -/
def runtimeJson : Option Object → Option Json
  | none => none
  | some o => some (toJson o)
termination_by structural o => o

end

end Object

end Yul

end ContractLinker
