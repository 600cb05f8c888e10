import ContractLinker.Files

/-
  Dumps of intermediate code. Each contract has a file of its
  own in the debug output directory, named by its full path
  without the bytes that part directories.

  Key definitions include:
    * `Dump.fileName`
    * `Dump.Error`
    * `Dump.path`
    * `Dump.write`
-/

------------------------------------------------------------
-- Names
------------------------------------------------------------

namespace ContractLinker

namespace Dump

/- The name of a contract's file, without extension. -/
def fileName (contractPath : Text) : Text :=
  (contractPath.replaceByte '/'.toUInt8 '_'.toUInt8).replaceByte
    ':'.toUInt8 '.'.toUInt8

/- The path of a name in a directory. -/
def within (directory name : Text) : Text :=
  if directory.isEmpty || directory.getLast? = some FileTree.slash then
    directory ++ name
  else
    directory ++ FileTree.slash :: name

/- The path of a contract's file. -/
def path (directory contractPath : Text) : Text :=
  within directory (fileName contractPath ++ ascii ".yul")

------------------------------------------------------------
-- Writing
------------------------------------------------------------

/- Why a dump cannot be written. -/
inductive Error where
  | directory (path : Text)
  | file (path : Text)
deriving DecidableEq, Repr

/-
  What a user is told. The reason behind the colon is a text
  of the system which a tree of files does not have; `not a
  directory` stands for all of them.
-/
def Error.message : Error → Text
  | .directory path =>
      ascii "Could not create the debug output directory " ++ path ++
        ascii ": not a directory"
  | .file path =>
      ascii "Could not write to file " ++
        Text.doubleQuote :: (path ++ [Text.doubleQuote]) ++ ascii "."

/- Write the code of a contract into its file. -/
def write (directory contractPath code : Text) (t : FileTree) :
    FileTree × Option Error :=
  match t.createDirectories directory with
  | (t, false) => (t, some (.directory directory))
  | (t, true) =>
      let path := path directory contractPath
      match t.write path code with
      | (t, false) => (t, some (.file path))
      | (t, true) => (t, none)

end Dump

end ContractLinker
