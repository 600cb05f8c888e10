import ContractLinker.Dictionary

/-
  A tree of files. A path is followed part by part from the
  working directory, or from the root if it begins with a
  slash; a part `..` leads to the directory above. A name
  may have 255 bytes and a path 4095. A path which is too
  long leads nowhere at all; a name which is too long stops
  those who follow a path only when they come to it.

  A tree has no links: different names lead to different
  files. It has no permissions and its device never fails or
  fills up, so every file in it can be opened and read to the
  end. Of the faults of a read, that a regular file cannot be
  opened has therefore no counterpart here.

  Key definitions include:
    * `FileTree`
    * `FileTree.locate`
    * `FileTree.node?`
    * `FileTree.read`
    * `FileTree.createDirectories`
    * `FileTree.write`
-/

------------------------------------------------------------
-- Trees
------------------------------------------------------------

namespace ContractLinker

/- What there is under a path. -/
inductive FileNode where
  | directory
  | file (content : Text)
deriving DecidableEq, Repr

/-
  The nodes below the root, under the names on the way to
  them joined by slashes, and the names on the way to the
  working directory.
-/
structure FileTree where
  nodes : Dictionary FileNode
  workingDirectory : List Text

/- Why a file of a tree cannot be read. Those there are can be. -/
inductive FileError where
  | notFound (path : Text)
  | notAFile (path : Text)
deriving DecidableEq, Repr

/- What a user is told. -/
def FileError.message : FileError → Text
  | .notFound path =>
      Text.doubleQuote :: (path ++ [Text.doubleQuote]) ++
        ascii " is not found."
  | .notAFile path =>
      Text.doubleQuote :: (path ++ [Text.doubleQuote]) ++
        ascii " is not a valid file."

namespace FileTree

------------------------------------------------------------
-- Paths
------------------------------------------------------------

/- The byte between the names of a path. -/
def slash : UInt8 :=
  '/'.toUInt8

/- The names on the way to a node as one text. -/
def join : List Text → Text
  | [] => []
  | [name] => name
  | name :: names => name ++ slash :: join names

/- The longest name, in bytes. -/
def nameLimit : Nat :=
  255

/- The longest path, in bytes. -/
def pathLimit : Nat :=
  4095

/- A part of a path which no node can have as its name. -/
def isTooLong (part : Text) : Bool :=
  nameLimit < part.length

/- A part of a path which leads nowhere else. -/
def isStay (part : Text) : Bool :=
  part.isEmpty || part = ascii "."

/- A part of a path which leads up. -/
def isUp (part : Text) : Bool :=
  part = ascii ".."

/- A part of a path which leads to a node of that name. -/
def isName (part : Text) : Bool :=
  !isStay part && !isUp part

/-
  Where a path begins and its parts, unless it is empty or
  too long. A path ends in front of its first zero byte.
-/
def parts? (t : FileTree) (path : Text) :
    Option (List Text × List Text) :=
  let path := path.takeWhile (· != 0)
  if path.isEmpty || pathLimit < path.length then
    none
  else if path.head? = some slash then
    some ([], path.splitOn slash)
  else
    some (t.workingDirectory, path.splitOn slash)

------------------------------------------------------------
-- Looking Up
------------------------------------------------------------

/- The node to which some names lead. The root is a directory. -/
def at? (t : FileTree) (names : List Text) : Option FileNode :=
  if names.isEmpty then
    some .directory
  else
    t.nodes.get? (join names)

/-
  Follow some parts from a node. Only a directory can be
  gone through; the last part may lead to nothing.
-/
def follow (t : FileTree) :
    List Text → List Text → Option (List Text)
  | names, [] => some names
  | names, part :: rest =>
      if t.at? names = some .directory then
        if isStay part then
          follow t names rest
        else if isUp part then
          follow t names.dropLast rest
        else if isTooLong part then
          none
        else
          follow t (names ++ [part]) rest
      else
        none

/- The names to which a path leads. -/
def locate (t : FileTree) (path : Text) : Option (List Text) :=
  (t.parts? path).bind fun (start, parts) => t.follow start parts

/- The node under a path. -/
def node? (t : FileTree) (path : Text) : Option FileNode :=
  (t.locate path).bind t.at?

/- The content of a file. -/
def read (t : FileTree) (path : Text) : Except FileError Text :=
  match t.node? path with
  | none => .error (.notFound path)
  | some .directory => .error (.notAFile path)
  | some (.file content) => .ok content

------------------------------------------------------------
-- Changing
------------------------------------------------------------

/- Put a node where some names lead. -/
def put (t : FileTree) (names : List Text) (node : FileNode) :
    FileTree :=
  { t with nodes := t.nodes.insert (join names) node }

/-
  Follow some parts from a node, creating the directories
  which are missing. A file on the way, or a name which is
  too long, ends it; what was created before stays.
-/
def create : FileTree → List Text → List Text → FileTree × Bool
  | t, _, [] => (t, true)
  | t, names, part :: rest =>
      if isStay part then
        create t names rest
      else if isUp part then
        create t names.dropLast rest
      else if isTooLong part then
        (t, false)
      else
        match t.at? (names ++ [part]) with
        | none =>
            create (t.put (names ++ [part]) .directory)
              (names ++ [part]) rest
        | some .directory => create t (names ++ [part]) rest
        | some (.file _) => (t, false)

/-
  How many directories some parts lack: the names from the
  first one on which leads to no directory.
-/
def missing (t : FileTree) : List Text → List Text → Nat
  | _, [] => 0
  | names, part :: rest =>
      if isStay part then
        missing t names rest
      else if isUp part then
        missing t names.dropLast rest
      else if t.at? (names ++ [part]) = some .directory then
        missing t (names ++ [part]) rest
      else
        rest.countP isName + 1

/- The most directories that are created for one path. -/
def creationLimit : Nat :=
  1000

/-
  Create the directories of a path; whether this succeeds.
  A path which lacks too many is refused as a whole.
-/
def createDirectories (t : FileTree) (path : Text) :
    FileTree × Bool :=
  match t.parts? path with
  | none => (t, false)
  | some (start, parts) =>
      if creationLimit < t.missing start parts then
        (t, false)
      else
        t.create start parts

/- Write a file into an existing directory; whether this succeeds. -/
def write (t : FileTree) (path content : Text) :
    FileTree × Bool :=
  match t.locate path with
  | none => (t, false)
  | some names =>
      match t.at? names with
      | some .directory => (t, false)
      | _ => (t.put names (.file content), true)

------------------------------------------------------------
-- Construction
------------------------------------------------------------

/- A tree with nothing but a working directory. -/
def empty (workingDirectory : List Text) : FileTree :=
  (create { nodes := [], workingDirectory } [] workingDirectory).1

/- The path of the directory which a path lies in. -/
def parent (path : Text) : Text :=
  match path.cutLast slash with
  | some (front, _) => front
  | none => []

/- Put a node under a path, with the directories it needs. -/
def place (t : FileTree) (path : Text) : FileNode → FileTree
  | .directory => (t.createDirectories path).1
  | .file content =>
      ((t.createDirectories (parent path)).1.write path content).1

end FileTree

end ContractLinker
