import ContractLinker.CommandLine.Session

/-
  The program. A run is computed on a tree which holds the
  working directory and the report; the files it adds are
  written afterwards, and then the two outputs.

  Key definitions include:
    * `main`
-/

------------------------------------------------------------
-- Texts And Bytes
------------------------------------------------------------

namespace ContractLinker

namespace Program

/- A string of the host as text. -/
def textOf (s : String) : Text :=
  s.toUTF8.toList

/- A text as bytes of the host. -/
def bytesOf (s : Text) : ByteArray :=
  ⟨s.toArray⟩

/- The path of a node below the root. -/
def pathOf (key : Text) : Option String :=
  String.fromUTF8? (bytesOf (FileTree.slash :: key))

------------------------------------------------------------
-- Loading
------------------------------------------------------------

/- A tree with nothing but the working directory. -/
def workingTree : IO FileTree := do
  let path := textOf (← IO.currentDir).toString
  let names := (Text.splitOn FileTree.slash path).filter (· != [])
  return .empty names

/- Put the report of some options into a tree, if it exists. -/
def loadReport (options : CommandLine.Options) (t : FileTree) :
    IO FileTree := do
  match String.fromUTF8? (bytesOf options.path) with
  | none => return t
  | some path =>
      try
        let content ← IO.FS.readBinFile path
        return t.place options.path (.file content.toList)
      catch e =>
        match e with
        | .noFileOrDirectory _ _ _ => return t
        | _ => return t.place options.path .directory

/- All that a run with some arguments may need. -/
def host (arguments : List Text) : IO CommandLine.Host := do
  let input ← IO.getStdin
  let interactive ← input.isTty
  let tree ← workingTree
  let start : CommandLine.Host := {
    interactive, stdin := [], stdout := [], stderr := [],
    files := tree
  }
  match CommandLine.Options.parse arguments with
  | .error _ => return start
  | .ok options =>
      if options.mode != .link || (interactive && arguments.isEmpty) then
        return start
      else if options.fromStdin then
        return { start with stdin := (← input.readToEnd).toUTF8.toList }
      else
        return { start with files := ← loadReport options tree }

------------------------------------------------------------
-- Storing
------------------------------------------------------------

/- That a node cannot be written. -/
def storeError (key : Text) : FileNode → Dump.Error
  | .directory => .directory (FileTree.slash :: key)
  | .file _ => .file (FileTree.slash :: key)

/- Write a node, or tell that it cannot be written. -/
def storeNode (key : Text) (node : FileNode) :
    IO (Option Dump.Error) := do
  match pathOf key with
  | none => return some (storeError key node)
  | some path =>
      try
        match node with
        | .directory => IO.FS.createDirAll path
        | .file content => IO.FS.writeBinFile path (bytesOf content)
        return none
      catch _ => return some (storeError key node)

/-
  Write the nodes of a tree which another one lacks, up to
  the first which cannot be written.
-/
def store (before : FileTree) :
    List (Text × FileNode) → IO (Option Dump.Error)
  | [] => return none
  | (key, node) :: rest => do
      if before.nodes.contains key && node = .directory then
        store before rest
      else
        match ← storeNode key node with
        | none => store before rest
        | some e => return some e

/- Write to a stream. -/
def print (stream : IO.FS.Stream) (s : Text) : IO Unit := do
  stream.write (bytesOf s)
  stream.flush

------------------------------------------------------------
-- Running
------------------------------------------------------------

/- Run the linker; the number is zero if it succeeds. -/
def run (arguments : List Text) : IO UInt32 := do
  let host ← host arguments
  let (outcome, s) :=
    CommandLine.run arguments (CommandLine.Session.start host)
  let unwritten ←
    store host.files
      (s.host.files.nodes.filter fun (key, node) =>
        host.files.nodes.get? key != some node)
  print (← IO.getStderr) s.host.stderr
  match unwritten, outcome with
  | some e, _ =>
      print (← IO.getStderr)
        (ascii "Error: " ++ e.message ++ [Text.newline])
      return 1
  | none, .error failure =>
      print (← IO.getStderr)
        (ascii "Internal error: " ++ failure.message ++ [Text.newline])
      return 1
  | none, .ok succeeded =>
      print (← IO.getStdout) s.host.stdout
      return if succeeded then 0 else 1

end Program

end ContractLinker

------------------------------------------------------------
-- Entry Point
------------------------------------------------------------

/- Run the linker on the arguments of the command line. -/
def main (arguments : List String) : IO UInt32 :=
  ContractLinker.Program.run
    (arguments.map ContractLinker.Program.textOf)
