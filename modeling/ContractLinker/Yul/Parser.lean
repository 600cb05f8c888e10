import ContractLinker.Yul.Lexer
import ContractLinker.Yul.Object

/-
  Objects from tokens. A reader is a state which takes one
  token at a time. The reader of a code block counts braces;
  the reader of an object keeps a stack of the objects which
  are not closed yet. A token that no object goes on with is
  refused at once.

  Key definitions include:
    * `Yul.CodeReader`
    * `Yul.CodeReader.step`
    * `Yul.Code.parse`
    * `Yul.ObjectReader`
    * `Yul.ObjectReader.step`
    * `Yul.Object.parse`
-/

------------------------------------------------------------
-- Reading
------------------------------------------------------------

namespace ContractLinker

namespace Yul

/- What a reader has after a token: more to read, or a result. -/
inductive Progress (σ α : Type) where
  | more (state : σ)
  | done (result : α)

/-
  Feed the tokens of a stream to a reader until it is done.
  If they run out, the reader refuses the end of the input.
-/
def feed {σ α : Type}
    (step : σ → Token → Except ParseError (Progress σ α))
    (refuse : σ → Token → ParseError)
    (ending : Except ParseError Token) :
    σ → List Token → Except ParseError (α × TokenStream)
  | state, [] =>
      match ending with
      | .error e => .error e
      | .ok final => .error (refuse state final)
  | state, t :: rest =>
      match step state t with
      | .error e => .error e
      | .ok (.more state') => feed step refuse ending state' rest
      | .ok (.done result) => .ok (result, ⟨rest, ending⟩)

/- The error that a token does not meet an expectation. -/
def unexpected (what : Expectation) (t : Token) : ParseError where
  location := t.location
  fault := .expected what t.text

------------------------------------------------------------
-- Code Blocks
------------------------------------------------------------

/- How much of a reference has been read. -/
inductive ReferenceProgress where
  | nothing
  | function
  | parenthesis
deriving DecidableEq, Repr

/- A code block which is not closed yet. -/
structure OpenBlock where
  start : Location
  depth : Nat
  reference : ReferenceProgress
  references : TextSet
deriving DecidableEq, Repr

/- The reader of a code block with its keyword. -/
inductive CodeReader where
  | keyword
  | brace
  | block (current : OpenBlock)
deriving DecidableEq, Repr

/- The bytes of an input between two offsets. -/
def slice (input : Text) (start stop : Nat) : Text :=
  (input.drop start).take (stop - start)

/- A word whose argument may be a reference. -/
def isReferenceFunction (t : Token) : Bool :=
  t.isKeyword (ascii "datasize") || t.isKeyword (ascii "dataoffset")

namespace CodeReader

/- The error that a token cannot follow. -/
def refuse : CodeReader → Token → ParseError
  | .keyword, t => unexpected .codeKeyword t
  | .brace, t => unexpected .openBrace t
  | .block b, _ => ⟨b.start, .unterminatedCode⟩

/- A token of a block which completes no reference. -/
def plainStep (input : Text) (b : OpenBlock) (t : Token) :
    Progress CodeReader Code :=
  if t.isOpen then
    .more (.block
      { b with depth := b.depth + 1, reference := .nothing })
  else if t.isClose then
    match b.depth with
    | 0 =>
        .done {
          text := slice input b.start.offset t.stop
          references := b.references
        }
    | depth + 1 =>
        .more (.block
          { b with depth := depth, reference := .nothing })
  else if isReferenceFunction t then
    .more (.block { b with reference := .function })
  else
    .more (.block { b with reference := .nothing })

/- A token of a block. -/
def blockStep (input : Text) (b : OpenBlock) (t : Token) :
    Progress CodeReader Code :=
  match b.reference with
  | .nothing => plainStep input b t
  | .function =>
      if t.isSymbol (ascii "(") then
        .more (.block { b with reference := .parenthesis })
      else
        plainStep input b t
  | .parenthesis =>
      if t.kind = .stringLiteral then
        .more (.block
          { b with
            reference := .nothing
            references := TextSet.insert t.text b.references })
      else
        plainStep input b t

/- Take one token. -/
def step (input : Text) :
    CodeReader → Token → Except ParseError (Progress CodeReader Code)
  | .keyword, t =>
      if t.isKeyword (ascii "code") then
        .ok (.more .brace)
      else
        .error (refuse .keyword t)
  | .brace, t =>
      if t.isOpen then
        .ok (.more (.block
          { start := t.location
            depth := 0
            reference := .nothing
            references := [] }))
      else
        .error (refuse .brace t)
  | .block b, t => .ok (blockStep input b t)

end CodeReader

/- Read a code block at the front of the tokens of an input. -/
def Code.parse (input : Text) (stream : TokenStream) :
    Except ParseError (Code × TokenStream) :=
  feed (CodeReader.step input) CodeReader.refuse stream.ending
    .keyword stream.tokens

------------------------------------------------------------
-- Objects
------------------------------------------------------------

/- An object which is not closed yet, and where it began. -/
structure Draft where
  start : Location
  object : Object

/- The place of an object among those around it. -/
structure Surroundings where
  parent : Option Text
  drafts : List Draft

namespace Surroundings

/- The name of the object around. -/
def parentName (s : Surroundings) : Option Text :=
  match s.drafts with
  | d :: _ => some d.object.name
  | [] => s.parent

/- Whether an object of a name is the runtime object here. -/
def isRuntime (s : Surroundings) (name : Text) : Bool :=
  s.parentName.map runtimeName = some name

end Surroundings

/-
  The reader of an object. Its constructors say what it is
  waiting for; the objects around come first.
-/
inductive ObjectReader where
  | keyword (outer : Surroundings)
  | naming (outer : Surroundings) (start : Location)
  | opening (outer : Surroundings) (start : Location) (name : Text)
  | coding (outer : Surroundings) (start : Location) (name : Text)
      (reader : CodeReader)
  | items (outer : Surroundings) (draft : Draft)
  | dataNaming (outer : Surroundings) (draft : Draft)
  | dataContent (outer : Surroundings) (draft : Draft)
      (dataName : Text)

namespace ObjectReader

/- The error that a token cannot follow. -/
def refuse : ObjectReader → Token → ParseError
  | .keyword _, t => unexpected .objectKeyword t
  | .naming _ _, t => unexpected .objectName t
  | .opening _ _ _, t => unexpected .openBrace t
  | .coding _ _ _ reader, t => reader.refuse t
  | .items _ _, t => unexpected .item t
  | .dataNaming _ _, t => unexpected .dataName t
  | .dataContent _ _ _, t => unexpected .dataLiteral t

/- The draft of an object whose code has been read. -/
def draftOf (start : Location) (name : Text) (code : Code) :
    Draft where
  start := start
  object := {
    name, code, data := [], runtime := none, subObjects := []
  }

/-
  Put a finished object into its parent. A runtime object is
  allowed once, and not in a runtime object.
-/
def attach (outer : Surroundings) (parent child : Draft) :
    Except ParseError Draft :=
  let o := parent.object
  if child.object.name = runtimeName o.name then
    if outer.isRuntime o.name then
      .error ⟨child.start, .runtimeOfRuntime o.name⟩
    else if o.runtime.isSome then
      .error ⟨child.start, .duplicateRuntime child.object.name⟩
    else
      .ok { parent with
        object := { o with runtime := some child.object } }
  else
    .ok { parent with
      object :=
        { o with subObjects := o.subObjects ++ [child.object] } }

/- Close an object. The outermost one is the result. -/
def close (outer : Surroundings) (draft : Draft) :
    Except ParseError (Progress ObjectReader Object) :=
  match outer.drafts with
  | [] => .ok (.done draft.object)
  | parent :: drafts =>
      let around := { outer with drafts := drafts }
      (attach around parent draft).map fun parent =>
        .more (.items around parent)

/- Declare data, in the place of earlier data of the name. -/
def declare (draft : Draft) (name content : Text) : Draft :=
  { draft with
    object := { draft.object with
      data := Dictionary.insert name content draft.object.data } }

/- Take one token. -/
def step (input : Text) (reader : ObjectReader) (t : Token) :
    Except ParseError (Progress ObjectReader Object) :=
  match reader with
  | .keyword outer =>
      if t.isKeyword (ascii "object") then
        .ok (.more (.naming outer t.location))
      else
        .error (reader.refuse t)
  | .naming outer start =>
      if t.kind = .stringLiteral then
        .ok (.more (.opening outer start t.text))
      else
        .error (reader.refuse t)
  | .opening outer start name =>
      if t.isOpen then
        .ok (.more (.coding outer start name .keyword))
      else
        .error (reader.refuse t)
  | .coding outer start name inner =>
      match inner.step input t with
      | .error e => .error e
      | .ok (.more inner) => .ok (.more (.coding outer start name inner))
      | .ok (.done code) =>
          .ok (.more (.items outer (draftOf start name code)))
  | .items outer draft =>
      if t.isClose then
        close outer draft
      else if t.isKeyword (ascii "object") then
        .ok (.more
          (.naming { outer with drafts := draft :: outer.drafts }
            t.location))
      else if t.isKeyword (ascii "data") then
        .ok (.more (.dataNaming outer draft))
      else
        .error (reader.refuse t)
  | .dataNaming outer draft =>
      if t.kind = .stringLiteral then
        .ok (.more (.dataContent outer draft t.text))
      else
        .error (reader.refuse t)
  | .dataContent outer draft name =>
      if t.kind = .hexLiteral || t.kind = .stringLiteral then
        .ok (.more (.items outer (declare draft name t.text)))
      else
        .error (reader.refuse t)

end ObjectReader

namespace Object

/- Read an object at the front of the tokens of an input. -/
def parseFront (parent : Option Text) (input : Text)
    (stream : TokenStream) :
    Except ParseError (Object × TokenStream) :=
  feed (ObjectReader.step input) ObjectReader.refuse stream.ending
    (.keyword { parent, drafts := [] }) stream.tokens

/- Read the object which an input consists of. -/
def parse (input : Text) : Except ParseError Object := do
  let (object, rest) ← parseFront none input (.ofText input)
  match rest.tokens with
  | t :: _ => .error (unexpected .endOfInput t)
  | [] =>
      let _ ← rest.ending
      return object

/-
  Read an object with a known parent at the front of an
  input. What follows it is not looked at.
-/
def parseWithin (parent input : Text) :
    Except ParseError Object := do
  let (object, _) ← parseFront (some parent) input (.ofText input)
  return object

end Object

end Yul

end ContractLinker
