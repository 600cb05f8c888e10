import ContractLinker.Proofs.Dictionary
import ContractLinker.Yul.Parser

/-
  The grammar of the object notation over tokens. An object
  has a code block and items, which are objects or data; the
  braces of a code block are balanced. A list of tokens has
  one derivation at most, and no derivable list is the front
  of another one.

  Key definitions include:
    * `Yul.ObjectTree`, `Yul.ItemTree`
    * `Yul.ObjectTree.Allowed`
    * `Yul.ObjectTree.toObject`
    * `Yul.Balanced`
    * `Yul.ObjectRule`, `Yul.ItemRule`, `Yul.ItemsRule`

  Main statements:
    * `Yul.Balanced.unique`
    * `Yul.ObjectRule.unique`
-/

------------------------------------------------------------
-- Trees
------------------------------------------------------------

namespace ContractLinker

namespace Yul

mutual

/- An object as it is written: its items are in source order. -/
structure ObjectTree where
  name : Text
  code : Code
  items : List ItemTree

/- An item of an object: an object or a declaration of data. -/
inductive ItemTree where
  | object (tree : ObjectTree)
  | data (name content : Text)

end

namespace ItemTree

/- The object of an item which is one. -/
def object? : ItemTree → Option ObjectTree
  | .object tree => some tree
  | .data _ _ => none

/- The name and the content of a declaration of data. -/
def data? : ItemTree → Option (Text × Text)
  | .object _ => none
  | .data name content => some (name, content)

end ItemTree

/- The objects among some items. -/
def childrenOf (items : List ItemTree) : List ObjectTree :=
  items.filterMap ItemTree.object?

/- The declarations of data among some items. -/
def declarationsOf (items : List ItemTree) : List (Text × Text) :=
  items.filterMap ItemTree.data?

/- The objects of a name among some items. -/
def childrenNamed (name : Text) (items : List ItemTree) :
    List ObjectTree :=
  (childrenOf items).filter fun child => child.name = name

namespace ObjectTree

/-
  Whether the runtime objects in a tree are where they may
  be: an object has one at most, and an object which is the
  runtime object of its parent has none.
-/
inductive Allowed : Option Text → ObjectTree → Prop where
  | intro {parent : Option Text} {tree : ObjectTree}
      (hOnce :
        (childrenNamed (runtimeName tree.name) tree.items).length ≤ 1)
      (hNone : parent.map runtimeName = some tree.name →
        childrenNamed (runtimeName tree.name) tree.items = [])
      (hInner : ∀ child ∈ childrenOf tree.items,
        Allowed (some tree.name) child) :
      Allowed parent tree

end ObjectTree

mutual

/-
  The object which a tree stands for. The child with the
  runtime name is its runtime object, the other children
  are its further objects, and the last declaration of a
  name decides.
-/
def ObjectTree.toObject : ObjectTree → Object
  | ⟨name, code, items⟩ =>
      { name := name
        code := code
        data := Dictionary.ofList (declarationsOf items)
        runtime :=
          (objectsOf items).find? fun o => o.name = runtimeName name
        subObjects :=
          (objectsOf items).filter fun o =>
            o.name ≠ runtimeName name }
termination_by structural tree => tree

/- The objects which the children among some items stand for. -/
def objectsOf : List ItemTree → List Object
  | [] => []
  | .object tree :: items => tree.toObject :: objectsOf items
  | .data _ _ :: items => objectsOf items
termination_by structural items => items

end

------------------------------------------------------------
-- Rules
------------------------------------------------------------

/- No brace is closed before it is opened, and all are closed. -/
structure Balanced (body : List Token) : Prop where
  closed : body.countP Token.isOpen = body.countP Token.isClose
  nested : ∀ front, front <+: body →
    front.countP Token.isClose ≤ front.countP Token.isOpen

/-
  The names which a block of code refers to: the strings
  behind a parenthesis behind one of two words.
-/
def referencesOf : List Token → List Text
  | word :: parenthesis :: name :: rest =>
      if isReferenceFunction word ∧
          parenthesis.isSymbol (ascii "(") = true ∧
          name.kind = .stringLiteral then
        name.text :: referencesOf (parenthesis :: name :: rest)
      else
        referencesOf (parenthesis :: name :: rest)
  | _ => []

/-
  A code block: a keyword and balanced tokens in braces. Its
  text is what the input has from brace to brace.
-/
inductive CodeRule (input : Text) : List Token → Code → Prop where
  | intro {word opening closing : Token} {body : List Token}
      (hWord : word.isKeyword (ascii "code") = true)
      (hOpening : opening.isOpen = true)
      (hBody : Balanced body)
      (hClosing : closing.isClose = true) :
      CodeRule input (word :: opening :: (body ++ [closing]))
        { text :=
            slice input opening.location.offset closing.stop
          references := TextSet.union [] (referencesOf body) }

mutual

/- An object: a keyword, a name, and code and items in braces. -/
inductive ObjectRule (input : Text) :
    List Token → ObjectTree → Prop where
  | intro {word name opening closing : Token}
      {codeTokens itemTokens : List Token}
      {code : Code} {items : List ItemTree}
      (hWord : word.isKeyword (ascii "object") = true)
      (hName : name.kind = .stringLiteral)
      (hOpening : opening.isOpen = true)
      (hCode : CodeRule input codeTokens code)
      (hItems : ItemsRule input itemTokens items)
      (hClosing : closing.isClose = true) :
      ObjectRule input
        (word :: name :: opening ::
          (codeTokens ++ (itemTokens ++ [closing])))
        ⟨name.text, code, items⟩

/- An item: an object, or a keyword, a name and a literal. -/
inductive ItemRule (input : Text) :
    List Token → ItemTree → Prop where
  | object {tokens : List Token} {tree : ObjectTree}
      (hObject : ObjectRule input tokens tree) :
      ItemRule input tokens (.object tree)
  | data {word name content : Token}
      (hWord : word.isKeyword (ascii "data") = true)
      (hName : name.kind = .stringLiteral)
      (hContent : content.kind = .hexLiteral ∨
        content.kind = .stringLiteral) :
      ItemRule input [word, name, content]
        (.data name.text content.text)

/- Any number of items. -/
inductive ItemsRule (input : Text) :
    List Token → List ItemTree → Prop where
  | nil :
      ItemsRule input [] []
  | cons {tokens rest : List Token} {item : ItemTree}
      {items : List ItemTree}
      (hItem : ItemRule input tokens item)
      (hItems : ItemsRule input rest items) :
      ItemsRule input (tokens ++ rest) (item :: items)

end

------------------------------------------------------------
-- Kinds Of Tokens
------------------------------------------------------------

namespace Token

variable {t : Token}

theorem isSymbol_iff
    {text : Text} :
    t.isSymbol text = true ↔ t.kind = .symbol ∧ t.text = text := by
  simp [isSymbol]

theorem isKeyword_iff
    {text : Text} :
    t.isKeyword text = true ↔
      t.kind = .identifier ∧ t.text = text := by
  simp [isKeyword]

theorem isClose_of_isOpen
    (hOpen : t.isOpen = true) :
    t.isClose = false := by
  have hSymbol := isSymbol_iff.mp hOpen
  have hOther : ['{'.toUInt8] ≠ ['}'.toUInt8] := by
    decide
  simp [isClose, isSymbol, hSymbol.2, hOther]

theorem isClose_of_isKeyword
    {text : Text}
    (hWord : t.isKeyword text = true) :
    t.isClose = false := by
  have hKind := (isKeyword_iff.mp hWord).1
  simp [isClose, isSymbol, hKind]

/- The words which begin an item are not the same. -/
theorem not_object_of_data
    (hWord : t.isKeyword (ascii "data") = true) :
    t.isKeyword (ascii "object") = false := by
  have hText := (isKeyword_iff.mp hWord).2
  have hOther : ascii "data" ≠ ascii "object" := by
    decide
  simp [isKeyword, hText, hOther]

end Token

------------------------------------------------------------
-- Uniqueness
------------------------------------------------------------

variable {input : Text}

/- The closing brace of a block is determined. -/
theorem Balanced.not_closed_inside
    {body rest : List Token}
    {closing : Token}
    (hFront : Balanced body)
    (hClosing : closing.isClose = true) :
    ¬ Balanced (body ++ closing :: rest) := by
  intro hWhole
  have hPrefix : body ++ [closing] <+: body ++ closing :: rest :=
    ⟨rest, by simp⟩
  have hNested := hWhole.nested _ hPrefix
  have hOpen : closing.isOpen = false := by
    rw [← Bool.not_eq_true]
    intro hOpen
    rw [Token.isClose_of_isOpen hOpen] at hClosing
    cases hClosing
  have hClosed := hFront.closed
  simp only [List.countP_append, List.countP_singleton, hClosing,
    hOpen, Bool.false_eq_true, if_true, if_false] at hNested
  omega

theorem Balanced.unique
    {body body' rest rest' : List Token}
    {closing closing' : Token}
    (hBody : Balanced body)
    (hBody' : Balanced body')
    (hClosing : closing.isClose = true)
    (hClosing' : closing'.isClose = true)
    (hSame : body ++ closing :: rest = body' ++ closing' :: rest') :
    body = body' ∧ closing = closing' ∧ rest = rest' := by
  rcases List.append_eq_append_iff.mp hSame with
    ⟨middle, hLong, hShort⟩ | ⟨middle, hLong, hShort⟩
  · cases middle with
    | nil =>
        rw [List.append_nil] at hLong
        cases hShort
        exact ⟨hLong.symm, rfl, rfl⟩
    | cons t middle =>
        cases hShort
        rw [hLong] at hBody'
        exact absurd hBody' (hBody.not_closed_inside hClosing)
  · cases middle with
    | nil =>
        rw [List.append_nil] at hLong
        cases hShort
        exact ⟨hLong, rfl, rfl⟩
    | cons t middle =>
        cases hShort
        rw [hLong] at hBody
        exact absurd hBody (hBody'.not_closed_inside hClosing')

theorem CodeRule.unique
    {tokens tokens' rest rest' : List Token}
    {code code' : Code}
    (hCode : CodeRule input tokens code)
    (hCode' : CodeRule input tokens' code')
    (hSame : tokens ++ rest = tokens' ++ rest') :
    code = code' ∧ rest = rest' := by
  rcases hCode with ⟨-, -, hBody, hClosing⟩
  rcases hCode' with ⟨-, -, hBody', hClosing'⟩
  simp only [List.cons_append, List.append_assoc, List.cons.injEq,
    List.nil_append] at hSame
  rcases hSame with ⟨-, rfl, hSame⟩
  rcases hBody.unique hBody' hClosing hClosing' hSame with
    ⟨rfl, rfl, rfl⟩
  exact ⟨rfl, rfl⟩

/- An object and an item begin with their keywords. -/
theorem ObjectRule.exists_word
    {tokens : List Token}
    {tree : ObjectTree}
    (hObject : ObjectRule input tokens tree) :
    ∃ word rest, tokens = word :: rest ∧
      word.isKeyword (ascii "object") = true := by
  rcases hObject with ⟨hWord, -, -, -, -, -⟩
  exact ⟨_, _, rfl, hWord⟩

theorem ItemRule.exists_word
    {tokens : List Token}
    {item : ItemTree}
    (hItem : ItemRule input tokens item) :
    ∃ word rest, tokens = word :: rest ∧ word.isClose = false := by
  cases hItem with
  | object hObject =>
      rcases hObject.exists_word with ⟨word, rest, hTokens, hWord⟩
      exact ⟨word, rest, hTokens, Token.isClose_of_isKeyword hWord⟩
  | data hWord _ _ =>
      exact ⟨_, _, rfl, Token.isClose_of_isKeyword hWord⟩

/- Where a closing brace stands, no item begins. -/
theorem ItemsRule.eq_nil_of_isClose
    {tokens rest rest' : List Token}
    {closing : Token}
    {items : List ItemTree}
    (hItems : ItemsRule input tokens items)
    (hClosing : closing.isClose = true)
    (hSame : closing :: rest = tokens ++ rest') :
    tokens = [] ∧ items = [] := by
  cases hItems with
  | nil =>
      exact ⟨rfl, rfl⟩
  | cons hItem _ =>
      rcases hItem.exists_word with ⟨word, others, rfl, hWord⟩
      rw [(List.cons.inj hSame).1, hWord] at hClosing
      cases hClosing

mutual

/-
  No two trees are derived from tokens of which one list is
  the front of the other.
-/
theorem ObjectRule.unique_append :
    ∀ (tree : ObjectTree) {tokens tokens' rest rest' : List Token}
      {tree' : ObjectTree},
      ObjectRule input tokens tree →
      ObjectRule input tokens' tree' →
      tokens ++ rest = tokens' ++ rest' →
        tree = tree' ∧ rest = rest'
  | ⟨_, _, items⟩, _, _, rest, rest', _, hObject, hObject', hSame => by
      rcases hObject with ⟨-, -, -, hCode, hItems, hClosing⟩
      rcases hObject' with ⟨-, -, -, hCode', hItems', hClosing'⟩
      simp only [List.cons_append, List.append_assoc,
        List.cons.injEq, List.nil_append] at hSame
      rcases hSame with ⟨-, rfl, -, hSame⟩
      rcases hCode.unique hCode' hSame with ⟨rfl, hSame⟩
      rcases ItemsRule.unique items hItems hItems' hClosing hClosing'
          hSame with
        ⟨rfl, rfl⟩
      exact ⟨rfl, rfl⟩
termination_by structural tree => tree

theorem ItemsRule.unique :
    ∀ (items : List ItemTree)
      {tokens tokens' rest rest' : List Token}
      {closing closing' : Token} {items' : List ItemTree},
      ItemsRule input tokens items →
      ItemsRule input tokens' items' →
      closing.isClose = true →
      closing'.isClose = true →
      tokens ++ closing :: rest = tokens' ++ closing' :: rest' →
        items = items' ∧ rest = rest'
  | [], _, _, _, _, _, _, _, hItems, hItems', hClosing, _, hSame => by
      cases hItems
      rcases hItems'.eq_nil_of_isClose hClosing hSame with ⟨rfl, rfl⟩
      exact ⟨rfl, (List.cons.inj hSame).2⟩
  | .object tree :: items, _, _, _, _, _, _, _, hItems, hItems',
      hClosing, hClosing', hSame => by
      cases hItems with
      | cons hItem hRest =>
      cases hItem with
      | object hObject =>
      cases hItems' with
      | nil =>
          have hFound :=
            (ItemsRule.cons (.object hObject) hRest).eq_nil_of_isClose
              hClosing' hSame.symm
          cases hFound.2
      | cons hItem' hRest' =>
      cases hItem' with
      | object hObject' =>
          rw [List.append_assoc, List.append_assoc] at hSame
          rcases ObjectRule.unique_append tree hObject hObject'
              hSame with
            ⟨rfl, hSame⟩
          rcases ItemsRule.unique items hRest hRest' hClosing
              hClosing' hSame with
            ⟨rfl, rfl⟩
          exact ⟨rfl, rfl⟩
      | data hWord' _ _ =>
          rcases hObject with ⟨hWord, -, -, -, -, -⟩
          rw [(List.cons.inj hSame).1,
            Token.not_object_of_data hWord'] at hWord
          cases hWord
  | .data name content :: items, _, _, _, _, _, _, _, hItems,
      hItems', hClosing, hClosing', hSame => by
      cases hItems with
      | cons hItem hRest =>
      cases hItem with
      | data hWord hName hContent =>
      cases hItems' with
      | nil =>
          have hFound :=
            (ItemsRule.cons (.data hWord hName hContent) hRest
              ).eq_nil_of_isClose hClosing' hSame.symm
          cases hFound.2
      | cons hItem' hRest' =>
      cases hItem' with
      | object hObject' =>
          rcases hObject' with ⟨hWord', -, -, -, -, -⟩
          rw [← (List.cons.inj hSame).1,
            Token.not_object_of_data hWord] at hWord'
          cases hWord'
      | data _ _ _ =>
          simp only [List.cons_append, List.nil_append,
            List.cons.injEq] at hSame
          rcases hSame with ⟨-, rfl, rfl, hSame⟩
          rcases ItemsRule.unique items hRest hRest' hClosing
              hClosing' hSame with
            ⟨rfl, rfl⟩
          exact ⟨rfl, rfl⟩
termination_by structural items => items

end

/- A list of tokens has one derivation at most. -/
theorem ObjectRule.unique
    {tokens : List Token}
    {tree tree' : ObjectTree}
    (hObject : ObjectRule input tokens tree)
    (hObject' : ObjectRule input tokens tree') :
    tree = tree' := by
  have hSame : tokens ++ [] = tokens ++ ([] : List Token) := rfl
  exact (ObjectRule.unique_append tree hObject hObject' hSame).1

end Yul

end ContractLinker
