import ContractLinker.Proofs.Yul.Parsing

/-
  Beginnings of sentences. A sentence is the tokens of an
  object and the one of the end of the input. In front of a
  place in it there are objects which are not closed yet,
  each with some of its items. Tokens are faultless if a
  sentence begins with them and no runtime object among them
  is where it may not be; the first fault of an input is at
  the token which makes them something else.

  Key definitions include:
    * `Yul.Sentence`, `Yul.Viable`
    * `Yul.Opened`, `Yul.OpenRule`, `Yul.Enclosing`
    * `Yul.InsideBlock`
    * `Yul.Misplaced`
    * `Yul.Faultless`, `Yul.FirstFault`

  Main statements:
    * `Yul.Opened.toObject_addItem`
    * `Yul.Enclosing.exists_object`
    * `Yul.Enclosing.viable`
-/

------------------------------------------------------------
-- Sentences
------------------------------------------------------------

namespace ContractLinker

namespace Yul

/- Tokens in front of the end of an input. -/
def Inside (tokens : List Token) : Prop :=
  ∀ t ∈ tokens, t.kind ≠ .endOfFile

/-
  A sentence: an object, wherever its runtime objects are,
  and the end of the input behind it.
-/
inductive Sentence (input : Text) : List Token → Prop where
  | intro {tokens : List Token} {final : Token} {tree : ObjectTree}
      (hObject : ObjectRule input tokens tree)
      (hInside : Inside tokens)
      (hFinal : final.kind = .endOfFile) :
      Sentence input (tokens ++ [final])

/- Tokens with which a sentence begins. -/
def Viable (input : Text) (tokens : List Token) : Prop :=
  ∃ rest, Sentence input (tokens ++ rest)

------------------------------------------------------------
-- Objects Around
------------------------------------------------------------

/-
  An object which is not closed yet: its keyword, and its
  tree with the items in front of some place.
-/
structure Opened where
  word : Token
  tree : ObjectTree

/- The tokens of such an object. -/
inductive OpenRule (input : Text) : List Token → Opened → Prop where
  | intro {word name opening : Token}
      {codeTokens itemTokens : List Token}
      {code : Code} {items : List ItemTree}
      (hWord : word.isKeyword (ascii "object") = true)
      (hName : name.kind = .stringLiteral)
      (hOpening : opening.isOpen = true)
      (hCode : CodeRule input codeTokens code)
      (hItems : ItemsRule input itemTokens items) :
      OpenRule input
        (word :: name :: opening :: (codeTokens ++ itemTokens))
        ⟨word, ⟨name.text, code, items⟩⟩

/- Objects which are not closed, one in the other, the innermost first. -/
inductive Enclosing (input : Text) :
    List Token → List Opened → Prop where
  | nil :
      Enclosing input [] []
  | cons {tokens inner : List Token} {opened : List Opened}
      {o : Opened}
      (hOuter : Enclosing input tokens opened)
      (hOpen : OpenRule input inner o) :
      Enclosing input (tokens ++ inner) (o :: opened)

/-
  Tokens which end inside a block of code: no brace behind
  its opening brace closes it.
-/
inductive InsideBlock (input : Text) :
    List Token → Token → Prop where
  | intro {tokens body : List Token} {opened : List Opened}
      {word name opening code brace : Token}
      (hOuter : Enclosing input tokens opened)
      (hWord : word.isKeyword (ascii "object") = true)
      (hName : name.kind = .stringLiteral)
      (hOpening : opening.isOpen = true)
      (hCode : code.isKeyword (ascii "code") = true)
      (hBrace : brace.isOpen = true)
      (hBody : ∀ front, front <+: body →
        front.countP Token.isClose ≤ front.countP Token.isOpen) :
      InsideBlock input
        (tokens ++ word :: name :: opening :: code :: brace :: body)
        brace

/-
  Tokens the last of which completes a runtime object where
  it may not be: behind another one of its parent, or in a
  parent which is a runtime object itself. Its keyword is
  kept.
-/
inductive Misplaced (input : Text) : List Token → Token → Prop where
  | intro {tokens inner : List Token} {opened : List Opened}
      {o : Opened} {word : Token} {child : ObjectTree}
      (hOuter : Enclosing input tokens (o :: opened))
      (hObject : ObjectRule input (word :: inner) child)
      (hName : child.name = runtimeName o.tree.name)
      (hTaken :
        childrenNamed (runtimeName o.tree.name) o.tree.items ≠ [] ∨
          ∃ parent ∈ opened.head?,
            o.tree.name = runtimeName parent.tree.name) :
      Misplaced input (tokens ++ word :: inner) word

------------------------------------------------------------
-- First Faults
------------------------------------------------------------

/- A sentence begins with the tokens, and nothing is misplaced. -/
structure Faultless (input : Text) (tokens : List Token) : Prop where
  viable : Viable input tokens
  placed : ∀ front word, front <+: tokens →
    ¬ Misplaced input front word

/-
  Where a fault stands if a lexer answers with an error or a
  token behind some tokens: at the lexical fault; at a token
  with which no sentence goes on, but at the opening brace of
  a block if it is the end of the input there; at the keyword
  of a runtime object which the token completes.
-/
inductive FaultBehind (input : Text) (front : List Token) :
    Except ParseError Token → Location → Prop where
  | lexical {e : ParseError} :
      FaultBehind input front (.error e) e.location
  | token {t : Token}
      (hToken : ¬ Viable input (front ++ [t]))
      (hOutside : t.kind = .endOfFile →
        ∀ brace, ¬ InsideBlock input front brace) :
      FaultBehind input front (.ok t) t.location
  | block {t brace : Token}
      (hToken : ¬ Viable input (front ++ [t]))
      (hEnd : t.kind = .endOfFile)
      (hInside : InsideBlock input front brace) :
      FaultBehind input front (.ok t) brace.location
  | misplaced {t word : Token}
      (hRuntime : Misplaced input (front ++ [t]) word) :
      FaultBehind input front (.ok t) word.location

/- The next answer of a lexer which has some tokens to come. -/
def answerOf (ending : Except ParseError Token) :
    List Token → Except ParseError Token
  | [] => ending
  | t :: _ => .ok t

/-
  Where the first fault stands in an input which is cut into
  tokens and an ending: what is in front of it is faultless.
-/
inductive FirstFault (input : Text) (tokens : List Token)
    (ending : Except ParseError Token) (place : Location) :
    Prop where
  | intro {front back : List Token}
      (hTokens : tokens = front ++ back)
      (hFront : Faultless input front)
      (hFault : FaultBehind input front (answerOf ending back) place) :
      FirstFault input tokens ending place

------------------------------------------------------------
-- Objects With One More Item
------------------------------------------------------------

variable {input : Text}

theorem Object.extend_append
    (o : Object)
    (front back : List ItemTree) :
    (o.extend front).extend back = o.extend (front ++ back) := by
  simp [Object.extend, objectsOf_eq_map, declarationsOf, childrenOf,
    Option.or_assoc]

namespace Opened

/- An object with one more item. -/
def addItem (o : Opened) (item : ItemTree) : Opened where
  word := o.word
  tree := { o.tree with items := o.tree.items ++ [item] }

theorem toObject_addItem
    (o : Opened)
    (item : ItemTree) :
    (o.addItem item).tree.toObject =
      o.tree.toObject.extend [item] := by
  rcases o with ⟨word, name, code, items⟩
  rw [addItem, ← Object.extend_ofCode, ← Object.extend_ofCode,
    Object.extend_append]

theorem toObject_addItem_data
    (o : Opened)
    (name content : Text) :
    (o.addItem (.data name content)).tree.toObject =
      o.tree.toObject.declare name content := by
  rw [toObject_addItem]
  simp [Object.extend, Object.declare, declarationsOf,
    ItemTree.data?, objectsOf]

/- A runtime object counts if there was none before. -/
theorem toObject_addItem_object
    {o : Opened}
    {child : ObjectTree}
    (hFree : child.toObject.name = runtimeName o.tree.toObject.name →
      o.tree.toObject.runtime = none) :
    (o.addItem (.object child)).tree.toObject =
      o.tree.toObject.add child.toObject := by
  rw [toObject_addItem, ← Object.extend_object hFree,
    Object.extend_nil]

end Opened

theorem ItemsRule.concat
    {tokens more : List Token}
    {items : List ItemTree}
    {item : ItemTree}
    (hItems : ItemsRule input tokens items)
    (hItem : ItemRule input more item) :
    ItemsRule input (tokens ++ more) (items ++ [item]) := by
  induction items generalizing tokens with
  | nil =>
      cases hItems
      have hOne := ItemsRule.cons hItem .nil
      rw [List.append_nil] at hOne
      exact hOne
  | cons first items ih =>
      cases hItems with
      | cons hFirst hRest =>
          rw [List.append_assoc]
          exact .cons hFirst (ih hRest)

theorem OpenRule.addItem
    {tokens more : List Token}
    {o : Opened}
    {item : ItemTree}
    (hOpen : OpenRule input tokens o)
    (hItem : ItemRule input more item) :
    OpenRule input (tokens ++ more) (o.addItem item) := by
  cases hOpen with
  | intro hWord hName hOpening hCode hItems =>
      have hMore :=
        OpenRule.intro hWord hName hOpening hCode
          (hItems.concat hItem)
      rw [← List.append_assoc] at hMore
      exact hMore

theorem OpenRule.close
    {tokens : List Token}
    {o : Opened}
    {closing : Token}
    (hOpen : OpenRule input tokens o)
    (hClosing : closing.isClose = true) :
    ObjectRule input (tokens ++ [closing]) o.tree := by
  cases hOpen with
  | intro hWord hName hOpening hCode hItems =>
      have hObject :=
        ObjectRule.intro hWord hName hOpening hCode hItems hClosing
      rw [← List.append_assoc] at hObject
      exact hObject

/- An object is closed by the last of its tokens. -/
theorem ObjectRule.exists_open
    {tokens : List Token}
    {word : Token}
    {tree : ObjectTree}
    (hObject : ObjectRule input (word :: tokens) tree) :
    ∃ front closing, word :: tokens = front ++ [closing] ∧
      closing.isClose = true ∧ OpenRule input front ⟨word, tree⟩ := by
  cases hObject with
  | intro hWord hName hOpening hCode hItems hClosing =>
      refine ⟨_, _, ?_, hClosing,
        .intro hWord hName hOpening hCode hItems⟩
      simp

theorem OpenRule.exists_word
    {tokens : List Token}
    {o : Opened}
    (hOpen : OpenRule input tokens o) :
    ∃ rest, tokens = o.word :: rest := by
  cases hOpen
  exact ⟨_, rfl⟩

theorem Enclosing.addItem
    {tokens more : List Token}
    {o : Opened}
    {opened : List Opened}
    {item : ItemTree}
    (hEnclosing : Enclosing input tokens (o :: opened))
    (hItem : ItemRule input more item) :
    Enclosing input (tokens ++ more) (o.addItem item :: opened) := by
  cases hEnclosing with
  | cons hOuter hOpen =>
      rw [List.append_assoc]
      exact .cons hOuter (hOpen.addItem hItem)

/- An object is opened by its name and its code. -/
theorem Enclosing.openObject
    {tokens codeTokens : List Token}
    {opened : List Opened}
    {word name opening : Token}
    {code : Code}
    (hOuter : Enclosing input tokens opened)
    (hWord : word.isKeyword (ascii "object") = true)
    (hName : name.kind = .stringLiteral)
    (hOpening : opening.isOpen = true)
    (hCode : CodeRule input codeTokens code) :
    Enclosing input
      (tokens ++ word :: name :: opening :: codeTokens)
      (⟨word, ⟨name.text, code, []⟩⟩ :: opened) := by
  have hOpen :=
    OpenRule.intro hWord hName hOpening hCode .nil
  rw [List.append_nil] at hOpen
  exact .cons hOuter hOpen

------------------------------------------------------------
-- Going On To A Sentence
------------------------------------------------------------

@[simp] theorem inside_nil :
    Inside [] := by
  simp [Inside]

@[simp] theorem inside_cons
    {t : Token}
    {rest : List Token} :
    Inside (t :: rest) ↔ t.kind ≠ .endOfFile ∧ Inside rest := by
  exact List.forall_mem_cons

theorem Inside.append
    {front back : List Token}
    (hFront : Inside front)
    (hBack : Inside back) :
    Inside (front ++ back) := by
  intro t hMember
  rcases List.mem_append.mp hMember with hLeft | hRight
  · exact hFront t hLeft
  · exact hBack t hRight

theorem Inside.of_append
    {front back : List Token}
    (hInside : Inside (front ++ back)) :
    Inside front := by
  intro t hMember
  exact hInside t (List.mem_append_left back hMember)

theorem Viable.of_append
    {front back : List Token}
    (hViable : Viable input (front ++ back)) :
    Viable input front := by
  rcases hViable with ⟨rest, hSentence⟩
  rw [List.append_assoc] at hSentence
  exact ⟨back ++ rest, hSentence⟩

/- Where a token of a sentence stands: in its object or behind it. -/
theorem Sentence.object_cases
    {front rest : List Token}
    {t : Token}
    (hSentence : Sentence input (front ++ t :: rest)) :
    (t.kind ≠ .endOfFile ∧
      ∃ back tree, ObjectRule input (front ++ t :: back) tree) ∨
    (t.kind = .endOfFile ∧ ∃ tree, ObjectRule input front tree) := by
  generalize hWhole : front ++ t :: rest = whole at hSentence
  cases hSentence with
  | @intro tokens final tree hObject hInside hFinal =>
      rcases rest.eq_nil_or_concat with rfl | ⟨back, last, rfl⟩
      · rcases List.append_inj' hWhole rfl with ⟨rfl, hLast⟩
        cases hLast
        exact Or.inr ⟨hFinal, tree, hObject⟩
      · rw [List.concat_eq_append, ← List.cons_append,
          ← List.append_assoc] at hWhole
        rcases List.append_inj' hWhole rfl with ⟨rfl, -⟩
        have hKind := hInside t (by simp)
        exact Or.inl ⟨hKind, back, tree, hObject⟩

/- A token of a kind and a text, at no place of an input. -/
def sample (kind : TokenKind) (text : Text) : Token where
  kind := kind
  text := text
  location := .start
  stop := 0

/- A closing brace of no input. -/
def sampleClose : Token :=
  sample .symbol ['}'.toUInt8]

@[simp] theorem kind_sampleClose :
    sampleClose.kind = .symbol := by
  rfl

@[simp] theorem isClose_sampleClose :
    sampleClose.isClose = true := by
  rfl

@[simp] theorem isOpen_sampleClose :
    sampleClose.isOpen = false := by
  rfl

/- An object inside others is a part of a whole one. -/
theorem Enclosing.exists_object
    {tokens inner : List Token}
    {opened : List Opened}
    {tree : ObjectTree}
    (hOuter : Enclosing input tokens opened)
    (hObject : ObjectRule input inner tree) :
    ∃ rest whole, Inside rest ∧
      ObjectRule input (tokens ++ (inner ++ rest)) whole := by
  induction hOuter generalizing inner tree with
  | nil =>
      refine ⟨[], tree, inside_nil, ?_⟩
      rw [List.append_nil]
      exact hObject
  | cons _ hOpen ih =>
      have hParent := hOpen.addItem (.object hObject)
      rcases ih (hParent.close isClose_sampleClose) with
        ⟨rest, whole, hInside, hWhole⟩
      refine ⟨sampleClose :: rest, whole, ?_, ?_⟩
      · simpa using hInside
      · simpa using hWhole

/- A sentence begins with the tokens of an object inside others. -/
theorem Enclosing.viable_object
    {tokens inner : List Token}
    {opened : List Opened}
    {tree : ObjectTree}
    (hOuter : Enclosing input tokens opened)
    (hObject : ObjectRule input inner tree)
    (hInside : Inside (tokens ++ inner)) :
    Viable input (tokens ++ inner) := by
  rcases hOuter.exists_object hObject with ⟨rest, whole, hRest, hWhole⟩
  rw [← List.append_assoc] at hWhole
  have hSentence : Sentence input _ :=
    @Sentence.intro _ _ (sample .endOfFile []) _ hWhole
      (hInside.append hRest) rfl
  rw [List.append_assoc] at hSentence
  exact ⟨rest ++ [sample .endOfFile []], hSentence⟩

/- So it does with those of objects which are not closed. -/
theorem Enclosing.viable
    {tokens : List Token}
    {o : Opened}
    {opened : List Opened}
    (hEnclosing : Enclosing input tokens (o :: opened))
    (hInside : Inside tokens) :
    Viable input tokens := by
  cases hEnclosing with
  | @cons outer inner _ _ hOuter hOpen =>
      have hClose : Inside [sampleClose] := by
        simp
      have hClosed :=
        hOuter.viable_object (hOpen.close isClose_sampleClose)
      rw [← List.append_assoc] at hClosed
      exact (hClosed (hInside.append hClose)).of_append

end Yul

end ContractLinker
