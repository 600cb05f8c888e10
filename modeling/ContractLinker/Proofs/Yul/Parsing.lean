import ContractLinker.Proofs.Json.Decoding
import ContractLinker.Proofs.Yul.Blocks
import ContractLinker.Proofs.Yul.Tokens

/-
  Reading objects. The reader keeps a stack of the objects
  around; what it has of an object whose items were read up
  to some place is the object extended by those items. It
  accepts the tokens of an object which is derivable and
  allowed, and no others.

  Key definitions include:
    * `Yul.Object.add`
    * `Yul.Object.extend`
    * `Yul.ItemsAllowed`

  Main statements:
    * `Yul.ObjectReader.reads_object`
    * `Yul.ObjectReader.reads_sound`
    * `Yul.ObjectReader.run_keyword_eq_ok_iff`
    * `Yul.Object.parse_eq_ok_iff`
-/

------------------------------------------------------------
-- Objects Item By Item
------------------------------------------------------------

namespace ContractLinker

namespace Yul

namespace Object

/- An object with one more object inside. -/
def add (o child : Object) : Object :=
  if child.name = runtimeName o.name then
    { o with runtime := some child }
  else
    { o with subObjects := o.subObjects ++ [child] }

/- An object with one more declaration of data. -/
def declare (o : Object) (name content : Text) : Object :=
  { o with data := Dictionary.insert name content o.data }

/- An object with more items. -/
def extend (o : Object) (items : List ItemTree) : Object :=
  { o with
    data :=
      (declarationsOf items).foldl
        (fun d entry => Dictionary.insert entry.1 entry.2 d) o.data
    runtime :=
      o.runtime.or
        ((objectsOf items).find? fun child =>
          child.name = runtimeName o.name)
    subObjects :=
      o.subObjects ++
        (objectsOf items).filter fun child =>
          child.name ≠ runtimeName o.name }

/- The object of a code block, before any of its items. -/
def ofCode (name : Text) (code : Code) : Object :=
  { name, code, data := [], runtime := none, subObjects := [] }

@[simp] theorem name_add
    (o child : Object) :
    (o.add child).name = o.name := by
  unfold add
  split <;> rfl

theorem extend_nil
    (o : Object) :
    o.extend [] = o := by
  cases o
  simp [extend, declarationsOf, objectsOf]

theorem declarationsOf_object
    (tree : ObjectTree)
    (items : List ItemTree) :
    declarationsOf (.object tree :: items) = declarationsOf items := by
  rfl

/- A runtime object counts if there was none before. -/
theorem extend_object
    {o : Object}
    {tree : ObjectTree}
    (hFree : tree.toObject.name = runtimeName o.name →
      o.runtime = none)
    (items : List ItemTree) :
    (o.add tree.toObject).extend items =
      o.extend (.object tree :: items) := by
  unfold add
  by_cases hName : tree.toObject.name = runtimeName o.name
  · rw [if_pos hName]
    simp [extend, declarationsOf_object, objectsOf, hName,
      hFree hName]
  · rw [if_neg hName]
    simp [extend, declarationsOf_object, objectsOf, hName]

theorem extend_ofCode
    (name : Text)
    (code : Code)
    (items : List ItemTree) :
    (ofCode name code).extend items =
      ObjectTree.toObject ⟨name, code, items⟩ := by
  rfl

end Object

theorem ObjectTree.name_toObject
    (tree : ObjectTree) :
    tree.toObject.name = tree.name := by
  cases tree
  rfl

theorem objectsOf_eq_map
    (items : List ItemTree) :
    objectsOf items = (childrenOf items).map ObjectTree.toObject := by
  induction items with
  | nil =>
      rfl
  | cons item items ih =>
      cases item with
      | object tree => simp [objectsOf, childrenOf, ItemTree.object?, ih]
      | data name content =>
          have hSkip :
              childrenOf (.data name content :: items) =
                childrenOf items := by
            rfl
          rw [hSkip, ← ih, objectsOf]

/- The runtime object is the first child with the runtime name. -/
theorem ObjectTree.runtime_toObject
    (tree : ObjectTree) :
    tree.toObject.runtime =
      (childrenNamed (runtimeName tree.name) tree.items).head?.map
        ObjectTree.toObject := by
  rcases tree with ⟨name, code, items⟩
  have hRuntime :
      (ObjectTree.toObject ⟨name, code, items⟩).runtime =
        (objectsOf items).find? fun o => o.name = runtimeName name := by
    simp [ObjectTree.toObject]
  rw [hRuntime, objectsOf_eq_map, List.find?_map]
  simp only [childrenNamed, List.head?_filter, Function.comp_def,
    ObjectTree.name_toObject]

------------------------------------------------------------
-- Where Runtime Objects May Be
------------------------------------------------------------

/-
  Items which may follow in an object: runtime objects are
  where they may be, the one which the object has counted in.
-/
structure ItemsAllowed (outer : Surroundings) (o : Object)
    (items : List ItemTree) : Prop where
  inner : ∀ child ∈ childrenOf items,
    child.Allowed (some o.name)
  once :
    o.runtime.toList.length +
      (childrenNamed (runtimeName o.name) items).length ≤ 1
  none : outer.isRuntime o.name = true →
    childrenNamed (runtimeName o.name) items = []

/- A child which may follow in an object. -/
def Accepts (outer : Surroundings) (o : Object) (name : Text) :
    Prop :=
  name = runtimeName o.name →
    outer.isRuntime o.name = false ∧ o.runtime = none

variable {outer : Surroundings} {o : Object}

theorem itemsAllowed_nil :
    ItemsAllowed outer o [] := by
  constructor
  · simp [childrenOf]
  · cases hRuntime : o.runtime <;>
      simp [childrenNamed, childrenOf]
  · intro _
    rfl

theorem itemsAllowed_data
    {name content : Text}
    {items : List ItemTree} :
    ItemsAllowed outer o (.data name content :: items) ↔
      ItemsAllowed outer (o.declare name content) items := by
  constructor <;> exact fun h => ⟨h.inner, h.once, h.none⟩

theorem childrenNamed_object
    (name : Text)
    (tree : ObjectTree)
    (items : List ItemTree) :
    childrenNamed name (.object tree :: items) =
      if tree.name = name then tree :: childrenNamed name items
      else childrenNamed name items := by
  by_cases hName : tree.name = name
  · simp [childrenNamed, childrenOf, ItemTree.object?, hName]
  · simp [childrenNamed, childrenOf, ItemTree.object?, hName]

theorem itemsAllowed_runtime
    {tree : ObjectTree}
    {items : List ItemTree}
    (hName : tree.name = runtimeName o.name) :
    ItemsAllowed outer o (.object tree :: items) ↔
      tree.Allowed (some o.name) ∧
        (outer.isRuntime o.name = false ∧ o.runtime = none) ∧
        ItemsAllowed outer (o.add tree.toObject) items := by
  have hChildren :
      childrenOf (.object tree :: items) = tree :: childrenOf items := by
    rfl
  have hNamed := childrenNamed_object (runtimeName o.name) tree items
  have hRuntime :
      (o.add tree.toObject).runtime = some tree.toObject := by
    rw [Object.add, ObjectTree.name_toObject, if_pos hName]
  rw [if_pos hName] at hNamed
  constructor
  · rintro ⟨hInner, hOnce, hNone⟩
    rw [hChildren, List.forall_mem_cons] at hInner
    rw [hNamed, List.length_cons] at hOnce
    have hFree : o.runtime = none := by
      cases hSome : o.runtime with
      | none =>
          rfl
      | some r =>
          rw [hSome, Option.toList_some, List.length_singleton]
            at hOnce
          omega
    have hRest : childrenNamed (runtimeName o.name) items = [] := by
      apply List.eq_nil_of_length_eq_zero
      omega
    have hHere : outer.isRuntime o.name = false := by
      rw [← Bool.not_eq_true]
      intro hHere
      rw [hNamed] at hNone
      cases hNone hHere
    refine ⟨hInner.1, ⟨hHere, hFree⟩, ?_, ?_, ?_⟩
    · rw [Object.name_add]
      exact hInner.2
    · rw [Object.name_add, hRest, hRuntime]
      exact Nat.le_refl 1
    · intro _
      rw [Object.name_add]
      exact hRest
  · rintro ⟨hTree, ⟨hHere, hFree⟩, hInner, hOnce, -⟩
    rw [Object.name_add] at hInner hOnce
    rw [hRuntime, Option.toList_some, List.length_singleton]
      at hOnce
    constructor
    · rw [hChildren, List.forall_mem_cons]
      exact ⟨hTree, hInner⟩
    · rw [hNamed, hFree, List.length_cons, Option.toList_none,
        List.length_nil]
      omega
    · intro hRuntimeHere
      rw [hHere] at hRuntimeHere
      cases hRuntimeHere

theorem itemsAllowed_other
    {tree : ObjectTree}
    {items : List ItemTree}
    (hName : tree.name ≠ runtimeName o.name) :
    ItemsAllowed outer o (.object tree :: items) ↔
      tree.Allowed (some o.name) ∧
        ItemsAllowed outer (o.add tree.toObject) items := by
  have hChildren :
      childrenOf (.object tree :: items) = tree :: childrenOf items := by
    rfl
  have hNamed := childrenNamed_object (runtimeName o.name) tree items
  have hRuntime : (o.add tree.toObject).runtime = o.runtime := by
    rw [Object.add, ObjectTree.name_toObject, if_neg hName]
  rw [if_neg hName] at hNamed
  constructor
  · rintro ⟨hInner, hOnce, hNone⟩
    rw [hChildren, List.forall_mem_cons] at hInner
    rw [hNamed] at hOnce hNone
    refine ⟨hInner.1, ?_, ?_, ?_⟩
    · rw [Object.name_add]
      exact hInner.2
    · rw [Object.name_add, hRuntime]
      exact hOnce
    · rw [Object.name_add]
      exact hNone
  · rintro ⟨hTree, hInner, hOnce, hNone⟩
    rw [Object.name_add] at hInner hOnce hNone
    rw [hRuntime] at hOnce
    constructor
    · rw [hChildren, List.forall_mem_cons]
      exact ⟨hTree, hInner⟩
    · rw [hNamed]
      exact hOnce
    · rw [hNamed]
      exact hNone

/- An object may come first if it is accepted and others follow. -/
theorem itemsAllowed_object
    {tree : ObjectTree}
    {items : List ItemTree} :
    ItemsAllowed outer o (.object tree :: items) ↔
      tree.Allowed (some o.name) ∧ Accepts outer o tree.name ∧
        ItemsAllowed outer (o.add tree.toObject) items := by
  unfold Accepts
  by_cases hName : tree.name = runtimeName o.name
  · rw [itemsAllowed_runtime hName]
    simp only [hName, forall_const]
  · rw [itemsAllowed_other hName]
    simp only [hName, false_implies, true_and]

/- Nothing is in an object whose items are still to come. -/
theorem itemsAllowed_ofCode
    {name : Text}
    {code : Code}
    {items : List ItemTree} :
    ItemsAllowed outer (.ofCode name code) items ↔
      ObjectTree.Allowed outer.parentName ⟨name, code, items⟩ := by
  have hHere :
      outer.isRuntime name = true ↔
        outer.parentName.map runtimeName = some name := by
    simp [Surroundings.isRuntime]
  constructor
  · rintro ⟨hInner, hOnce, hNone⟩
    rw [Object.ofCode, Option.toList_none, List.length_nil,
      Nat.zero_add] at hOnce
    exact .intro hOnce (fun h => hNone (hHere.mpr h)) hInner
  · rintro ⟨hOnce, hNone, hInner⟩
    refine ⟨hInner, ?_, fun h => hNone (hHere.mp h)⟩
    rw [Object.ofCode, Option.toList_none, List.length_nil,
      Nat.zero_add]
    exact hOnce

------------------------------------------------------------
-- Steps
------------------------------------------------------------

namespace ObjectReader

variable {input : Text} {ending : Except ParseError Token}

/- The result of reading some tokens from a state on. -/
def run (input : Text) (ending : Except ParseError Token)
    (reader : ObjectReader) (tokens : List Token) :
    Except ParseError (Object × TokenStream) :=
  feed (step input) refuse ending reader tokens

/- How reading goes on when an object has been closed. -/
def runClosed (input : Text) (ending : Except ParseError Token)
    (outer : Surroundings) (draft : Draft) (tokens : List Token) :
    Except ParseError (Object × TokenStream) :=
  resume (step input) refuse ending (close outer draft) tokens

/- A finished object is put into one which accepts it. -/
theorem attach_eq_ok_iff
    {parent child result : Draft} :
    attach outer parent child = .ok result ↔
      Accepts outer parent.object child.object.name ∧
        result =
          { parent with
            object := parent.object.add child.object } := by
  unfold attach Accepts Object.add
  dsimp only
  by_cases hName : child.object.name = runtimeName parent.object.name
  · rw [if_pos hName, if_pos hName]
    cases hHere : outer.isRuntime parent.object.name with
    | true =>
        simp [hName]
    | false =>
        cases hRuntime : parent.object.runtime with
        | none => simp [eq_comm]
        | some r => simp [hName]
  · rw [if_neg hName, if_neg hName]
    simp only [hName, false_implies, true_and, Except.ok.injEq]
    exact eq_comm

theorem close_inside
    {parent child : Draft}
    (hAccepts : Accepts outer parent.object child.object.name) :
    close { outer with drafts := parent :: outer.drafts } child =
      .ok (.more (.items outer
        { parent with
          object := parent.object.add child.object })) := by
  have hAttach := attach_eq_ok_iff.mpr ⟨hAccepts, rfl⟩
  unfold close
  dsimp only
  rw [hAttach]
  rfl

/- Reading can only go on behind an object which is accepted. -/
theorem accepts_of_runClosed
    {parent child : Draft}
    {tokens : List Token}
    {result : Object × TokenStream}
    (hRun :
      runClosed input ending
          { outer with drafts := parent :: outer.drafts } child
          tokens =
        .ok result) :
    Accepts outer parent.object child.object.name ∧
      run input ending
          (.items outer
            { parent with
              object := parent.object.add child.object })
          tokens =
        .ok result := by
  cases hAttach : attach outer parent child with
  | error e =>
      unfold runClosed close at hRun
      dsimp only at hRun
      rw [hAttach] at hRun
      cases hRun
  | ok draft =>
      have hAccepts := (attach_eq_ok_iff.mp hAttach).1
      rw [runClosed, close_inside hAccepts] at hRun
      exact ⟨hAccepts, hRun⟩

/- A reader of code inside an object reads as it does alone. -/
theorem reads_coding
    {start : Location}
    {name : Text}
    {reader reader' : CodeReader}
    {tokens : List Token}
    (hReads : Reads (CodeReader.step input) reader tokens reader') :
    Reads (step input) (.coding outer start name reader) tokens
      (.coding outer start name reader') := by
  induction hReads with
  | nil _ =>
      exact .nil _
  | cons hStep _ ih =>
      refine .cons ?_ ih
      rw [step, hStep]

/- The block of an object as it is read from its opening brace. -/
def openBlock (opening : Token) : OpenBlock where
  start := opening.location
  depth := 0
  reference := .nothing
  references := []

theorem reads_code
    {word opening : Token}
    (hWord : word.isKeyword (ascii "code") = true)
    (hOpening : opening.isOpen = true)
    (start : Location)
    (name : Text) :
    Reads (step input) (.coding outer start name .keyword)
      [word, opening]
      (.coding outer start name (.block (openBlock opening))) := by
  exact reads_coding (CodeReader.reads_opening hWord hOpening)

/- A derivable block is read, and its code is what is kept. -/
theorem reads_codeRule
    {tokens : List Token}
    {code : Code}
    (hCode : CodeRule input tokens code)
    (start : Location)
    (name : Text) :
    Reads (step input) (.coding outer start name .keyword) tokens
      (.items outer ⟨start, .ofCode name code⟩) := by
  cases hCode with
  | @intro word opening closing body hWord hOpening hBody hClosing =>
      have hDepth :
          depthAfter (openBlock opening).depth body = some 0 :=
        balanced_iff_depthAfter.mp hBody
      rcases CodeReader.reads_block input hDepth with
        ⟨progress, hReads⟩
      refine (reads_code hWord hOpening start name).append
        ((reads_coding hReads).append (.one ?_))
      rw [step, CodeReader.step_closing hClosing rfl]
      have hReferences :
          TextSet.union (openBlock opening).references
              (referencesFrom (openBlock opening).reference body) =
            TextSet.union [] (referencesOf body) := by
        rw [← referencesFrom_eq]
        rfl
      rw [hReferences]
      rfl

------------------------------------------------------------
-- Derivable Objects Are Read
------------------------------------------------------------

theorem step_items_object
    {draft : Draft}
    {word : Token}
    (hWord : word.isKeyword (ascii "object") = true) :
    step input (.items outer draft) word =
      .ok (.more (.naming
        { outer with drafts := draft :: outer.drafts }
        word.location)) := by
  have hClose := Token.isClose_of_isKeyword hWord
  simp [step, hClose, hWord]

theorem step_items_data
    {draft : Draft}
    {word : Token}
    (hWord : word.isKeyword (ascii "data") = true) :
    step input (.items outer draft) word =
      .ok (.more (.dataNaming outer draft)) := by
  have hClose := Token.isClose_of_isKeyword hWord
  have hOther := Token.not_object_of_data hWord
  simp [step, hClose, hWord, hOther]

theorem step_items_close
    (input : Text)
    {draft : Draft}
    {closing : Token}
    (hClosing : closing.isClose = true) :
    step input (.items outer draft) closing = close outer draft := by
  simp [step, hClosing]

theorem reads_data
    {name content : Token}
    (hName : name.kind = .stringLiteral)
    (hContent : content.kind = .hexLiteral ∨
      content.kind = .stringLiteral)
    (draft : Draft) :
    Reads (step input) (.dataNaming outer draft) [name, content]
      (.items outer
        { draft with
          object := draft.object.declare name.text content.text }) := by
  have hNaming :
      step input (.dataNaming outer draft) name =
        .ok (.more (.dataContent outer draft name.text)) := by
    rw [step, if_pos hName]
  refine .cons hNaming (.one ?_)
  simp only [step, Bool.or_eq_true, decide_eq_true_eq]
  rw [if_pos hContent]
  rfl

theorem reads_head
    {name opening : Token}
    (hName : name.kind = .stringLiteral)
    (hOpening : opening.isOpen = true)
    (start : Location) :
    Reads (step input) (.naming outer start) [name, opening]
      (.coding outer start name.text .keyword) := by
  have hNaming :
      step input (.naming outer start) name =
        .ok (.more (.opening outer start name.text)) := by
    rw [step, if_pos hName]
  refine .cons hNaming (.one ?_)
  rw [step, if_pos hOpening]

/- The front of an object, up to its first item. -/
theorem reads_front
    {name opening : Token}
    {codeTokens : List Token}
    {code : Code}
    (hName : name.kind = .stringLiteral)
    (hOpening : opening.isOpen = true)
    (hCode : CodeRule input codeTokens code)
    (start : Location) :
    Reads (step input) (.naming outer start)
      (name :: opening :: codeTokens)
      (.items outer ⟨start, .ofCode name.text code⟩) := by
  exact (reads_head hName hOpening start).append
    (reads_codeRule hCode start name.text)

/- An object which is read up to its brace is put into its parent. -/
theorem reads_child
    {draft : Draft}
    {child : Object}
    {word closing : Token}
    {front : List Token}
    (hWord : word.isKeyword (ascii "object") = true)
    (hFront :
      Reads (step input)
        (.naming { outer with drafts := draft :: outer.drafts }
          word.location)
        front
        (.items { outer with drafts := draft :: outer.drafts }
          ⟨word.location, child⟩))
    (hClosing : closing.isClose = true)
    (hAccepts : Accepts outer draft.object child.name) :
    Reads (step input) (.items outer draft)
      (word :: (front ++ [closing]))
      (.items outer { draft with object := draft.object.add child }) := by
  have hClose :=
    (step_items_close input hClosing).trans
      (@close_inside outer draft ⟨word.location, child⟩ hAccepts)
  exact .cons (step_items_object hWord) (hFront.append (.one hClose))

mutual

/-
  An allowed object is read up to its closing brace, and
  the draft is then the object its tree stands for.
-/
theorem reads_object :
    ∀ (tree : ObjectTree) (outer : Surroundings)
      {tokens : List Token} {word : Token} (start : Location),
      ObjectRule input (word :: tokens) tree →
      tree.Allowed outer.parentName →
        ∃ front closing, tokens = front ++ [closing] ∧
          closing.isClose = true ∧
          Reads (step input) (.naming outer start) front
            (.items outer ⟨start, tree.toObject⟩)
  | ⟨_, code, parts⟩, outer, _, _, start, hObject, hAllowed => by
      cases hObject with
      | @intro _ name opening closing codeTokens itemTokens _ _
          _ hName hOpening hCode hItems hClosing =>
          have hFollow :
              ItemsAllowed outer (.ofCode name.text code) parts :=
            itemsAllowed_ofCode.mpr hAllowed
          have hRest :=
            reads_items parts ⟨start, .ofCode name.text code⟩ hItems
              hFollow
          dsimp only at hRest
          rw [Object.extend_ofCode] at hRest
          refine
            ⟨name :: opening :: codeTokens ++ itemTokens, closing,
              by simp, hClosing, ?_⟩
          exact (reads_front hName hOpening hCode start).append hRest
termination_by structural tree => tree

/- Allowed items extend the draft in front of them. -/
theorem reads_items :
    ∀ (parts : List ItemTree) {outer : Surroundings}
      {tokens : List Token} (draft : Draft),
      ItemsRule input tokens parts →
      ItemsAllowed outer draft.object parts →
        Reads (step input) (.items outer draft) tokens
          (.items outer
            { draft with object := draft.object.extend parts })
  | [], outer, _, draft, hItems, _ => by
      cases hItems
      rw [Object.extend_nil]
      exact .nil _
  | .object tree :: parts, outer, _, draft, hItems, hAllowed => by
      rcases itemsAllowed_object.mp hAllowed with
        ⟨hTree, hAccepts, hFollow⟩
      rw [← ObjectTree.name_toObject] at hAccepts
      cases hItems with
      | cons hItem hItems =>
      cases hItem with
      | object hObject =>
      rcases hObject.exists_word with ⟨word, others, rfl, hWord⟩
      rcases reads_object tree
          { outer with drafts := draft :: outer.drafts }
          word.location hObject hTree with
        ⟨front, closing, rfl, hClosing, hReads⟩
      have hChild := reads_child hWord hReads hClosing hAccepts
      have hRest :=
        reads_items parts
          { draft with object := draft.object.add tree.toObject }
          hItems hFollow
      have hFree :
          tree.toObject.name = runtimeName draft.object.name →
            draft.object.runtime = none :=
        fun h => (hAccepts h).2
      dsimp only at hRest
      rw [Object.extend_object hFree] at hRest
      exact hChild.append hRest
  | .data _ _ :: parts, outer, _, draft, hItems, hAllowed => by
      cases hItems with
      | cons hItem hItems =>
      cases hItem with
      | @data word name content hWord hName hContent =>
          have hRest :=
            reads_items parts
              { draft with
                object := draft.object.declare name.text content.text }
              hItems (itemsAllowed_data.mp hAllowed)
          exact (Reads.cons (step_items_data hWord)
            (reads_data hName hContent draft)).append hRest
termination_by structural parts => parts

end

------------------------------------------------------------
-- What Is Read Is Derivable
------------------------------------------------------------

variable {result : Object × TokenStream}

theorem run_append
    {reader reader' : ObjectReader}
    {front : List Token}
    (hReads : Reads (step input) reader front reader')
    (back : List Token) :
    run input ending reader (front ++ back) =
      run input ending reader' back := by
  exact hReads.feed_append back

/- A reader which comes to a result takes a token. -/
theorem exists_step_of_run
    {reader : ObjectReader}
    {tokens : List Token}
    (hRun : run input ending reader tokens = .ok result) :
    ∃ t rest, tokens = t :: rest ∧
      resume (step input) refuse ending (step input reader t) rest =
        .ok result := by
  exact exists_step_of_feed hRun

theorem exists_head_of_run
    {start : Location}
    {tokens : List Token}
    (hRun :
      run input ending (.naming outer start) tokens = .ok result) :
    ∃ name opening rest, tokens = [name, opening] ++ rest ∧
      name.kind = .stringLiteral ∧ opening.isOpen = true ∧
      run input ending (.coding outer start name.text .keyword) rest =
        .ok result := by
  rcases exists_step_of_run hRun with ⟨name, tokens, rfl, hStep⟩
  rw [step] at hStep
  by_cases hName : name.kind = .stringLiteral
  · rw [if_pos hName] at hStep
    rcases exists_step_of_run hStep with ⟨opening, rest, rfl, hNext⟩
    rw [step] at hNext
    by_cases hOpening : opening.isOpen = true
    · rw [if_pos hOpening] at hNext
      exact ⟨name, opening, rest, rfl, hName, hOpening, hNext⟩
    · rw [if_neg hOpening] at hNext
      cases hNext
  · rw [if_neg hName] at hStep
    cases hStep

/- Behind the code of an object reading goes on with its items. -/
theorem exists_feed_of_run
    {start : Location}
    {name : Text}
    {reader : CodeReader}
    {tokens : List Token}
    (hRun :
      run input ending (.coding outer start name reader) tokens =
        .ok result) :
    ∃ code behind,
      feed (CodeReader.step input) CodeReader.refuse ending reader
          tokens =
        .ok (code, behind) ∧
      run input ending (.items outer ⟨start, .ofCode name code⟩)
          behind.tokens =
        .ok result := by
  induction tokens generalizing reader with
  | nil =>
      exact absurd hRun (feed_nil_ne_ok _ _)
  | cons t rest ih =>
      rw [run, feed_cons, step] at hRun
      rw [feed_cons]
      cases hStep : reader.step input t with
      | error e =>
          rw [hStep] at hRun
          cases hRun
      | ok progress =>
          rw [hStep] at hRun
          cases progress with
          | more next => exact ih hRun
          | done code => exact ⟨code, _, rfl, hRun⟩

theorem exists_code_of_run
    {start : Location}
    {name : Text}
    {tokens : List Token}
    (hRun :
      run input ending (.coding outer start name .keyword) tokens =
        .ok result) :
    ∃ front back code, tokens = front ++ back ∧
      CodeRule input front code ∧
      run input ending (.items outer ⟨start, .ofCode name code⟩) back =
        .ok result := by
  rcases exists_feed_of_run hRun with ⟨code, behind, hFeed, hItems⟩
  rcases CodeReader.feed_keyword_eq_ok_iff.mp hFeed with
    ⟨front, hTokens, -, hCode⟩
  exact ⟨front, behind.tokens, code, hTokens, hCode, hItems⟩

/- What may stand where an item is expected. -/
theorem items_cases
    {draft : Draft}
    {tokens : List Token}
    (hRun :
      run input ending (.items outer draft) tokens = .ok result) :
    ∃ t rest, tokens = t :: rest ∧
      ((t.isClose = true ∧
          runClosed input ending outer draft rest = .ok result) ∨
        (t.isKeyword (ascii "object") = true ∧
          run input ending
              (.naming { outer with drafts := draft :: outer.drafts }
                t.location)
              rest =
            .ok result) ∨
        (t.isKeyword (ascii "data") = true ∧
          run input ending (.dataNaming outer draft) rest =
            .ok result)) := by
  rcases exists_step_of_run hRun with ⟨t, rest, rfl, hStep⟩
  refine ⟨t, rest, rfl, ?_⟩
  by_cases hClosing : t.isClose = true
  · rw [step_items_close input hClosing] at hStep
    exact Or.inl ⟨hClosing, hStep⟩
  by_cases hObject : t.isKeyword (ascii "object") = true
  · rw [step_items_object hObject] at hStep
    exact Or.inr (Or.inl ⟨hObject, hStep⟩)
  by_cases hData : t.isKeyword (ascii "data") = true
  · rw [step_items_data hData] at hStep
    exact Or.inr (Or.inr ⟨hData, hStep⟩)
  · rw [step, if_neg hClosing, if_neg hObject, if_neg hData] at hStep
    cases hStep

theorem exists_data_of_run
    {draft : Draft}
    {tokens : List Token}
    (hRun :
      run input ending (.dataNaming outer draft) tokens =
        .ok result) :
    ∃ name content rest, tokens = [name, content] ++ rest ∧
      name.kind = .stringLiteral ∧
      (content.kind = .hexLiteral ∨ content.kind = .stringLiteral) ∧
      run input ending
          (.items outer
            { draft with
              object :=
                draft.object.declare name.text content.text })
          rest =
        .ok result := by
  rcases exists_step_of_run hRun with ⟨name, tokens, rfl, hStep⟩
  rw [step] at hStep
  by_cases hName : name.kind = .stringLiteral
  · rw [if_pos hName] at hStep
    rcases exists_step_of_run hStep with ⟨content, rest, rfl, hNext⟩
    by_cases hContent :
        content.kind = .hexLiteral ∨ content.kind = .stringLiteral
    · refine ⟨name, content, rest, rfl, hName, hContent, ?_⟩
      rw [← run_append (reads_data hName hContent draft)]
      rw [run, List.cons_append, feed_cons, step, if_pos hName]
      exact hStep
    · simp only [step, Bool.or_eq_true, decide_eq_true_eq] at hNext
      rw [if_neg hContent] at hNext
      cases hNext
  · rw [if_neg hName] at hStep
    cases hStep

/-
  What is read of an object from its name on is derivable
  and allowed, and reading goes on with what it stands for.
-/
def ReadsObject (input : Text) (ending : Except ParseError Token)
    (tokens : List Token) : Prop :=
  ∀ (outer : Surroundings) (word : Token) (start : Location)
      (result : Object × TokenStream),
    word.isKeyword (ascii "object") = true →
    run input ending (.naming outer start) tokens = .ok result →
      ∃ front back tree, tokens = front ++ back ∧
        ObjectRule input (word :: front) tree ∧
        tree.Allowed outer.parentName ∧
        runClosed input ending outer ⟨start, tree.toObject⟩ back =
          .ok result

/- So are the items of an object, up to its closing brace. -/
def ReadsItems (input : Text) (ending : Except ParseError Token)
    (tokens : List Token) : Prop :=
  ∀ (outer : Surroundings) (draft : Draft)
      (result : Object × TokenStream),
    run input ending (.items outer draft) tokens = .ok result →
      ∃ front closing back parts,
        tokens = front ++ closing :: back ∧
        closing.isClose = true ∧
        ItemsRule input front parts ∧
        ItemsAllowed outer draft.object parts ∧
        runClosed input ending outer
            { draft with object := draft.object.extend parts } back =
          .ok result

theorem readsObject_of_shorter
    {tokens : List Token}
    (hShorter : ∀ others : List Token,
      others.length < tokens.length → ReadsItems input ending others) :
    ReadsObject input ending tokens := by
  intro outer word start result hWord hRun
  rcases exists_head_of_run hRun with
    ⟨name, opening, rest, rfl, hName, hOpening, hCoding⟩
  rcases exists_code_of_run hCoding with
    ⟨codeTokens, others, code, rfl, hCode, hItems⟩
  have hLess :
      others.length <
        ([name, opening] ++ (codeTokens ++ others)).length := by
    simp only [List.length_append, List.length_cons]
    omega
  rcases hShorter others hLess outer _ result hItems with
    ⟨itemTokens, closing, back, parts, rfl, hClosing, hParts,
      hAllowed, hClosed⟩
  rw [Object.extend_ofCode] at hClosed
  refine
    ⟨name :: opening :: (codeTokens ++ (itemTokens ++ [closing])),
      back, ⟨name.text, code, parts⟩, by simp, ?_, ?_, hClosed⟩
  · exact .intro hWord hName hOpening hCode hParts hClosing
  · exact itemsAllowed_ofCode.mp hAllowed

/- A child is read first, and then the items behind it. -/
theorem readsItems_object
    {word : Token}
    {rest : List Token}
    {draft : Draft}
    (hObject : ReadsObject input ending rest)
    (hShorter : ∀ others : List Token,
      others.length ≤ rest.length → ReadsItems input ending others)
    (hWord : word.isKeyword (ascii "object") = true)
    (hRun :
      run input ending
          (.naming { outer with drafts := draft :: outer.drafts }
            word.location)
          rest =
        .ok result) :
    ∃ front closing back parts,
      word :: rest = front ++ closing :: back ∧
      closing.isClose = true ∧
      ItemsRule input front parts ∧
      ItemsAllowed outer draft.object parts ∧
      runClosed input ending outer
          { draft with object := draft.object.extend parts } back =
        .ok result := by
  rcases hObject _ word _ result hWord hRun with
    ⟨front, others, tree, rfl, hTree, hAllowed, hClosed⟩
  rcases accepts_of_runClosed hClosed with ⟨hAccepts, hRest⟩
  have hLess : others.length ≤ (front ++ others).length := by
    rw [List.length_append]
    exact Nat.le_add_left _ _
  rcases hShorter others hLess outer _ result hRest with
    ⟨itemTokens, closing, back, parts, rfl, hClosing, hParts,
      hFollow, hResult⟩
  dsimp only at hAccepts hResult hFollow
  have hFree :
      tree.toObject.name = runtimeName draft.object.name →
        draft.object.runtime = none :=
    fun h => (hAccepts h).2
  rw [Object.extend_object hFree] at hResult
  rw [ObjectTree.name_toObject] at hAccepts
  refine
    ⟨word :: front ++ itemTokens, closing, back,
      .object tree :: parts, by simp, hClosing, ?_, ?_, hResult⟩
  · exact .cons (.object hTree) hParts
  · exact itemsAllowed_object.mpr ⟨hAllowed, hAccepts, hFollow⟩

theorem readsItems_of_shorter
    {tokens : List Token}
    (hShorter : ∀ others : List Token,
      others.length < tokens.length →
        ReadsObject input ending others ∧
          ReadsItems input ending others) :
    ReadsItems input ending tokens := by
  intro outer draft result hRun
  rcases items_cases hRun with
    ⟨t, rest, rfl, ⟨hClosing, hClosed⟩ | ⟨hWord, hNaming⟩ |
      ⟨hWord, hData⟩⟩
  · refine
      ⟨[], t, rest, [], rfl, hClosing, .nil, itemsAllowed_nil, ?_⟩
    rw [Object.extend_nil]
    exact hClosed
  · apply readsItems_object (hShorter rest (Nat.lt_succ_self _)).1 _
      hWord hNaming
    intro others hLess
    exact (hShorter others (Nat.lt_succ_of_le hLess)).2
  · rcases exists_data_of_run hData with
      ⟨name, content, others, rfl, hName, hContent, hRest⟩
    have hLess :
        others.length < (t :: ([name, content] ++ others)).length := by
      simp only [List.length_cons, List.length_append]
      omega
    rcases (hShorter others hLess).2 outer _ result hRest with
      ⟨itemTokens, closing, back, parts, rfl, hClosing, hParts,
        hFollow, hResult⟩
    refine
      ⟨[t, name, content] ++ itemTokens, closing, back,
        .data name.text content.text :: parts, by simp, hClosing,
        ?_, ?_, hResult⟩
    · exact .cons (.data hWord hName hContent) hParts
    · exact itemsAllowed_data.mpr hFollow

/- Each of the two is about shorter lists of tokens in turn. -/
theorem reads_sound
    (tokens : List Token) :
    ReadsObject input ending tokens ∧
      ReadsItems input ending tokens := by
  induction hLength : tokens.length using Nat.strongRecOn
    generalizing tokens with
  | ind n ih =>
      subst hLength
      constructor
      · apply readsObject_of_shorter
        intro others hLess
        exact (ih _ hLess others rfl).2
      · apply readsItems_of_shorter
        intro others hLess
        exact ih _ hLess others rfl

/- The reader comes to a result on just the derivable objects. -/
theorem run_keyword_eq_ok_iff
    {parent : Option Text}
    {tokens : List Token}
    {o : Object}
    {stream : TokenStream} :
    run input ending (.keyword ⟨parent, []⟩) tokens =
        .ok (o, stream) ↔
      ∃ front tree, tokens = front ++ stream.tokens ∧
        stream.ending = ending ∧
        ObjectRule input front tree ∧ tree.Allowed parent ∧
        tree.toObject = o := by
  constructor
  · intro hRun
    rcases exists_step_of_run hRun with ⟨word, rest, rfl, hStep⟩
    rw [step] at hStep
    by_cases hWord : word.isKeyword (ascii "object") = true
    · rw [if_pos hWord] at hStep
      rcases (reads_sound rest).1 _ word _ _ hWord hStep with
        ⟨front, back, tree, rfl, hObject, hAllowed, hClosed⟩
      cases hClosed
      exact ⟨word :: front, tree, rfl, rfl, hObject, hAllowed, rfl⟩
    · rw [if_neg hWord] at hStep
      cases hStep
  · rintro ⟨front, tree, rfl, hEnding, hObject, hAllowed, rfl⟩
    rcases hObject.exists_word with ⟨word, rest, rfl, hWord⟩
    rcases reads_object tree ⟨parent, []⟩ word.location
        hObject hAllowed with
      ⟨inner, closing, rfl, hClosing, hReads⟩
    have hStep :
        step input (.keyword ⟨parent, []⟩) word =
          .ok (.more (.naming ⟨parent, []⟩ word.location)) := by
      rw [step, if_pos hWord]
    have hTokens :
        word :: (inner ++ [closing]) ++ stream.tokens =
          (word :: inner) ++ closing :: stream.tokens := by
      simp
    rw [hTokens, run_append (.cons hStep hReads), run, feed_cons,
      step_items_close input hClosing]
    subst hEnding
    rfl

end ObjectReader

------------------------------------------------------------
-- The Language Of The Parser
------------------------------------------------------------

namespace Object

theorem emits_iff_stream
    {input : Text}
    {tokens : List Token}
    {ending : Except ParseError Token} :
    (Lexer.ofText input).Emits tokens ending ↔
      tokens = (TokenStream.ofText input).tokens ∧
        ending = (TokenStream.ofText input).ending := by
  have hStream := TokenStream.emits_ofText input
  constructor
  · intro hEmits
    exact hEmits.unique hStream
  · rintro ⟨rfl, rfl⟩
    exact hStream

/- The front of an input is read as its tokens say. -/
theorem parseFront_eq_ok_iff
    {parent : Option Text}
    {input : Text}
    {o : Object}
    {rest : TokenStream} :
    parseFront parent input (.ofText input) = .ok (o, rest) ↔
      ∃ front tree,
        (Lexer.ofText input).Emits (front ++ rest.tokens) rest.ending ∧
        ObjectRule input front tree ∧ tree.Allowed parent ∧
        tree.toObject = o := by
  simp only [emits_iff_stream]
  refine Iff.trans ObjectReader.run_keyword_eq_ok_iff ?_
  apply exists₂_congr
  intro front tree
  rw [and_assoc, eq_comm]

theorem parseWithin_eq_ok_iff
    {parent input : Text}
    {o : Object} :
    parseWithin parent input = .ok o ↔
      ∃ rest, parseFront (some parent) input (.ofText input) =
        .ok (o, rest) := by
  unfold parseWithin
  rw [bind_eq_ok_iff]
  constructor
  · rintro ⟨⟨o', rest⟩, hFront, hEq⟩
    cases hEq
    exact ⟨rest, hFront⟩
  · rintro ⟨rest, hFront⟩
    exact ⟨(o, rest), hFront, rfl⟩

/- The whole input is read if nothing is left behind the object. -/
theorem parse_eq_ok_iff_parseFront
    {input : Text}
    {o : Object} :
    parse input = .ok o ↔
      ∃ final, parseFront none input (.ofText input) =
        .ok (o, ⟨[], .ok final⟩) := by
  unfold parse
  rw [bind_eq_ok_iff]
  constructor
  · rintro ⟨⟨o', ⟨tokens, ending⟩⟩, hFront, hEnd⟩
    cases tokens with
    | cons t tokens =>
        cases hEnd
    | nil =>
        rcases bind_eq_ok_iff.mp hEnd with ⟨final, hEnding, hEq⟩
        cases hEq
        dsimp only at hEnding
        rw [hEnding] at hFront
        exact ⟨final, hFront⟩
  · rintro ⟨final, hFront⟩
    exact ⟨_, hFront, rfl⟩

/-
  An input is accepted just when it has no lexical fault and
  its tokens are those of an allowed object; with a parent,
  just when the tokens in front of some place are. The
  result is what the derivation stands for, and there is
  one place and one derivation at most.
-/
theorem parse_eq_ok_iff
    (input : Text) :
    (∀ o, parse input = .ok o ↔
      ∃ tokens final tree,
        (Lexer.ofText input).Emits tokens (.ok final) ∧
        ObjectRule input tokens tree ∧ tree.Allowed none ∧
        tree.toObject = o) ∧
    (∀ parent o, parseWithin parent input = .ok o ↔
      ∃ front back ending tree,
        (Lexer.ofText input).Emits (front ++ back) ending ∧
        ObjectRule input front tree ∧ tree.Allowed (some parent) ∧
        tree.toObject = o) ∧
    ∀ front front' rest rest' tree tree',
      ObjectRule input front tree →
      ObjectRule input front' tree' →
      front ++ rest = front' ++ rest' →
        front = front' ∧ tree = tree' := by
  refine ⟨?_, ?_, ?_⟩
  · intro o
    rw [parse_eq_ok_iff_parseFront]
    simp only [parseFront_eq_ok_iff, List.append_nil]
    constructor
    · rintro ⟨final, front, tree, hEmits, hRule⟩
      exact ⟨front, final, tree, hEmits, hRule⟩
    · rintro ⟨tokens, final, tree, hEmits, hRule⟩
      exact ⟨final, tokens, tree, hEmits, hRule⟩
  · intro parent o
    rw [parseWithin_eq_ok_iff]
    simp only [parseFront_eq_ok_iff]
    constructor
    · rintro ⟨rest, front, tree, hEmits, hRule⟩
      exact ⟨front, rest.tokens, rest.ending, tree, hEmits, hRule⟩
    · rintro ⟨front, back, ending, tree, hEmits, hRule⟩
      exact ⟨⟨back, ending⟩, front, tree, hEmits, hRule⟩
  · intro front front' rest rest' tree tree' hRule hRule' hSame
    rcases ObjectRule.unique_append tree hRule hRule' hSame with
      ⟨rfl, rfl⟩
    exact ⟨List.append_cancel_right hSame, rfl⟩

/- An object with a runtime object between two declarations. -/
def nestedSource : Text :=
  ascii "object 'A' \x7b code \x7b\x7b\x7d\x7d data 'd' '1' " ++
    ascii "object 'A_deployed' \x7b code \x7b\x7d \x7d " ++
    ascii "data 'd' hex'2' \x7d // end"

theorem parse_nestedSource :
    ∃ tokens final tree,
      (Lexer.ofText nestedSource).Emits tokens (.ok final) ∧
      ObjectRule nestedSource tokens tree ∧ tree.Allowed none ∧
      tree.toObject.data = [(ascii "d", ascii "2")] ∧
      tree.toObject.runtime.map Object.name =
        some (ascii "A_deployed") ∧
      ∀ tree', ObjectRule nestedSource tokens tree' → tree' = tree := by
  have hRead :
      (parse nestedSource).toOption.map
          (fun o => (o.data, o.runtime.map Object.name)) =
        some
          ([(ascii "d", ascii "2")], some (ascii "A_deployed")) := by
    decide +kernel
  rcases parse_eq_ok_iff nestedSource with ⟨hWhole, -, hUnique⟩
  cases hParse : parse nestedSource with
  | error e =>
      rw [hParse] at hRead
      cases hRead
  | ok o =>
      rw [hParse] at hRead
      rcases (hWhole o).mp hParse with
        ⟨tokens, final, tree, hEmits, hRule, hAllowed, rfl⟩
      have hParts := Prod.mk.inj (Option.some.inj hRead)
      refine ⟨tokens, final, tree, hEmits, hRule, hAllowed,
        hParts.1, hParts.2, ?_⟩
      intro tree' hRule'
      exact (hUnique tokens tokens [] [] tree' tree hRule' hRule rfl).2

end Object

end Yul

end ContractLinker
