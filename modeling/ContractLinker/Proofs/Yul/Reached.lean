import ContractLinker.Proofs.Yul.Failures

/-
  The states which a reader can reach. Each of them stands
  for a place in a sentence: the objects around it, and how
  much has been read of an object's head, of a block of code
  or of a declaration. A token takes a reader from one place
  to the next one, or it ends the object, or it is refused, or
  it completes a runtime object which is where it may not be.

  Key definitions include:
    * `Yul.CodeFront`
    * `Yul.Reached`
    * `Yul.Outcome`

  Main statements:
    * `Yul.CodeFront.outcome`
    * `Yul.Reached.outcome`
    * `Yul.Reached.exists_enclosing`
    * `Yul.Reached.viable`
-/

------------------------------------------------------------
-- Places In A Block
------------------------------------------------------------

namespace ContractLinker

namespace Yul

/- The tokens of a block of code in front of a place in it. -/
inductive CodeFront (input : Text) :
    List Token → CodeReader → Prop where
  | keyword :
      CodeFront input [] .keyword
  | brace {word : Token}
      (hWord : word.isKeyword (ascii "code") = true) :
      CodeFront input [word] .brace
  | block {word brace : Token} {body : List Token} {b : OpenBlock}
      (hWord : word.isKeyword (ascii "code") = true)
      (hBrace : brace.isOpen = true)
      (hDepth : depthAfter 0 body = some b.depth)
      (hReads :
        Reads (CodeReader.step input)
          (.block (ObjectReader.openBlock brace)) body (.block b)) :
      CodeFront input (word :: brace :: body) (.block b)

/- What a token of a block can come to. -/
inductive CodeOutcome (input : Text) (front : List Token)
    (t : Token) :
    Except ParseError (Progress CodeReader Code) → Prop where
  | more {next : CodeReader}
      (hFront : CodeFront input (front ++ [t]) next) :
      CodeOutcome input front t (.ok (.more next))
  | done {code : Code}
      (hCode : CodeRule input (front ++ [t]) code) :
      CodeOutcome input front t (.ok (.done code))
  | refused {what : Expectation} :
      CodeOutcome input front t (.error (unexpected what t))

variable {input : Text}

theorem depthAfter_append
    (depth : Nat)
    (front back : List Token) :
    depthAfter depth (front ++ back) =
      (depthAfter depth front).bind fun next =>
        depthAfter next back := by
  induction front generalizing depth with
  | nil => rfl
  | cons t front ih =>
      simp only [List.cons_append, depthAfter, Option.bind_assoc, ih]

/- A block keeps its beginning and the references in it. -/
theorem fields_of_reads
    {brace : Token}
    {body : List Token}
    {b : OpenBlock}
    (hDepth : depthAfter 0 body = some b.depth)
    (hReads :
      Reads (CodeReader.step input)
        (.block (ObjectReader.openBlock brace)) body (.block b)) :
    b.start = brace.location ∧
      b.references = TextSet.union [] (referencesOf body) := by
  have hInside :
      depthAfter (ObjectReader.openBlock brace).depth body =
        some b.depth := hDepth
  rcases CodeReader.reads_block input hInside with ⟨progress, hBlock⟩
  have hSame := CodeReader.block.inj (hReads.unique hBlock)
  rw [hSame, ← referencesFrom_eq]
  exact ⟨rfl, rfl⟩

theorem CodeFront.outcome
    {front : List Token}
    {reader : CodeReader}
    (hFront : CodeFront input front reader)
    (t : Token) :
    CodeOutcome input front t (reader.step input t) := by
  cases hFront with
  | keyword =>
      rw [CodeReader.step]
      by_cases hWord : t.isKeyword (ascii "code") = true
      · rw [if_pos hWord]
        exact .more (.brace hWord)
      · rw [if_neg hWord]
        exact .refused
  | brace hWord =>
      rw [CodeReader.step]
      by_cases hBrace : t.isOpen = true
      · rw [if_pos hBrace]
        exact .more (.block hWord hBrace rfl (.nil _))
      · rw [if_neg hBrace]
        exact .refused
  | @block word brace body b hWord hBrace hDepth hReads =>
      cases hBehind : depthBehind b.depth t with
      | none =>
          rcases depthBehind_eq_none_iff.mp hBehind with
            ⟨hClosing, hZero⟩
          rcases fields_of_reads hDepth hReads with
            ⟨hStart, hReferences⟩
          rw [hZero, ← balanced_iff_depthAfter] at hDepth
          rw [CodeReader.step_closing hClosing hZero, hStart,
            hReferences]
          exact .done (.intro hWord hBrace hDepth hClosing)
      | some depth =>
          have hDeeper : depthAfter 0 (body ++ [t]) = some depth := by
            rw [depthAfter_append, hDepth, Option.bind_some, depthAfter,
              hBehind]
            rfl
          have hStep := CodeReader.step_inside input hBehind
          rw [hStep]
          exact .more (.block hWord hBrace hDeeper
            (hReads.append (.one hStep)))

------------------------------------------------------------
-- Places In An Object
------------------------------------------------------------

/- The tokens of an object in front of a place in it. -/
inductive Reached (input : Text) :
    List Token → ObjectReader → Prop where
  | between {tokens : List Token} {opened : List Opened}
      (hOuter : Enclosing input tokens opened) :
      Reached input tokens (readerOf opened)
  | naming {tokens : List Token} {opened : List Opened}
      {word : Token}
      (hOuter : Enclosing input tokens opened)
      (hWord : word.isKeyword (ascii "object") = true) :
      Reached input (tokens ++ [word])
        (.naming (around opened) word.location)
  | opening {tokens : List Token} {opened : List Opened}
      {word name : Token}
      (hOuter : Enclosing input tokens opened)
      (hWord : word.isKeyword (ascii "object") = true)
      (hName : name.kind = .stringLiteral) :
      Reached input (tokens ++ [word, name])
        (.opening (around opened) word.location name.text)
  | coding {tokens front : List Token} {opened : List Opened}
      {word name opening : Token} {reader : CodeReader}
      (hOuter : Enclosing input tokens opened)
      (hWord : word.isKeyword (ascii "object") = true)
      (hName : name.kind = .stringLiteral)
      (hOpening : opening.isOpen = true)
      (hFront : CodeFront input front reader) :
      Reached input (tokens ++ word :: name :: opening :: front)
        (.coding (around opened) word.location name.text reader)
  | dataNaming {tokens : List Token} {opened : List Opened}
      {o : Opened} {word : Token}
      (hOuter : Enclosing input tokens (o :: opened))
      (hWord : word.isKeyword (ascii "data") = true) :
      Reached input (tokens ++ [word])
        (.dataNaming (around opened) o.draft)
  | dataContent {tokens : List Token} {opened : List Opened}
      {o : Opened} {word name : Token}
      (hOuter : Enclosing input tokens (o :: opened))
      (hWord : word.isKeyword (ascii "data") = true)
      (hName : name.kind = .stringLiteral) :
      Reached input (tokens ++ [word, name])
        (.dataContent (around opened) o.draft name.text)

/- What a token behind some tokens can come to. -/
inductive Outcome (input : Text) (tokens : List Token) (t : Token) :
    Except ParseError (Progress ObjectReader Object) → Prop where
  | more {next : ObjectReader}
      (hReached : Reached input (tokens ++ [t]) next) :
      Outcome input tokens t (.ok (.more next))
  | done {o : Object} {tree : ObjectTree}
      (hObject : ObjectRule input (tokens ++ [t]) tree) :
      Outcome input tokens t (.ok (.done o))
  | refused {what : Expectation} :
      Outcome input tokens t (.error (unexpected what t))
  | misplaced {word : Token} {e : ParseError}
      (hRuntime : Misplaced input (tokens ++ [t]) word)
      (hPlace : e.location = word.location) :
      Outcome input tokens t (.error e)

namespace ObjectReader

variable {opened : List Opened} {tokens : List Token} {t : Token}

/- A parent which accepts an object has one more item. -/
theorem close_accepted
    {o parent : Opened}
    (hAccepts :
      Accepts (around opened) parent.tree.toObject
        o.tree.toObject.name) :
    close (around (parent :: opened)) o.draft =
      .ok (.more
        (readerOf (parent.addItem (.object o.tree) :: opened))) := by
  have hFree :
      o.tree.toObject.name = runtimeName parent.tree.toObject.name →
        parent.tree.toObject.runtime = none :=
    fun hName => (hAccepts hName).2
  rw [readerOf, Opened.draft, Opened.draft,
    Opened.toObject_addItem_object hFree]
  exact @close_inside (around opened) parent.draft o.draft hAccepts

/- The object which a brace closes is put into its parent. -/
theorem outcome_attach
    {inner : List Token}
    {o parent : Opened}
    (hOuter : Enclosing input tokens (parent :: opened))
    (hOpen : OpenRule input inner o)
    (hClosing : t.isClose = true) :
    Outcome input (tokens ++ inner) t
      (close (around (parent :: opened)) o.draft) := by
  have hObject := hOpen.close hClosing
  by_cases hAccepts :
      Accepts (around opened) parent.tree.toObject
        o.tree.toObject.name
  · have hNext := hOuter.addItem (.object hObject)
    rw [← List.append_assoc] at hNext
    rw [close_accepted hAccepts]
    exact .more (.between hNext)
  · rcases @close_misplaced (around opened) parent.draft o.draft
        hAccepts with
      ⟨e, -, hPlace, hClose⟩
    rw [ObjectTree.name_toObject, accepts_around_iff,
      Classical.not_imp, Classical.not_not] at hAccepts
    rcases hAccepts with ⟨hName, hTaken⟩
    rcases hOpen.exists_word with ⟨rest, rfl⟩
    have hMisplaced := Misplaced.intro hOuter hObject hName hTaken
    have hEnd :
        Misplaced input (tokens ++ o.word :: rest ++ [t]) o.word := by
      rw [List.append_assoc]
      exact hMisplaced
    exact hClose ▸ .misplaced hEnd hPlace

theorem outcome_close
    {o : Opened}
    (hOuter : Enclosing input tokens (o :: opened))
    (hClosing : t.isClose = true) :
    Outcome input tokens t (close (around opened) o.draft) := by
  cases hOuter with
  | cons hOuter hOpen =>
      cases opened with
      | nil =>
          cases hOuter
          exact .done (hOpen.close hClosing)
      | cons parent opened =>
          exact outcome_attach hOuter hOpen hClosing

theorem outcome_items
    {o : Opened}
    (hOuter : Enclosing input tokens (o :: opened))
    (t : Token) :
    Outcome input tokens t
      (step input (readerOf (o :: opened)) t) := by
  by_cases hClosing : t.isClose = true
  · rw [readerOf, step_items_close input hClosing]
    exact outcome_close hOuter hClosing
  by_cases hObject : t.isKeyword (ascii "object") = true
  · rw [step_readerOf hObject]
    exact .more (.naming hOuter hObject)
  by_cases hData : t.isKeyword (ascii "data") = true
  · rw [readerOf, step_items_data hData]
    exact .more (.dataNaming hOuter hData)
  · rw [readerOf, step, if_neg hClosing, if_neg hObject, if_neg hData]
    exact .refused

/- The first token has to be the keyword. -/
theorem outcome_keyword
    (hOuter : Enclosing input tokens [])
    (t : Token) :
    Outcome input tokens t (step input (readerOf []) t) := by
  by_cases hWord : t.isKeyword (ascii "object") = true
  · rw [step_readerOf hWord]
    exact .more (.naming hOuter hWord)
  · rw [readerOf, step, if_neg hWord]
    exact .refused

theorem outcome_coding
    {front : List Token}
    {word name opening : Token}
    {reader : CodeReader}
    (hOuter : Enclosing input tokens opened)
    (hWord : word.isKeyword (ascii "object") = true)
    (hName : name.kind = .stringLiteral)
    (hOpening : opening.isOpen = true)
    (hFront : CodeFront input front reader)
    (t : Token) :
    Outcome input (tokens ++ word :: name :: opening :: front) t
      (step input
        (.coding (around opened) word.location name.text reader) t) := by
  have hInner := hFront.outcome t
  rw [step]
  generalize reader.step input t = outcome at hInner
  cases hInner with
  | more hNext =>
      have hReached :=
        Reached.coding hOuter hWord hName hOpening hNext
      refine .more ?_
      rw [List.append_assoc]
      exact hReached
  | @done code hCode =>
      have hEnclosing := hOuter.openObject hWord hName hOpening hCode
      have hDraft :
          draftOf word.location name.text code =
            Opened.draft ⟨word, ⟨name.text, code, []⟩⟩ := by
        rw [Opened.draft, ← Object.extend_ofCode, Object.extend_nil]
        rfl
      dsimp only
      rw [hDraft]
      refine .more ?_
      rw [List.append_assoc]
      exact .between hEnclosing
  | refused =>
      exact .refused

theorem outcome_data
    {o : Opened}
    {word name : Token}
    (hOuter : Enclosing input tokens (o :: opened))
    (hWord : word.isKeyword (ascii "data") = true)
    (hName : name.kind = .stringLiteral)
    (t : Token) :
    Outcome input (tokens ++ [word, name]) t
      (step input
        (.dataContent (around opened) o.draft name.text) t) := by
  simp only [step, Bool.or_eq_true, decide_eq_true_eq]
  by_cases hContent :
      t.kind = .hexLiteral ∨ t.kind = .stringLiteral
  · have hNext := hOuter.addItem (.data hWord hName hContent)
    have hDraft :
        declare o.draft name.text t.text =
          (o.addItem (.data name.text t.text)).draft := by
      rw [Opened.draft, Opened.draft, Opened.toObject_addItem_data]
      rfl
    rw [if_pos hContent, hDraft]
    refine .more ?_
    rw [List.append_assoc]
    exact .between hNext
  · rw [if_neg hContent]
    exact .refused

end ObjectReader

/- A token behind some tokens has one of four outcomes. -/
theorem Reached.outcome
    {tokens : List Token}
    {reader : ObjectReader}
    (hReached : Reached input tokens reader)
    (t : Token) :
    Outcome input tokens t (reader.step input t) := by
  cases hReached with
  | @between _ opened hOuter =>
      cases opened with
      | nil => exact ObjectReader.outcome_keyword hOuter t
      | cons o opened => exact ObjectReader.outcome_items hOuter t
  | naming hOuter hWord =>
      rw [ObjectReader.step]
      by_cases hName : t.kind = .stringLiteral
      · have hNext := Reached.opening hOuter hWord hName
        rw [if_pos hName]
        refine .more ?_
        rw [List.append_assoc]
        exact hNext
      · rw [if_neg hName]
        exact .refused
  | opening hOuter hWord hName =>
      rw [ObjectReader.step]
      by_cases hOpening : t.isOpen = true
      · have hNext :=
          Reached.coding hOuter hWord hName hOpening .keyword
        rw [if_pos hOpening]
        refine .more ?_
        rw [List.append_assoc]
        exact hNext
      · rw [if_neg hOpening]
        exact .refused
  | coding hOuter hWord hName hOpening hFront =>
      exact ObjectReader.outcome_coding hOuter hWord hName hOpening
        hFront t
  | dataNaming hOuter hWord =>
      rw [ObjectReader.step]
      by_cases hName : t.kind = .stringLiteral
      · have hNext := Reached.dataContent hOuter hWord hName
        rw [if_pos hName]
        refine .more ?_
        rw [List.append_assoc]
        exact hNext
      · rw [if_neg hName]
        exact .refused
  | dataContent hOuter hWord hName =>
      exact ObjectReader.outcome_data hOuter hWord hName t

------------------------------------------------------------
-- Going On From A Place
------------------------------------------------------------

/- Words, names and braces of no input. -/
def sampleWord (text : Text) : Token :=
  sample .identifier text

def sampleName : Token :=
  sample .stringLiteral []

def sampleOpen : Token :=
  sample .symbol ['{'.toUInt8]

/- What stands behind the keyword of an object without items. -/
def sampleCode : List Token :=
  [sampleWord (ascii "code"), sampleOpen, sampleClose]

theorem inside_sampleCode :
    Inside sampleCode := by
  simp [sampleCode, sampleWord, sampleOpen, sample]

theorem exists_codeRule_sampleCode
    (input : Text) :
    ∃ code, CodeRule input sampleCode code := by
  have hEmpty : Balanced [] := balanced_iff_depthAfter.mpr rfl
  exact ⟨_, .intro rfl rfl hEmpty rfl⟩

theorem depthAfter_closes
    (depth : Nat) :
    depthAfter depth (List.replicate depth sampleClose) = some 0 := by
  induction depth with
  | zero => rfl
  | succ depth ih =>
      simp [List.replicate_succ, depthAfter, depthBehind, ih]

/- From every place in it a block can be closed. -/
theorem CodeFront.exists_code
    {front : List Token}
    {reader : CodeReader}
    (hFront : CodeFront input front reader) :
    ∃ back code, Inside back ∧ CodeRule input (front ++ back) code := by
  cases hFront with
  | keyword =>
      rcases exists_codeRule_sampleCode input with ⟨code, hCode⟩
      exact ⟨sampleCode, code, inside_sampleCode, hCode⟩
  | brace hWord =>
      have hEmpty : Balanced [] := balanced_iff_depthAfter.mpr rfl
      refine ⟨[sampleOpen, sampleClose], _, ?_,
        .intro hWord rfl hEmpty rfl⟩
      simp [sampleOpen, sample]
  | @block word brace body b hWord hBrace hDepth _ =>
      have hBalanced :
          Balanced (body ++ List.replicate b.depth sampleClose) := by
        rw [balanced_iff_depthAfter, depthAfter_append, hDepth]
        exact depthAfter_closes b.depth
      have hCloses : Inside (List.replicate b.depth sampleClose) := by
        intro t hMember
        rw [List.eq_of_mem_replicate hMember]
        simp
      have hCode :=
        @CodeRule.intro input _ _ _ _ hWord hBrace hBalanced
          isClose_sampleClose
      rw [List.append_assoc] at hCode
      exact ⟨_, _, hCloses.append (by simp), hCode⟩

/- From every place some objects are open which are not closed. -/
theorem Reached.exists_enclosing
    {tokens : List Token}
    {reader : ObjectReader}
    (hReached : Reached input tokens reader) :
    ∃ more o opened, Inside more ∧
      Enclosing input (tokens ++ more) (o :: opened) := by
  rcases exists_codeRule_sampleCode input with ⟨code, hCode⟩
  have hInside := inside_sampleCode
  cases hReached with
  | @between _ opened hOuter =>
      cases opened with
      | nil =>
          have hHead :=
            @Enclosing.openObject input tokens _ _
              (sampleWord (ascii "object")) sampleName sampleOpen _
              hOuter rfl rfl rfl hCode
          refine ⟨_, _, _, ?_, hHead⟩
          simpa [sampleWord, sampleName, sampleOpen, sample]
            using hInside
      | cons o opened =>
          refine ⟨[], o, opened, inside_nil, ?_⟩
          rw [List.append_nil]
          exact hOuter
  | @naming tokens _ word hOuter hWord =>
      have hHead :
          Enclosing input
            (tokens ++ ([word] ++ sampleName :: sampleOpen :: sampleCode))
            _ :=
        hOuter.openObject hWord rfl rfl hCode
      rw [← List.append_assoc] at hHead
      refine ⟨_, _, _, ?_, hHead⟩
      simpa [sampleName, sampleOpen, sample] using hInside
  | @opening tokens _ word name hOuter hWord hName =>
      have hHead :
          Enclosing input
            (tokens ++ ([word, name] ++ sampleOpen :: sampleCode)) _ :=
        hOuter.openObject hWord hName rfl hCode
      rw [← List.append_assoc] at hHead
      refine ⟨_, _, _, ?_, hHead⟩
      simpa [sampleOpen, sample] using hInside
  | @coding tokens front _ word name opening _ hOuter hWord hName
      hOpening hFront =>
      rcases hFront.exists_code with ⟨back, code, hBack, hBlock⟩
      have hHead :
          Enclosing input
            (tokens ++ (word :: name :: opening :: front ++ back)) _ :=
        hOuter.openObject hWord hName hOpening hBlock
      rw [← List.append_assoc] at hHead
      exact ⟨_, _, _, hBack, hHead⟩
  | @dataNaming tokens _ _ word hOuter hWord =>
      have hItem :
          Enclosing input
            (tokens ++ ([word] ++ [sampleName, sampleName])) _ :=
        hOuter.addItem (.data hWord rfl (.inr rfl))
      rw [← List.append_assoc] at hItem
      refine ⟨_, _, _, ?_, hItem⟩
      simp [sampleName, sample]
  | @dataContent tokens _ _ word name hOuter hWord hName =>
      have hItem :
          Enclosing input (tokens ++ ([word, name] ++ [sampleName])) _ :=
        hOuter.addItem (.data hWord hName (.inr rfl))
      rw [← List.append_assoc] at hItem
      refine ⟨_, _, _, ?_, hItem⟩
      simp [sampleName, sample]

/- A sentence begins with the tokens in front of a place. -/
theorem Reached.viable
    {tokens : List Token}
    {reader : ObjectReader}
    (hReached : Reached input tokens reader)
    (hInside : Inside tokens) :
    Viable input tokens := by
  rcases hReached.exists_enclosing with
    ⟨more, o, opened, hMore, hEnclosing⟩
  exact (hEnclosing.viable (hInside.append hMore)).of_append

end Yul

end ContractLinker
