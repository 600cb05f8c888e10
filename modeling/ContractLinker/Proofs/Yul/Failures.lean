import ContractLinker.Proofs.Yul.Contexts

/-
  Where reading fails although a sentence goes on. The tokens
  of objects which are not closed are read to the state which
  waits for the next item, unless a runtime object among them
  is where it may not be; there the reader reports an error,
  and it is of no other kind.

  Key definitions include:
    * `Yul.Fails`
    * `Yul.Fault.isMisplacement`
    * `Yul.readerOf`

  Main statements:
    * `Yul.ObjectReader.fails_object`
    * `Yul.ObjectReader.reads_enclosing`
    * `Yul.ObjectReader.fails_misplaced`
    * `Yul.ObjectReader.not_viable_of_refused`
-/

------------------------------------------------------------
-- Readers Which Fail
------------------------------------------------------------

namespace ContractLinker

namespace Yul

section Readers

variable {σ α : Type}
variable {step : σ → Token → Except ParseError (Progress σ α)}
variable {refuse : σ → Token → ParseError}
variable {ending : Except ParseError Token}

/- Tokens at one of which a reader reports an error. -/
inductive Fails
    (step : σ → Token → Except ParseError (Progress σ α)) :
    σ → List Token → ParseError → Prop where
  | here {state : σ} {t : Token} {rest : List Token} {e : ParseError}
      (hStep : step state t = .error e) :
      Fails step state (t :: rest) e
  | later {state next : σ} {t : Token} {rest : List Token}
      {e : ParseError}
      (hStep : step state t = .ok (.more next))
      (hRest : Fails step next rest e) :
      Fails step state (t :: rest) e

theorem Reads.fails
    {first last : σ}
    {front back : List Token}
    {e : ParseError}
    (hReads : Reads step first front last)
    (hFails : Fails step last back e) :
    Fails step first (front ++ back) e := by
  induction hReads with
  | nil state => exact hFails
  | cons hStep _ ih => exact .later hStep (ih hFails)

theorem Fails.append
    {state : σ}
    {front : List Token}
    {e : ParseError}
    (hFails : Fails step state front e)
    (back : List Token) :
    Fails step state (front ++ back) e := by
  induction hFails with
  | here hStep => exact .here hStep
  | later hStep _ ih => exact .later hStep ih

theorem Fails.feed_eq
    {state : σ}
    {tokens : List Token}
    {e : ParseError}
    (hFails : Fails step state tokens e) :
    feed step refuse ending state tokens = .error e := by
  induction hFails with
  | here hStep =>
      rw [feed_cons, hStep]
      rfl
  | later hStep _ ih =>
      rw [feed_cons, hStep]
      exact ih

/- A reader does one thing with its tokens. -/
theorem Reads.not_fails
    {first last : σ}
    {front back : List Token}
    {e : ParseError}
    (hReads : Reads step first (front ++ back) last) :
    ¬ Fails step first front e := by
  intro hFails
  have hWhole := hFails.append back
  clear hFails
  generalize front ++ back = tokens at hReads hWhole
  induction hReads with
  | nil state =>
      cases hWhole
  | cons hStep _ ih =>
      cases hWhole with
      | here hError =>
          rw [hStep] at hError
          cases hError
      | later hNext hRest =>
          rw [hStep] at hNext
          cases hNext
          exact ih hRest

theorem Fails.unique
    {state : σ}
    {tokens : List Token}
    {e e' : ParseError}
    (hFails : Fails step state tokens e)
    (hFails' : Fails step state tokens e') :
    e = e' := by
  have hFeed :
      feed step (fun _ _ => e) (.error e) state tokens = .error e :=
    hFails.feed_eq
  rw [hFails'.feed_eq] at hFeed
  exact (Except.error.inj hFeed).symm

theorem Reads.unique
    {first last last' : σ}
    {tokens : List Token}
    (hReads : Reads step first tokens last)
    (hReads' : Reads step first tokens last') :
    last = last' := by
  induction hReads with
  | nil state =>
      cases hReads'
      rfl
  | cons hStep _ ih =>
      cases hReads' with
      | cons hNext hRest =>
          rw [hStep] at hNext
          cases hNext
          exact ih hRest

end Readers

------------------------------------------------------------
-- Runtime Objects Where They May Not Be
------------------------------------------------------------

/- The faults of a runtime object which is where it may not be. -/
def Fault.isMisplacement : Fault → Bool
  | .runtimeOfRuntime _ => true
  | .duplicateRuntime _ => true
  | _ => false

/- Tokens at one of which a runtime object is where it may not be. -/
def FailsMisplaced (input : Text) (reader : ObjectReader)
    (tokens : List Token) : Prop :=
  ∃ e, e.fault.isMisplacement = true ∧
    Fails (ObjectReader.step input) reader tokens e

variable {input : Text}

theorem FailsMisplaced.after
    {first last : ObjectReader}
    {front back : List Token}
    (hFails : FailsMisplaced input last back)
    (hReads : Reads (ObjectReader.step input) first front last) :
    FailsMisplaced input first (front ++ back) := by
  rcases hFails with ⟨e, hFault, hFails⟩
  exact ⟨e, hFault, hReads.fails hFails⟩

theorem FailsMisplaced.append
    {reader : ObjectReader}
    {front : List Token}
    (hFails : FailsMisplaced input reader front)
    (back : List Token) :
    FailsMisplaced input reader (front ++ back) := by
  rcases hFails with ⟨e, hFault, hFails⟩
  exact ⟨e, hFault, hFails.append back⟩

namespace ObjectReader

variable {outer : Surroundings}

/- A finished object which is not accepted is reported. -/
theorem close_misplaced
    {parent child : Draft}
    (hRefused :
      ¬ Accepts outer parent.object child.object.name) :
    ∃ e, e.fault.isMisplacement = true ∧
      e.location = child.start ∧
      close { outer with drafts := parent :: outer.drafts } child =
        .error e := by
  unfold Accepts at hRefused
  rw [Classical.not_imp] at hRefused
  rcases hRefused with ⟨hName, hTaken⟩
  unfold close attach
  dsimp only
  rw [if_pos hName]
  cases hHere : outer.isRuntime parent.object.name with
  | true =>
      exact ⟨_, rfl, rfl, rfl⟩
  | false =>
      cases hRuntime : parent.object.runtime with
      | none => exact absurd ⟨hHere, hRuntime⟩ hTaken
      | some r => exact ⟨_, rfl, rfl, rfl⟩

/-
  A child which is not allowed, or not accepted by its parent;
  that the former fails is known of smaller trees.
-/
theorem fails_child
    {draft : Draft}
    {tree : ObjectTree}
    {word : Token}
    {tokens : List Token}
    (hObject : ObjectRule input (word :: tokens) tree)
    (hInner :
      ¬ tree.Allowed (some draft.object.name) →
        FailsMisplaced input
          (.naming { outer with drafts := draft :: outer.drafts }
            word.location)
          tokens)
    (hRefused :
      ¬ (tree.Allowed (some draft.object.name) ∧
        Accepts outer draft.object tree.name)) :
    FailsMisplaced input (.items outer draft) (word :: tokens) := by
  have hWord : word.isKeyword (ascii "object") = true := by
    cases hObject
    assumption
  have hFirst := @step_items_object outer input draft word hWord
  by_cases hAllowed : tree.Allowed (some draft.object.name)
  · have hTaken : ¬ Accepts outer draft.object tree.toObject.name := by
      rw [ObjectTree.name_toObject]
      exact fun hAccepts => hRefused ⟨hAllowed, hAccepts⟩
    rcases reads_object tree
        { outer with drafts := draft :: outer.drafts }
        word.location hObject hAllowed with
      ⟨front, closing, rfl, hClosing, hReads⟩
    rcases @close_misplaced outer draft ⟨word.location, tree.toObject⟩
        hTaken with
      ⟨e, hFault, -, hClose⟩
    rw [← step_items_close input hClosing] at hClose
    exact ⟨e, hFault, .later hFirst (hReads.fails (.here hClose))⟩
  · exact (hInner hAllowed).after (.one hFirst)

mutual

/- An object with a runtime object where it may not be. -/
theorem fails_object :
    ∀ (tree : ObjectTree) (outer : Surroundings)
      {tokens : List Token} {word : Token} (start : Location),
      ObjectRule input (word :: tokens) tree →
      ¬ tree.Allowed outer.parentName →
        FailsMisplaced input (.naming outer start) tokens
  | ⟨_, code, parts⟩, outer, _, _, start, hObject, hAllowed => by
      cases hObject with
      | @intro _ name opening closing codeTokens itemTokens _ _
          _ hName hOpening hCode hItems hClosing =>
          have hFollow :
              ¬ ItemsAllowed outer (.ofCode name.text code) parts :=
            fun hFollow => hAllowed (itemsAllowed_ofCode.mp hFollow)
          have hRest :=
            fails_items parts ⟨start, .ofCode name.text code⟩
              hItems hFollow
          have hWhole :=
            (hRest.append [closing]).after
              (reads_front hName hOpening hCode start)
          exact hWhole
termination_by structural tree => tree

/- Items among which one is, or which bring one too many. -/
theorem fails_items :
    ∀ (parts : List ItemTree) {outer : Surroundings}
      {tokens : List Token} (draft : Draft),
      ItemsRule input tokens parts →
      ¬ ItemsAllowed outer draft.object parts →
        FailsMisplaced input (.items outer draft) tokens
  | [], _, _, _, _, hAllowed =>
      absurd itemsAllowed_nil hAllowed
  | .object tree :: parts, outer, _, draft, hItems, hAllowed => by
      cases hItems with
      | cons hItem hItems =>
      cases hItem with
      | object hObject =>
      rcases hObject.exists_word with ⟨word, others, rfl, hWord⟩
      rw [itemsAllowed_object, ← and_assoc] at hAllowed
      by_cases hChild :
          tree.Allowed (some draft.object.name) ∧
            Accepts outer draft.object tree.name
      · have hFollow := fun hFollow => hAllowed ⟨hChild, hFollow⟩
        have hRest :=
          fails_items parts
            { draft with object := draft.object.add tree.toObject }
            hItems hFollow
        rcases reads_object tree
            { outer with drafts := draft :: outer.drafts }
            word.location hObject hChild.1 with
          ⟨front, closing, rfl, hClosing, hReads⟩
        have hAccepts := hChild.2
        rw [← ObjectTree.name_toObject] at hAccepts
        exact hRest.after (reads_child hWord hReads hClosing hAccepts)
      · have hInner :=
          fails_object tree
            { outer with drafts := draft :: outer.drafts }
            word.location hObject
        exact (fails_child hObject hInner hChild).append _
  | .data _ _ :: parts, outer, _, draft, hItems, hAllowed => by
      cases hItems with
      | cons hItem hItems =>
      cases hItem with
      | @data word name content hWord hName hContent =>
          have hFollow := mt itemsAllowed_data.mpr hAllowed
          have hRest :=
            fails_items parts
              { draft with
                object := draft.object.declare name.text content.text }
              hItems hFollow
          exact hRest.after
            (.cons (step_items_data hWord)
              (reads_data hName hContent draft))
termination_by structural parts => parts

end

end ObjectReader

------------------------------------------------------------
-- Objects Which Are Not Closed
------------------------------------------------------------

/- What a reader has of an object which is not closed. -/
def Opened.draft (o : Opened) : Draft where
  start := o.word.location
  object := o.tree.toObject

/- The surroundings in an input of its own. -/
def around (opened : List Opened) : Surroundings where
  parent := none
  drafts := opened.map Opened.draft

/- The reader behind the tokens of objects which are not closed. -/
def readerOf : List Opened → ObjectReader
  | [] => .keyword (around [])
  | o :: opened => .items (around opened) o.draft

namespace ObjectReader

variable {opened : List Opened}

/- An object may begin there. -/
theorem step_readerOf
    {word : Token}
    (hWord : word.isKeyword (ascii "object") = true) :
    step input (readerOf opened) word =
      .ok (.more (.naming (around opened) word.location)) := by
  cases opened with
  | nil => simp [readerOf, step, hWord]
  | cons o opened => exact step_items_object hWord

theorem reads_open
    {tokens : List Token}
    {o : Opened}
    (hOpen : OpenRule input tokens o) :
    Reads (step input) (readerOf opened) tokens
        (readerOf (o :: opened)) ∨
      FailsMisplaced input (readerOf opened) tokens := by
  cases hOpen with
  | @intro word name opening codeTokens itemTokens code items
      hWord hName hOpening hCode hItems =>
      have hFront :=
        Reads.cons (@step_readerOf input opened word hWord)
          (reads_front hName hOpening hCode word.location)
      by_cases hAllowed :
          ItemsAllowed (around opened) (.ofCode name.text code) items
      · have hRest :=
          reads_items items ⟨word.location, .ofCode name.text code⟩
            hItems hAllowed
        dsimp only at hRest
        rw [Object.extend_ofCode] at hRest
        exact Or.inl (hFront.append hRest)
      · have hRest :=
          fails_items items ⟨word.location, .ofCode name.text code⟩
            hItems hAllowed
        exact Or.inr (hRest.after hFront)

theorem reads_enclosing
    {tokens : List Token}
    (hEnclosing : Enclosing input tokens opened) :
    Reads (step input) (readerOf []) tokens (readerOf opened) ∨
      FailsMisplaced input (readerOf []) tokens := by
  induction hEnclosing with
  | nil =>
      exact Or.inl (.nil _)
  | cons _ hOpen ih =>
      rcases ih with hReads | hFails
      · rcases reads_open hOpen with hInner | hFails
        · exact Or.inl (hReads.append hInner)
        · exact Or.inr (hFails.after hReads)
      · exact Or.inr (hFails.append _)

/- When an object which is not closed accepts one more. -/
theorem accepts_around_iff
    {o : Opened}
    {name : Text} :
    Accepts (around opened) o.tree.toObject name ↔
      (name = runtimeName o.tree.name →
        ¬ (childrenNamed (runtimeName o.tree.name) o.tree.items ≠ [] ∨
          ∃ parent ∈ opened.head?,
            o.tree.name = runtimeName parent.tree.name)) := by
  have hHere :
      (around opened).isRuntime o.tree.name = true ↔
        ∃ parent ∈ opened.head?,
          o.tree.name = runtimeName parent.tree.name := by
    cases opened with
    | nil =>
        simp [around, Surroundings.isRuntime, Surroundings.parentName]
    | cons parent opened =>
        simp [around, Surroundings.isRuntime, Surroundings.parentName,
          Opened.draft, ObjectTree.name_toObject, eq_comm]
  unfold Accepts
  rw [ObjectTree.name_toObject, ObjectTree.runtime_toObject,
    Option.map_eq_none_iff, List.head?_eq_none_iff, ← hHere]
  simp [and_comm]

/- Where a runtime object is misplaced, reading has failed. -/
theorem fails_misplaced
    {tokens : List Token}
    {word : Token}
    (hMisplaced : Misplaced input tokens word) :
    FailsMisplaced input (readerOf []) tokens := by
  cases hMisplaced with
  | @intro _ _ opened o _ child hOuter hObject hName hTaken =>
      rcases hObject.exists_open with
        ⟨front, closing, hTokens, hClosing, hOpen⟩
      rw [hTokens, ← List.append_assoc]
      rcases reads_enclosing (.cons hOuter hOpen) with hReads | hFails
      · have hRefused :
            ¬ Accepts (around opened) o.draft.object
              child.toObject.name := by
          rw [ObjectTree.name_toObject]
          exact fun hAccepts =>
            accepts_around_iff.mp hAccepts hName hTaken
        rcases @close_misplaced (around opened) o.draft
            ⟨word.location, child.toObject⟩ hRefused with
          ⟨e, hFault, -, hClose⟩
        rw [← step_items_close input hClosing] at hClose
        exact ⟨e, hFault, hReads.fails (.here hClose)⟩
      · exact hFails.append _

------------------------------------------------------------
-- Sentences
------------------------------------------------------------

variable {ending : Except ParseError Token}

/- An object is read, or a runtime object in it is misplaced. -/
theorem run_or_fails
    {tokens : List Token}
    {tree : ObjectTree}
    (hObject : ObjectRule input tokens tree) :
    (∀ ending back, ∃ result,
      run input ending (readerOf []) (tokens ++ back) = .ok result) ∨
    FailsMisplaced input (readerOf []) tokens := by
  by_cases hAllowed : tree.Allowed none
  · left
    intro ending back
    refine ⟨(tree.toObject, ⟨back, ending⟩), ?_⟩
    exact run_keyword_eq_ok_iff.mpr
      ⟨tokens, tree, rfl, rfl, hObject, hAllowed, rfl⟩
  · right
    rcases hObject.exists_word with ⟨word, others, rfl, hWord⟩
    have hInner :=
      fails_object tree (around []) word.location hObject hAllowed
    exact hInner.after (.one (step_readerOf hWord))

/- No sentence goes on with a token which a reader refuses. -/
theorem not_viable_of_refused
    {front : List Token}
    {t : Token}
    {reader : ObjectReader}
    {e : ParseError}
    (hReads : Reads (step input) (readerOf []) front reader)
    (hStep : step input reader t = .error e)
    (hFault : e.fault.isMisplacement = false)
    (hKind : t.kind ≠ .endOfFile) :
    ¬ Viable input (front ++ [t]) := by
  rintro ⟨rest, hSentence⟩
  rw [List.append_assoc] at hSentence
  rcases hSentence.object_cases with
    ⟨-, back, tree, hObject⟩ | ⟨hEnd, -⟩
  · have hFails :
        Fails (step input) (readerOf []) (front ++ t :: back) e :=
      hReads.fails (.here hStep)
    rcases run_or_fails hObject with hRun | ⟨e', hFault', hFails'⟩
    · rcases hRun (.error e) [] with ⟨result, hResult⟩
      rw [List.append_nil, run, hFails.feed_eq] at hResult
      cases hResult
    · rw [hFails.unique hFails', hFault'] at hFault
      cases hFault
  · exact hKind hEnd

/- None ends before a reader is done. -/
theorem not_viable_of_reads
    {tokens : List Token}
    {t : Token}
    {reader : ObjectReader}
    (hReads : Reads (step input) (readerOf []) tokens reader)
    (hKind : t.kind = .endOfFile) :
    ¬ Viable input (tokens ++ [t]) := by
  rintro ⟨rest, hSentence⟩
  rw [List.append_assoc] at hSentence
  rcases hSentence.object_cases with
    ⟨hInside, -⟩ | ⟨-, tree, hObject⟩
  · exact hInside hKind
  · rcases run_or_fails hObject with hRun | ⟨e, -, hFails⟩
    · rcases hRun (.ok t) [] with ⟨result, hResult⟩
      rw [run_append hReads] at hResult
      exact feed_nil_ne_ok _ _ hResult
    · rw [← List.append_nil tokens] at hReads
      exact hReads.not_fails hFails

/- Nothing is misplaced among tokens which are read. -/
theorem not_misplaced_of_reads
    {tokens front : List Token}
    {word : Token}
    {reader : ObjectReader}
    (hReads : Reads (step input) (readerOf []) tokens reader)
    (hFront : front <+: tokens) :
    ¬ Misplaced input front word := by
  intro hMisplaced
  rcases hFront with ⟨back, rfl⟩
  rcases fails_misplaced hMisplaced with ⟨e, -, hFails⟩
  exact hReads.not_fails hFails

end ObjectReader

end Yul

end ContractLinker
