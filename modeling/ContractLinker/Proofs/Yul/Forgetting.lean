import ContractLinker.Proofs.Yul.Parsing
import ContractLinker.Proofs.Yul.Spelling

/-
  Reading does not depend on places. A token keeps its kind
  and its text when its place is forgotten, an object keeps
  everything but the texts of its code; a reader which takes
  such tokens goes the same way, so that two inputs with the
  same tokens but for their places are both accepted or both
  rejected.

  Key definitions include:
    * `Yul.Object.bare`
    * `Yul.ObjectReader.bare`
    * `Yul.TokenStream.bare`

  Main statements:
    * `Yul.Object.factoryDependencies_bare`
    * `Yul.feed_bare`
    * `Yul.ObjectReader.step_bare`
    * `Yul.Object.parse_bare`
-/

------------------------------------------------------------
-- What Is Forgotten
------------------------------------------------------------

namespace ContractLinker

namespace Yul

/- A block of code without its text. -/
def Code.bare (code : Code) : Code :=
  { code with text := [] }

mutual

/- An object without the texts of the code in it. -/
def Object.bare : Object → Object
  | ⟨name, code, data, runtime, subObjects⟩ =>
      { name := name
        code := code.bare
        data := data
        runtime := bareRuntime runtime
        subObjects := bareObjects subObjects }
termination_by structural o => o

def bareRuntime : Option Object → Option Object
  | none => none
  | some o => some o.bare
termination_by structural o => o

def bareObjects : List Object → List Object
  | [] => []
  | o :: rest => o.bare :: bareObjects rest
termination_by structural os => os

end

/- An error without its place. -/
def ParseError.bare (e : ParseError) : ParseError :=
  { e with location := .start }

/- An outcome without the place of its error. -/
def forget {α : Type} (g : α → α) :
    Except ParseError α → Except ParseError α
  | .error e => .error e.bare
  | .ok a => .ok (g a)

/- A stream of tokens without their places. -/
def TokenStream.bare (stream : TokenStream) : TokenStream where
  tokens := stream.tokens.map Token.bare
  ending := forget Token.bare stream.ending

/- Progress with a change of what there is to read and of results. -/
def Progress.map {σ α : Type} (f : σ → σ) (g : α → α) :
    Progress σ α → Progress σ α
  | .more state => .more (f state)
  | .done result => .done (g result)

namespace Object

theorem bareRuntime_eq_map
    (runtime : Option Object) :
    bareRuntime runtime = runtime.map bare := by
  cases runtime <;> rfl

theorem bareObjects_eq_map
    (os : List Object) :
    bareObjects os = os.map bare := by
  induction os with
  | nil => rfl
  | cons o rest ih => rw [bareObjects, ih, List.map_cons]

/- An object without texts, field by field. -/
theorem bare_eq
    (o : Object) :
    o.bare =
      { name := o.name
        code := o.code.bare
        data := o.data
        runtime := o.runtime.map bare
        subObjects := o.subObjects.map bare } := by
  cases o
  rw [bare, bareRuntime_eq_map, bareObjects_eq_map]

mutual

/- The texts of code do not matter to the dependencies. -/
theorem factoryDependencies_bare :
    ∀ o : Object, o.bare.factoryDependencies = o.factoryDependencies
  | ⟨name, code, data, runtime, subObjects⟩ => by
      have hNames :
          (bareRuntime runtime).map Object.name =
            runtime.map Object.name := by
        cases runtime <;> simp [bareRuntime, bare_eq]
      have hRuntime := runtimeDependencies_bare runtime
      simp only [bare, factoryDependencies, hNames, hRuntime]
      rfl
termination_by structural o => o

theorem runtimeDependencies_bare :
    ∀ runtime : Option Object,
      runtimeDependencies (bareRuntime runtime) =
        runtimeDependencies runtime
  | none => rfl
  | some o => factoryDependencies_bare o
termination_by structural runtime => runtime

end

end Object

------------------------------------------------------------
-- Readers
------------------------------------------------------------

section Readers

variable {σ α : Type}
variable {step step' : σ → Token → Except ParseError (Progress σ α)}
variable {refuse : σ → Token → ParseError}
variable {f : σ → σ} {g : α → α}

/- If every step commutes with forgetting, reading does. -/
theorem feed_bare
    (hStep : ∀ state t,
      forget (.map f g) (step state t) = step' (f state) t.bare)
    (hRefuse : ∀ state t,
      (refuse state t).bare = refuse (f state) t.bare)
    (ending : Except ParseError Token)
    (state : σ)
    (tokens : List Token) :
    forget (fun r => (g r.1, r.2.bare))
        (feed step refuse ending state tokens) =
      feed step' refuse (forget Token.bare ending) (f state)
        (tokens.map Token.bare) := by
  induction tokens generalizing state with
  | nil =>
      cases ending with
      | error e => rfl
      | ok final =>
          simp only [feed, List.map_nil, forget, hRefuse]
  | cons t rest ih =>
      rw [List.map_cons, feed_cons, feed_cons, ← hStep]
      cases step state t with
      | error e => rfl
      | ok progress =>
          cases progress with
          | more next => exact ih next
          | done result => rfl

end Readers

/- A reader of code, without places. -/
def OpenBlock.bare (b : OpenBlock) : OpenBlock :=
  { b with start := .start }

namespace CodeReader

def bare : CodeReader → CodeReader
  | .keyword => .keyword
  | .brace => .brace
  | .block b => .block b.bare

theorem refuse_bare
    (reader : CodeReader)
    (t : Token) :
    (reader.refuse t).bare = reader.bare.refuse t.bare := by
  cases reader <;> rfl

theorem plainStep_bare
    (input : Text)
    (b : OpenBlock)
    (t : Token) :
    forget (.map bare Code.bare) (.ok (plainStep input b t)) =
      .ok (plainStep [] b.bare t.bare) := by
  unfold plainStep
  simp only [Token.isOpen_bare, Token.isClose_bare,
    Token.isReferenceFunction_bare]
  split
  · rfl
  · split
    · cases hDepth : b.depth <;>
        simp [forget, Progress.map, OpenBlock.bare, bare, Code.bare, hDepth,
          slice]
    · split <;> rfl

theorem blockStep_bare
    (input : Text)
    (b : OpenBlock)
    (t : Token) :
    forget (.map bare Code.bare) (.ok (blockStep input b t)) =
      .ok (blockStep [] b.bare t.bare) := by
  have hPlain := plainStep_bare input b t
  unfold blockStep
  have hProgress : b.bare.reference = b.reference := rfl
  rw [hProgress]
  cases b.reference with
  | nothing => exact hPlain
  | function =>
      simp only [Token.isSymbol_bare]
      split
      · rfl
      · exact hPlain
  | parenthesis =>
      simp only [Token.kind_bare]
      split
      · rfl
      · exact hPlain

theorem step_bare
    (input : Text)
    (reader : CodeReader)
    (t : Token) :
    forget (.map bare Code.bare) (step input reader t) =
      step [] reader.bare t.bare := by
  cases reader with
  | keyword =>
      simp only [step, bare, Token.isKeyword_bare]
      split <;> rfl
  | brace =>
      simp only [step, bare, Token.isOpen_bare]
      split <;> rfl
  | block b =>
      exact blockStep_bare input b t

end CodeReader

/- An object which is not closed yet, without places. -/
def Draft.bare (d : Draft) : Draft where
  start := .start
  object := d.object.bare

def Surroundings.bare (s : Surroundings) : Surroundings where
  parent := s.parent
  drafts := s.drafts.map Draft.bare

namespace ObjectReader

/- A reader of objects, without places. -/
def bare : ObjectReader → ObjectReader
  | .keyword outer => .keyword outer.bare
  | .naming outer _ => .naming outer.bare .start
  | .opening outer _ name => .opening outer.bare .start name
  | .coding outer _ name reader =>
      .coding outer.bare .start name reader.bare
  | .items outer draft => .items outer.bare draft.bare
  | .dataNaming outer draft => .dataNaming outer.bare draft.bare
  | .dataContent outer draft name =>
      .dataContent outer.bare draft.bare name

theorem refuse_bare
    (reader : ObjectReader)
    (t : Token) :
    (reader.refuse t).bare = reader.bare.refuse t.bare := by
  cases reader with
  | coding _ _ _ reader => exact reader.refuse_bare t
  | _ => rfl

theorem isRuntime_bare
    (outer : Surroundings)
    (name : Text) :
    outer.bare.isRuntime name = outer.isRuntime name := by
  rcases outer with ⟨parent, drafts⟩
  cases drafts with
  | nil => rfl
  | cons d drafts =>
      simp [Surroundings.isRuntime, Surroundings.parentName,
        Surroundings.bare, Draft.bare, Object.bare_eq]

/- A child is put into its parent or refused as before. -/
theorem attach_bare
    (outer : Surroundings)
    (parent child : Draft) :
    forget Draft.bare (attach outer parent child) =
      attach outer.bare parent.bare child.bare := by
  unfold attach
  simp only [isRuntime_bare, Draft.bare, Object.bare_eq,
    Option.isSome_map]
  split
  · split
    · rfl
    · split
      · rfl
      · simp [forget, Draft.bare, Object.bare_eq]
  · simp [forget, Draft.bare, Object.bare_eq]

theorem close_bare
    (outer : Surroundings)
    (draft : Draft) :
    forget (.map bare Object.bare) (close outer draft) =
      close outer.bare draft.bare := by
  rcases outer with ⟨parent, drafts⟩
  cases drafts with
  | nil =>
      rfl
  | cons d drafts =>
      have hAttach :
          forget Draft.bare (attach ⟨parent, drafts⟩ d draft) =
            attach ⟨parent, drafts.map Draft.bare⟩ d.bare
              draft.bare :=
        attach_bare _ d draft
      simp only [close, Surroundings.bare, List.map_cons, ← hAttach]
      cases attach ⟨parent, drafts⟩ d draft <;> rfl

/- A step commutes with forgetting places and texts. -/
theorem step_bare
    (input : Text)
    (reader : ObjectReader)
    (t : Token) :
    forget (.map bare Object.bare) (step input reader t) =
      step [] reader.bare t.bare := by
  cases reader with
  | keyword outer =>
      simp only [step, bare, Token.isKeyword_bare]
      split <;> rfl
  | naming outer start =>
      simp only [step, bare, Token.kind_bare]
      split <;> rfl
  | opening outer start name =>
      simp only [step, bare, Token.isOpen_bare]
      split <;> rfl
  | coding outer start name inner =>
      have hInner := inner.step_bare input t
      simp only [step, bare]
      rw [← hInner]
      cases inner.step input t with
      | error e => rfl
      | ok progress => cases progress <;> rfl
  | items outer draft =>
      simp only [step, bare, Token.isClose_bare, Token.isKeyword_bare]
      split
      · exact close_bare outer draft
      · split
        · rfl
        · split <;> rfl
  | dataNaming outer draft =>
      simp only [step, bare, Token.kind_bare]
      split <;> rfl
  | dataContent outer draft name =>
      simp only [step, bare, Token.kind_bare]
      split
      · simp [forget, Progress.map, bare, declare, Draft.bare,
          Object.bare_eq]
      · rfl

end ObjectReader

------------------------------------------------------------
-- Inputs
------------------------------------------------------------

namespace Object

theorem parseFront_bare
    (parent : Option Text)
    (input : Text)
    (stream : TokenStream) :
    forget (fun r => (r.1.bare, r.2.bare))
        (parseFront parent input stream) =
      parseFront parent [] stream.bare := by
  exact feed_bare (ObjectReader.step_bare input)
    ObjectReader.refuse_bare stream.ending (.keyword ⟨parent, []⟩)
    stream.tokens

/- What is read from a stream whose tokens have no places. -/
def parseBare (stream : TokenStream) : Except ParseError Object :=
  match parseFront none [] stream with
  | .error e => .error e
  | .ok (o, rest) =>
      match rest.tokens, rest.ending with
      | t :: _, _ => .error (unexpected .endOfInput t)
      | [], .error e => .error e
      | [], .ok _ => .ok o

/- But for places and texts, tokens decide what is read. -/
theorem parse_bare
    (input : Text) :
    forget bare (parse input) =
      parseBare (TokenStream.ofText input).bare := by
  unfold parse parseBare
  rw [← parseFront_bare none input]
  cases parseFront none input (.ofText input) with
  | error e =>
      rfl
  | ok result =>
      rcases result with ⟨o, tokens, ending⟩
      cases tokens with
      | cons t tokens => rfl
      | nil => cases ending <;> rfl

end Object

end Yul

end ContractLinker
