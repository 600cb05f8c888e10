import ContractLinker.Proofs.Ast.Flags
import ContractLinker.Proofs.Ast.Spans
import ContractLinker.Proofs.Json.Places
import ContractLinker.Proofs.Traversal

/-
  The analysis of a syntax tree. It warns of the flagged
  objects of the tree and of nothing else, in the order in
  which they stand there, and it fails just if one of them
  has no location. Each warning has the words of its check.
  What else the tree holds has no influence.

  Key definitions include:
    * `Ast.flagged`
    * `Ast.Located`
    * `Ast.Wording`
    * `Ast.IsWarning`
    * `Ast.Warns`

  Main statements:
    * `Ast.diagnostics_eq_collect`
    * `Ast.collect_eq_ok_iff`
    * `Ast.diagnostics_put`
    * `Ast.diagnostics_flagged`
-/

------------------------------------------------------------
-- Nodes
------------------------------------------------------------

namespace ContractLinker

namespace Ast

open Finding (HasText Flags Looks inspected memberText)

/- Whether a node is flagged for something. -/
def isFlagged (node : Json) : Bool :=
  (Finding.ofNode? node).isSome

theorem isFlagged_iff
    {node : Json} :
    isFlagged node = true ↔ ∃ f, Flags node f := by
  unfold isFlagged
  rw [Option.isSome_iff_exists]
  exact exists_congr fun f => Finding.ofNode?_eq_some_iff

/- Only objects are flagged. -/
theorem isObject_of_flags
    {node : Json}
    (hFlags : ∃ f, Flags node f) :
    node.isObject = true := by
  rcases hFlags with ⟨f, hFlags⟩
  cases node with
  | obj members => rfl
  | null | bool _ | int _ | double _ | str _ | arr _ =>
      rw [← Finding.ofNode?_eq_some_iff] at hFlags
      cases hFlags

/- A node whose member `src` is a span. -/
def Located (node : Json) : Prop :=
  ∃ span start length, HasText node (ascii "src") span ∧
    SourceLocation.SpanText span start length

------------------------------------------------------------
-- Warnings
------------------------------------------------------------

/- The words of each check, with the function a transfer calls. -/
inductive Wording : Finding → Text → Prop where
  | fixedStipend (function : Text) :
      Wording (.fixedStipend function)
        (ascii "You are using '<address payable>." ++ function ++
          ascii
            ("(<X>)' with a fixed gas stipend. " ++
              "Gas costs differ on this target, so the call may run out of gas. " ++
              "Use '<address payable>.call\x7bvalue: <X>\x7d(\"\")' instead " ++
              "and guard the function against reentrancy."))
  | transactionOrigin :
      Wording .transactionOrigin
        (ascii
          ("You are checking for 'tx.origin' in your code, " ++
            "which might lead to unexpected behavior. " ++
            "With native account abstraction the origin may be a contract account."))
  | signatureRecovery :
      Wording .signatureRecovery
        (ascii
          ("It looks like you are using 'ecrecover' to validate " ++
            "a signature of a user account. " ++
            "Accounts may implement other signature schemes, so prefer " ++
            "a validation which also supports contract accounts (EIP-1271)."))
  | codeSize :
      Wording .codeSize
        (ascii
          ("Your code or one of its dependencies uses the 'extcodesize' instruction, " ++
            "which is usually needed to tell contracts from externally owned accounts. " ++
            "Every account may have code on this target, so such a check is not reliable."))
  | inlineOrigin :
      Wording .inlineOrigin
        (ascii
          ("You are checking for 'origin()' in your inline assembly, " ++
            "which might lead to unexpected behavior. " ++
            "With native account abstraction the origin may be a contract account."))

theorem wording_iff
    {f : Finding}
    {text : Text} :
    Wording f text ↔ text = f.message := by
  constructor
  · intro hWording
    cases hWording with
    | fixedStipend function => rfl
    | transactionOrigin => rfl
    | signatureRecovery => rfl
    | codeSize => rfl
    | inlineOrigin => rfl
  · rintro rfl
    cases f with
    | fixedStipend function => exact Wording.fixedStipend function
    | transactionOrigin => exact Wording.transactionOrigin
    | signatureRecovery => exact Wording.signatureRecovery
    | codeSize => exact Wording.codeSize
    | inlineOrigin => exact Wording.inlineOrigin

/- A warning with some text at some location. -/
structure IsWarning
    (text : Text)
    (l : SourceLocation)
    (d : Diagnostic) :
    Prop where
  component : d.component = ascii "general"
  errorCode : d.errorCode = none
  severity : d.severity = ascii "warning"
  type : d.type = ascii "Warning"
  message : d.message = text
  formattedMessage :
    d.formattedMessage =
      ascii "Warning: " ++ text ++ [Text.newline]
  sourceLocation : d.sourceLocation = some l

theorem isWarning_iff
    {text : Text}
    {l : SourceLocation}
    {d : Diagnostic} :
    IsWarning text l d ↔ d = .warning text (some l) := by
  constructor
  · intro hWarning
    obtain ⟨hComponent, hCode, hSeverity, hType, hMessage,
      hFormatted, hLocation⟩ := hWarning
    cases d
    rw [Diagnostic.warning, Diagnostic.mk.injEq]
    exact ⟨hComponent, hCode, hFormatted, hMessage, hSeverity,
      hLocation, hType⟩
  · rintro rfl
    exact ⟨rfl, rfl, rfl, rfl, rfl, rfl, rfl⟩

/-
  The warning about a node: the words are those of what the
  node is flagged for, the location that of its own span.
-/
def Warns (node : Json) (d : Diagnostic) : Prop :=
  ∃ f text span l, Flags node f ∧ Wording f text ∧
    HasText node (ascii "src") span ∧
    SourceLocation.Locates span l ∧
    IsWarning text l d

theorem warns_iff
    {node : Json}
    {d : Diagnostic} :
    Warns node d ↔
      ∃ f span l, Flags node f ∧ HasText node (ascii "src") span ∧
        SourceLocation.Locates span l ∧
        d = .warning f.message (some l) := by
  unfold Warns
  simp only [wording_iff, isWarning_iff]
  constructor
  · rintro ⟨f, text, span, l, hFlags, rfl, hRest⟩
    exact ⟨f, span, l, hFlags, hRest⟩
  · rintro ⟨f, span, l, hFlags, hRest⟩
    exact ⟨f, f.message, span, l, hFlags, rfl, hRest⟩

theorem exists_warns_iff
    {node : Json} :
    (∃ d, Warns node d) ↔ isFlagged node = true ∧ Located node := by
  rw [isFlagged_iff]
  simp only [warns_iff]
  constructor
  · rintro ⟨d, f, span, l, hFlags, hText, hLocates, -⟩
    rcases hLocates with ⟨start, length, hSpan, -⟩
    exact ⟨⟨f, hFlags⟩, span, start, length, hText, hSpan⟩
  · rintro ⟨⟨f, hFlags⟩, span, start, length, hText, hSpan⟩
    rcases SourceLocation.exists_ofSpan_iff.mpr
        ⟨start, length, hSpan⟩ with ⟨l, hRead⟩
    exact ⟨_, f, span, l, hFlags, hText,
      SourceLocation.ofSpan_eq_ok_iff.mp hRead, rfl⟩

/- A finding is told of at the span of its node. -/
theorem diagnostic_eq_ok_iff
    {f : Finding}
    {node : Json}
    {d : Diagnostic} :
    f.diagnostic node = .ok d ↔
      ∃ span l, HasText node (ascii "src") span ∧
        SourceLocation.Locates span l ∧
        d = .warning f.message (some l) := by
  unfold Finding.diagnostic
  dsimp only
  by_cases hEmpty : memberText (ascii "src") node = []
  · rw [hEmpty]
    constructor
    · intro hEq
      cases hEq
    · rintro ⟨span, l, hText, ⟨start, length, hSpan, -⟩, -⟩
      have hSome : span ≠ [] := hSpan.ne_nil
      rw [← Finding.memberText_eq_iff hSome] at hText
      exact absurd (hText.symm.trans hEmpty) hSome
  · rw [if_neg (by rwa [List.isEmpty_iff]), map_eq_ok_iff]
    constructor
    · rintro ⟨l, hRead, rfl⟩
      exact ⟨_, l, (Finding.memberText_eq_iff hEmpty).mp rfl,
        SourceLocation.ofSpan_eq_ok_iff.mp hRead, rfl⟩
    · rintro ⟨span, l, hText, hLocates, rfl⟩
      have hSome : span ≠ [] := by
        rcases hLocates with ⟨start, length, hSpan, -⟩
        exact hSpan.ne_nil
      rw [(Finding.memberText_eq_iff hSome).mpr hText]
      exact ⟨l, SourceLocation.ofSpan_eq_ok_iff.mpr hLocates, rfl⟩

/- A node is silent, or it is flagged and gives one warning. -/
theorem ownDiagnostics_eq_ok_iff
    {node : Json}
    {ds : List Diagnostic} :
    ownDiagnostics node = .ok ds ↔
      if isFlagged node then ∃ d, Warns node d ∧ ds = [d]
      else ds = [] := by
  unfold ownDiagnostics isFlagged
  cases hFinding : Finding.ofNode? node with
  | none =>
      simp [eq_comm]
  | some f =>
      have hFlags := Finding.ofNode?_eq_some_iff.mp hFinding
      rw [map_eq_ok_iff, if_pos (Option.isSome_some)]
      apply exists_congr
      intro d
      rw [diagnostic_eq_ok_iff, warns_iff, @eq_comm _ [d] ds]
      apply and_congr_left'
      constructor
      · rintro ⟨span, l, hText, hLocates, rfl⟩
        exact ⟨f, span, l, hFlags, hText, hLocates, rfl⟩
      · rintro ⟨f', span, l, hFlags', hText, hLocates, rfl⟩
        rw [← Finding.ofNode?_eq_some_iff, hFinding] at hFlags'
        cases hFlags'
        exact ⟨span, l, hText, hLocates, rfl⟩

------------------------------------------------------------
-- Runs
------------------------------------------------------------

/- What some nodes give rise to, one after another. -/
def collect (nodes : List Json) :
    Except AstError (List Diagnostic) :=
  nodes.foldr (fun node rest => append (ownDiagnostics node) rest)
    (.ok [])

theorem append_eq_ok_iff
    {x y : Except AstError (List Diagnostic)}
    {ds : List Diagnostic} :
    append x y = .ok ds ↔
      ∃ front back, x = .ok front ∧ y = .ok back ∧
        ds = front ++ back := by
  unfold append
  rw [bind_eq_ok_iff]
  apply exists_congr
  intro front
  rw [bind_eq_ok_iff]
  constructor
  · rintro ⟨hFront, back, hBack, hEq⟩
    cases hEq
    exact ⟨back, hFront, hBack, rfl⟩
  · rintro ⟨back, hFront, hBack, rfl⟩
    exact ⟨hFront, back, hBack, rfl⟩

theorem append_assoc
    (x y z : Except AstError (List Diagnostic)) :
    append (append x y) z = append x (append y z) := by
  unfold append
  cases x with
  | error e => rfl
  | ok xs =>
      cases y with
      | error e => rfl
      | ok ys =>
          cases z with
          | error e => rfl
          | ok zs =>
              exact congrArg Except.ok (List.append_assoc xs ys zs)

theorem nil_append
    (x : Except AstError (List Diagnostic)) :
    append (.ok []) x = x := by
  cases x with
  | error e => rfl
  | ok xs => rfl

theorem collect_cons
    (node : Json)
    (nodes : List Json) :
    collect (node :: nodes) =
      append (ownDiagnostics node) (collect nodes) := by
  rfl

theorem collect_append
    (xs ys : List Json) :
    collect (xs ++ ys) = append (collect xs) (collect ys) := by
  induction xs with
  | nil =>
      exact (nil_append _).symm
  | cons node xs ih =>
      rw [List.cons_append, collect_cons, collect_cons, ih,
        append_assoc]

mutual

/- The diagnostics of a tree are those of its objects in order. -/
theorem diagnostics_eq_collect :
    ∀ j : Json, diagnostics j = collect (j.objects.map Prod.snd)
  | .arr items => by
      rw [diagnostics, Json.objects]
      exact itemDiagnostics_eq_collect items 0
  | .obj members => by
      rw [diagnostics, Json.objects]
      exact congrArg (append _) (memberDiagnostics_eq_collect members)
  | .null => rfl
  | .bool _ => rfl
  | .int _ => rfl
  | .double _ => rfl
  | .str _ => rfl
termination_by structural j => j

theorem itemDiagnostics_eq_collect :
    ∀ (items : List Json) (position : Nat),
      itemDiagnostics items =
        collect ((Json.itemObjects position items).map Prod.snd)
  | [], _ => rfl
  | j :: items, position => by
      rw [itemDiagnostics, Json.itemObjects, List.map_append,
        Json.map_snd_behind, collect_append, diagnostics_eq_collect j,
        itemDiagnostics_eq_collect items (position + 1)]
termination_by structural items => items

theorem memberDiagnostics_eq_collect :
    ∀ members : List (Text × Json),
      memberDiagnostics members =
        collect ((Json.memberObjects members).map Prod.snd)
  | [] => rfl
  | (key, j) :: members => by
      rw [memberDiagnostics, Json.memberObjects, List.map_append,
        Json.map_snd_behind, collect_append, diagnostics_eq_collect j,
        memberDiagnostics_eq_collect members]
termination_by structural members => members

end

/- Only flagged nodes give rise to something. -/
theorem collect_filter
    (nodes : List Json) :
    collect (nodes.filter isFlagged) = collect nodes := by
  induction nodes with
  | nil =>
      rfl
  | cons node nodes ih =>
      by_cases hFlagged : isFlagged node = true
      · rw [List.filter_cons_of_pos hFlagged, collect_cons,
          collect_cons, ih]
      · have hSilent : ownDiagnostics node = .ok [] := by
          rw [ownDiagnostics_eq_ok_iff, if_neg hFlagged]
        rw [List.filter_cons_of_neg hFlagged, collect_cons, hSilent,
          nil_append, ih]

/- There is one warning for each flagged node, in their order. -/
theorem collect_eq_ok_iff
    {nodes : List Json}
    {ds : List Diagnostic} :
    collect nodes = .ok ds ↔
      List.Forall₂ Warns (nodes.filter isFlagged) ds := by
  rw [← collect_filter]
  have hFlagged : ∀ node ∈ nodes.filter isFlagged,
      isFlagged node = true :=
    fun node hMember => (List.mem_filter.mp hMember).2
  generalize nodes.filter isFlagged = nodes at hFlagged ⊢
  induction nodes generalizing ds with
  | nil =>
      rw [List.forall₂_nil_left_iff]
      constructor
      · intro hEq
        cases hEq
        rfl
      · rintro rfl
        rfl
  | cons node nodes ih =>
      rw [List.forall_mem_cons] at hFlagged
      rw [collect_cons, append_eq_ok_iff, List.forall₂_cons_left_iff]
      simp only [ownDiagnostics_eq_ok_iff, if_pos hFlagged.1,
        ih hFlagged.2]
      constructor
      · rintro ⟨_, back, ⟨d, hWarns, rfl⟩, hBack, rfl⟩
        exact ⟨d, back, hWarns, hBack, rfl⟩
      · rintro ⟨d, back, hWarns, hBack, rfl⟩
        exact ⟨[d], back, ⟨d, hWarns, rfl⟩, hBack, rfl⟩

/- The run fails just if a flagged node has no location. -/
theorem collect_fails_iff
    {nodes : List Json} :
    (∃ e, collect nodes = .error e) ↔
      ∃ node ∈ nodes.filter isFlagged, ¬ Located node := by
  have hPasses :
      (∃ ds, collect nodes = .ok ds) ↔
        ∀ node ∈ nodes.filter isFlagged, Located node := by
    simp only [collect_eq_ok_iff, exists_forall₂_iff,
      exists_warns_iff]
    apply forall₂_congr
    intro node hMember
    exact and_iff_right (List.mem_filter.mp hMember).2
  rw [exists_error_iff, hPasses]
  simp only [Classical.not_forall, exists_prop]

------------------------------------------------------------
-- Changes
------------------------------------------------------------

/-
  Objects which agree on what is inspected, and on the span if
  they are flagged, give rise to the same.
-/
theorem ownDiagnostics_congr
    {members members' : List (Text × Json)}
    (hSame : ∀ name ∈ inspected,
      Option.Rel Looks ((Json.obj members).member? name)
        ((Json.obj members').member? name))
    (hSpan : isFlagged (.obj members) = true →
      memberText (ascii "src") (.obj members) =
        memberText (ascii "src") (.obj members')) :
    ownDiagnostics (.obj members) =
      ownDiagnostics (.obj members') := by
  have hFinding := Finding.ofNode?_congr hSame
  have hType := (Finding.looks_obj hSame).nodeType
  unfold ownDiagnostics
  rw [← hFinding]
  cases hFlagged : Finding.ofNode? (.obj members) with
  | none => rfl
  | some f =>
      have hText := hSpan (by rw [isFlagged, hFlagged]; rfl)
      unfold Finding.diagnostic
      rw [hText, hType]

theorem itemDiagnostics_modify
    {items : List Json}
    {i : Nat}
    {value : Json}
    {f : Json → Json}
    (hItem : items[i]? = some value)
    (hSame : diagnostics (f value) = diagnostics value) :
    itemDiagnostics (items.modify i f) = itemDiagnostics items := by
  induction items generalizing i with
  | nil =>
      cases hItem
  | cons j items ih =>
      cases i with
      | zero =>
          cases hItem
          rw [List.modify_zero_cons, itemDiagnostics,
            itemDiagnostics, hSame]
      | succ i =>
          rw [List.modify_succ_cons, itemDiagnostics,
            itemDiagnostics, ih hItem]

theorem memberDiagnostics_mapValues
    {members : List (Text × Json)}
    {f : Text → Json → Json}
    (hSame : ∀ key j, (key, j) ∈ members →
      diagnostics (f key j) = diagnostics j) :
    memberDiagnostics (Dictionary.mapValues f members) =
      memberDiagnostics members := by
  induction members with
  | nil =>
      rfl
  | cons member members ih =>
      rcases member with ⟨key, j⟩
      have hHead := hSame key j List.mem_cons_self
      have hTail := ih fun k i hMember =>
        hSame k i (List.mem_cons_of_mem _ hMember)
      rw [Dictionary.mapValues_cons, memberDiagnostics,
        memberDiagnostics, hHead, hTail]

/- The same with all members of an object changed at a time. -/
theorem looks_mapValues
    {members : List (Text × Json)}
    {f : Text → Json → Json}
    (hLooks : ∀ key j, (key, j) ∈ members → Looks j (f key j))
    (hSame : ∀ key j, (key, j) ∈ members →
      diagnostics (f key j) = diagnostics j) :
    Looks (.obj members)
        (.obj (Dictionary.mapValues f members)) ∧
      diagnostics (.obj (Dictionary.mapValues f members)) =
        diagnostics (.obj members) := by
  have hMembers :
      ∀ name, Option.Rel Looks ((Json.obj members).member? name)
        ((Json.obj (Dictionary.mapValues f members)).member?
          name) := by
    intro name
    unfold Json.member?
    dsimp only
    rw [Dictionary.get?_mapValues]
    cases hGet : Dictionary.get? name members with
    | none => exact Option.Rel.none
    | some j =>
        exact Option.Rel.some
          (hLooks name j (Dictionary.mem_of_get? hGet))
  have hOwn :
      ownDiagnostics (.obj members) =
        ownDiagnostics (.obj (Dictionary.mapValues f members)) :=
    ownDiagnostics_congr (fun name _ => hMembers name)
      fun _ => Finding.memberText_congr (hMembers _)
  rw [diagnostics, diagnostics, memberDiagnostics_mapValues hSame,
    hOwn]
  exact ⟨Finding.looks_obj fun name _ => hMembers name, rfl⟩

/-
  A value inside of a tree may be replaced by one which looks
  alike and has the same diagnostics. The tree then looks as
  it did, so that this goes on from each value to the next
  one around it.
-/
theorem looks_put
    {j value value' : Json}
    (hOrdered : j.isOrdered = true)
    {place : Json.Place}
    (hPlace : j.at? place = some value)
    (hLooks : Looks value value')
    (hSame : diagnostics value' = diagnostics value) :
    Looks j (Json.put value' place j) ∧
      diagnostics (Json.put value' place j) = diagnostics j := by
  induction place generalizing j with
  | nil =>
      rw [Json.at?] at hPlace
      cases hPlace
      exact ⟨hLooks, hSame⟩
  | cons step rest ih =>
      cases step with
      | item i =>
          cases j with
          | arr items =>
              rw [Json.at?] at hPlace
              rcases Option.bind_eq_some_iff.mp hPlace with
                ⟨inside, hItem, hRest⟩
              rw [Json.isOrdered, Json.areOrderedItems_iff] at hOrdered
              have hInside :=
                ih (hOrdered _ (List.mem_of_getElem? hItem)) hRest
              rw [Json.put, diagnostics, diagnostics]
              exact ⟨⟨rfl, rfl, rfl, rfl, rfl⟩,
                itemDiagnostics_modify hItem hInside.2⟩
          | null | bool _ | int _ | double _ | str _ | obj _ =>
              cases hPlace
      | member key =>
          cases j with
          | obj members =>
              rw [Json.at?] at hPlace
              rcases Option.bind_eq_some_iff.mp hPlace with
                ⟨inside, hGet, hRest⟩
              have hKeys := Json.ordered_of_isOrdered hOrdered
              have hEntry :=
                (Dictionary.get?_eq_some_iff hKeys).mp hGet
              have hInside :=
                ih (Json.isOrdered_of_mem hOrdered hEntry) hRest
              have hUnique :
                  ∀ i, (key, i) ∈ members → i = inside := by
                intro i hMember
                rw [← Dictionary.get?_eq_some_iff hKeys, hGet]
                  at hMember
                cases hMember
                rfl
              rw [Json.put]
              apply looks_mapValues
              · intro k i hMember
                by_cases hKey : k = key
                · subst hKey
                  rw [if_pos rfl, hUnique i hMember]
                  exact hInside.1
                · rw [if_neg hKey]
                  exact Finding.looks_refl i
              · intro k i hMember
                by_cases hKey : k = key
                · subst hKey
                  rw [if_pos rfl, hUnique i hMember]
                  exact hInside.2
                · rw [if_neg hKey]
          | null | bool _ | int _ | double _ | str _ | arr _ =>
              cases hPlace

------------------------------------------------------------
-- Flagged Objects
------------------------------------------------------------

/- The flagged objects of a tree, with their places. -/
def flagged (j : Json) : List (Json.Place × Json) :=
  j.objects.filter fun entry => isFlagged entry.2

/- The flagged objects inside of some members. -/
def flaggedInside (members : List (Text × Json)) : List Json :=
  ((Json.memberObjects members).map Prod.snd).filter isFlagged

theorem map_snd_flagged
    (j : Json) :
    (flagged j).map Prod.snd =
      (j.objects.map Prod.snd).filter isFlagged := by
  rw [List.filter_map]
  rfl

theorem mem_flagged_iff
    {j : Json}
    (hOrdered : j.isOrdered = true)
    {place : Json.Place}
    {node : Json} :
    (place, node) ∈ flagged j ↔
      j.at? place = some node ∧ ∃ f, Flags node f := by
  unfold flagged
  rw [List.mem_filter, Json.mem_objects_iff hOrdered, isFlagged_iff]
  constructor
  · rintro ⟨⟨hPlace, -⟩, hFlags⟩
    exact ⟨hPlace, hFlags⟩
  · rintro ⟨hPlace, hFlags⟩
    exact ⟨⟨hPlace, isObject_of_flags hFlags⟩, hFlags⟩

theorem diagnostics_fails_iff
    {j : Json} :
    (∃ e, diagnostics j = .error e) ↔
      ∃ entry ∈ flagged j, ¬ Located entry.2 := by
  rw [diagnostics_eq_collect, collect_fails_iff, ← map_snd_flagged]
  constructor
  · rintro ⟨node, hMember, hNone⟩
    rcases List.mem_map.mp hMember with ⟨entry, hEntry, rfl⟩
    exact ⟨entry, hEntry, hNone⟩
  · rintro ⟨entry, hEntry, hNone⟩
    exact ⟨entry.2, List.mem_map_of_mem hEntry, hNone⟩

theorem diagnostics_eq_ok_iff
    {j : Json}
    {ds : List Diagnostic} :
    diagnostics j = .ok ds ↔
      List.Forall₂ (fun entry d => Warns entry.2 d) (flagged j) ds := by
  rw [diagnostics_eq_collect, collect_eq_ok_iff, ← map_snd_flagged,
    List.forall₂_map_left_iff]

/- All that an analysis tells of are warnings with a location. -/
theorem warning_of_diagnostics
    {j : Json}
    {ds : List Diagnostic}
    (hResult : diagnostics j = .ok ds)
    {d : Diagnostic}
    (hMember : d ∈ ds) :
    ∃ message l, d = .warning message (some l) := by
  rcases exists_left_of_forall₂ (diagnostics_eq_ok_iff.mp hResult)
      hMember with
    ⟨entry, -, hWarns⟩
  rcases warns_iff.mp hWarns with ⟨f, span, l, -, -, -, hWarning⟩
  exact ⟨f.message, l, hWarning⟩

/-
  Nothing is changed by putting an object in the place of one
  which agrees with it on what is inspected, on the span if it
  is flagged, and on the flagged objects inside.
-/
theorem diagnostics_put
    {j : Json}
    (hOrdered : j.isOrdered = true)
    {place : Json.Place}
    {members members' : List (Text × Json)}
    (hPlace : j.at? place = some (.obj members))
    (hSame : ∀ name ∈ inspected,
      Dictionary.get? name members' = Dictionary.get? name members)
    (hSpan : (∃ f, Flags (.obj members) f) →
      Dictionary.get? (ascii "src") members' =
        Dictionary.get? (ascii "src") members)
    (hInside : flaggedInside members' = flaggedInside members) :
    diagnostics (Json.put (.obj members') place j) =
      diagnostics j := by
  have hMembers :
      ∀ name ∈ inspected,
        Option.Rel Looks ((Json.obj members).member? name)
          ((Json.obj members').member? name) := by
    intro name hName
    unfold Json.member?
    dsimp only
    rw [hSame name hName]
    cases Dictionary.get? name members with
    | none => exact Option.Rel.none
    | some value => exact Option.Rel.some (Finding.looks_refl value)
  have hOwn :
      ownDiagnostics (.obj members) =
        ownDiagnostics (.obj members') := by
    apply ownDiagnostics_congr hMembers
    intro hFlagged
    unfold memberText Json.member?
    dsimp only
    rw [hSpan (isFlagged_iff.mp hFlagged)]
  have hBehind :
      memberDiagnostics members' = memberDiagnostics members := by
    rw [memberDiagnostics_eq_collect, memberDiagnostics_eq_collect,
      ← collect_filter]
    unfold flaggedInside at hInside
    rw [hInside, collect_filter]
  apply (looks_put hOrdered hPlace (Finding.looks_obj hMembers) _).2
  rw [diagnostics, diagnostics, hOwn, hBehind]

/-
  The analysis of a tree goes by its flagged objects, which
  are taken in the order of their places. It fails just if one
  of them has no location, and otherwise gives the warning of
  each of them. A member which is not inspected has an
  influence only by the flagged objects inside of it, and the
  span of an object only if the object is flagged.
-/
theorem diagnostics_flagged
    {j : Json}
    (hOrdered : j.isOrdered = true) :
    ((flagged j).Pairwise fun x y => x.1.Before y.1) ∧
      (∀ place node, (place, node) ∈ flagged j ↔
        j.at? place = some node ∧ ∃ f, Flags node f) ∧
      ((∃ e, diagnostics j = .error e) ↔
        ∃ entry ∈ flagged j, ¬ Located entry.2) ∧
      (∀ ds, diagnostics j = .ok ds →
        List.Forall₂ (fun entry d => Warns entry.2 d)
          (flagged j) ds) ∧
      ∀ place members members',
        j.at? place = some (.obj members) →
        (∀ name ∈ inspected, Dictionary.get? name members' =
          Dictionary.get? name members) →
        ((∃ f, Flags (.obj members) f) →
          Dictionary.get? (ascii "src") members' =
            Dictionary.get? (ascii "src") members) →
        flaggedInside members' = flaggedInside members →
        diagnostics (Json.put (.obj members') place j) =
          diagnostics j := by
  refine ⟨?_, ?_, diagnostics_fails_iff, ?_, ?_⟩
  · exact (Json.pairwise_objects j hOrdered).filter _
  · intro place node
    exact mem_flagged_iff hOrdered
  · intro ds hResult
    exact diagnostics_eq_ok_iff.mp hResult
  · intro place members members' hPlace hSame hSpan hInside
    exact diagnostics_put hOrdered hPlace hSame hSpan hInside

/- The identifier of a name, with a member of its own. -/
def identifier (name key value : String) : List (Text × Json) :=
  [ (ascii "name", .str (ascii name)),
    (ascii "nodeType", .str (ascii "Identifier")),
    (ascii key, .str (ascii value)) ]

/-
  A signature recovered from the origin of the transaction:
  one flagged object inside of another. The identifiers are
  not flagged, and what they have for a span is none.
-/
def recoveryCall (span : String) : Json :=
  .obj
    [ (ascii "arguments",
        .arr
          [ .obj
              [ (ascii "expression", .obj (identifier "tx" "src" "1:")),
                (ascii "memberName", .str (ascii "origin")),
                (ascii "nodeType", .str (ascii "MemberAccess")),
                (ascii "src", .str (ascii span)) ] ]),
      (ascii "expression",
        .obj (identifier "ecrecover" "src" "none")),
      (ascii "nodeType", .str (ascii "FunctionCall")),
      (ascii "src", .str (ascii "4:20:0")) ]

theorem diagnostics_recoveryCall :
    (recoveryCall "14:9:0").isOrdered = true ∧
      (∃ first second,
        diagnostics (recoveryCall "14:9:0") = .ok [first, second] ∧
          first.sourceLocation = some ⟨[], 4, 24⟩ ∧
          first.message =
            ascii
              ("It looks like you are using 'ecrecover' to validate " ++
                "a signature of a user account. " ++
                "Accounts may implement other signature schemes, so prefer " ++
                "a validation which also supports contract accounts (EIP-1271).") ∧
          second.sourceLocation = some ⟨[], 14, 23⟩ ∧
          second.message =
            ascii
              ("You are checking for 'tx.origin' in your code, " ++
                "which might lead to unexpected behavior. " ++
                "With native account abstraction the origin may be a contract account.") ∧
          (∀ d ∈ [first, second],
            d.component = ascii "general" ∧
            d.errorCode = none ∧
            d.severity = ascii "warning" ∧
            d.type = ascii "Warning" ∧
            d.formattedMessage =
              ascii "Warning: " ++ d.message ++ [Text.newline]) ∧
          List.Forall₂ (fun entry d => Warns entry.2 d)
            (flagged (recoveryCall "14:9:0")) [first, second]) ∧
      diagnostics
          (Json.put (.obj (identifier "tx" "type" "address"))
            [ .member (ascii "arguments"), .item 0,
              .member (ascii "expression") ]
            (recoveryCall "14:9:0")) =
        diagnostics (recoveryCall "14:9:0") ∧
      (recoveryCall "14:9").isOrdered = true ∧
      (∃ e, diagnostics (recoveryCall "14:9") = .error e) ∧
      ∃ entry ∈ flagged (recoveryCall "14:9"), ¬ Located entry.2 := by
  have hOrdered : (recoveryCall "14:9:0").isOrdered = true := by
    decide
  have hOrdered' : (recoveryCall "14:9").isOrdered = true := by
    decide
  rcases diagnostics_flagged hOrdered with
    ⟨-, -, -, hWarns, hChanged⟩
  rcases diagnostics_flagged hOrdered' with ⟨-, -, hFails, -, -⟩
  have hFirst :
      IsWarning Finding.signatureRecovery.message ⟨[], 4, 24⟩ _ :=
    isWarning_iff.mpr rfl
  have hSecond :
      IsWarning Finding.transactionOrigin.message ⟨[], 14, 23⟩ _ :=
    isWarning_iff.mpr rfl
  refine ⟨hOrdered,
    ⟨_, _, rfl, hFirst.sourceLocation,
      hFirst.message.trans (wording_iff.mp .signatureRecovery).symm,
      hSecond.sourceLocation,
      hSecond.message.trans (wording_iff.mp .transactionOrigin).symm,
      ?_, hWarns _ rfl⟩, ?_,
    hOrdered', ⟨_, rfl⟩, hFails.mp ⟨_, rfl⟩⟩
  · intro d hMember
    obtain ⟨entry, -, f, text, span, l, -, -, -, -, hWarning⟩ :=
      exists_left_of_forall₂ (hWarns _ rfl) hMember
    exact ⟨hWarning.component, hWarning.errorCode,
      hWarning.severity, hWarning.type,
      hWarning.message ▸ hWarning.formattedMessage⟩
  · apply hChanged _ (identifier "tx" "src" "1:") _ rfl
    · decide
    · intro hFlags
      rw [← isFlagged_iff] at hFlags
      exact absurd hFlags (by decide)
    · rfl

end Ast

end ContractLinker
