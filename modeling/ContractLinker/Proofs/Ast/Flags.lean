import ContractLinker.Ast.Finding
import ContractLinker.Proofs.Dictionary

/-
  Flagged nodes. What makes a node a finding is told by the
  members which it has, and by those of a few nodes right
  inside of it. A member of another type counts as none, so
  that every value is either flagged or not. Two objects
  which agree on these members give rise to the same finding.

  Key definitions include:
    * `Finding.HasText`
    * `Finding.Flags`
    * `Finding.Looks`

  Main statements:
    * `Finding.ofNode?_eq_some_iff`
    * `Finding.looks_obj`
    * `Finding.ofNode?_congr`
-/

------------------------------------------------------------
-- Flags
------------------------------------------------------------

namespace ContractLinker

namespace Finding

/- A member which is a given string. -/
def HasText (node : Json) (name text : Text) : Prop :=
  node.member? name = some (.str text)

/- The identifier of a name. -/
def Identifies (node : Json) (name : Text) : Prop :=
  HasText node (ascii "nodeType") (ascii "Identifier") ∧
    HasText node (ascii "name") name

/- An expression whose type is that of an address. -/
def HasAddressType (expression : Json) : Prop :=
  ∃ descriptions type,
    expression.member? (ascii "typeDescriptions") =
        some descriptions ∧
      HasText descriptions (ascii "typeString") type ∧
      ascii "address" <+: type

/- What a node is flagged for. -/
inductive Flags (node : Json) : Finding → Prop where
  | fixedStipend {function : Text} {expression : Json}
      (hType :
        HasText node (ascii "nodeType") (ascii "MemberAccess"))
      (hMember : HasText node (ascii "memberName") function)
      (hFunction :
        function = ascii "send" ∨ function = ascii "transfer")
      (hExpression :
        node.member? (ascii "expression") = some expression)
      (hAddress : HasAddressType expression) :
      Flags node (.fixedStipend function)
  | transactionOrigin {expression : Json}
      (hType :
        HasText node (ascii "nodeType") (ascii "MemberAccess"))
      (hMember :
        HasText node (ascii "memberName") (ascii "origin"))
      (hExpression :
        node.member? (ascii "expression") = some expression)
      (hIdentifier : Identifies expression (ascii "tx")) :
      Flags node .transactionOrigin
  | signatureRecovery {expression : Json}
      (hType :
        HasText node (ascii "nodeType") (ascii "FunctionCall"))
      (hExpression :
        node.member? (ascii "expression") = some expression)
      (hIdentifier : Identifies expression (ascii "ecrecover")) :
      Flags node .signatureRecovery
  | codeSize {function : Json}
      (hType :
        HasText node (ascii "nodeType") (ascii "YulFunctionCall"))
      (hFunction :
        node.member? (ascii "functionName") = some function)
      (hName :
        HasText function (ascii "name") (ascii "extcodesize")) :
      Flags node .codeSize
  | inlineOrigin {function : Json}
      (hType :
        HasText node (ascii "nodeType") (ascii "YulFunctionCall"))
      (hFunction :
        node.member? (ascii "functionName") = some function)
      (hName : HasText function (ascii "name") (ascii "origin")) :
      Flags node .inlineOrigin

------------------------------------------------------------
-- Members
------------------------------------------------------------

/- A text which is not empty is read off a string only. -/
theorem memberText_eq_iff
    {node : Json}
    {name text : Text}
    (hSome : text ≠ []) :
    memberText name node = text ↔ HasText node name text := by
  unfold memberText HasText
  cases node.member? name with
  | none => simp [hSome.symm]
  | some value =>
      cases value with
      | str s => simp [Json.string?]
      | null | bool _ | int _ | double _ | arr _ | obj _ =>
          simp [Json.string?, hSome.symm]

/- Nor is it read off an inner node which is not there. -/
theorem exists_inner_iff
    {node : Json}
    {name : Text}
    (p : Json → Prop)
    (hNull : ¬ p .null) :
    p (inner name node) ↔
      ∃ value, node.member? name = some value ∧ p value := by
  unfold inner
  cases node.member? name with
  | none => simp [hNull]
  | some value => simp

theorem not_hasText_null
    {name text : Text} :
    ¬ HasText .null name text := by
  simp [HasText, Json.member?]

theorem memberText_inner_eq_iff
    {node : Json}
    {field name text : Text}
    (hSome : text ≠ []) :
    memberText name (inner field node) = text ↔
      ∃ value, node.member? field = some value ∧
        HasText value name text := by
  rw [memberText_eq_iff hSome]
  exact exists_inner_iff (fun value => HasText value name text)
    not_hasText_null

theorem isIdentifier_iff
    {node : Json}
    {name : Text}
    (hSome : name ≠ []) :
    isIdentifier name node = true ↔ Identifies node name := by
  unfold isIdentifier Identifies
  rw [Bool.and_eq_true, decide_eq_true_iff, decide_eq_true_iff,
    memberText_eq_iff (by decide), memberText_eq_iff hSome]

theorem isPrefixOf_typeText_iff
    {expression : Json} :
    (ascii "address").isPrefixOf (typeText expression) = true ↔
      HasAddressType expression := by
  have hRead :
      ∀ type, ascii "address" <+: type →
        (typeText expression = type ↔
          ∃ descriptions,
            expression.member? (ascii "typeDescriptions") =
                some descriptions ∧
              HasText descriptions (ascii "typeString") type) := by
    intro type hPrefix
    have hSome : type ≠ [] := by
      rintro rfl
      exact absurd hPrefix (by decide)
    exact memberText_inner_eq_iff hSome
  rw [List.isPrefixOf_iff_prefix]
  constructor
  · intro hPrefix
    rcases (hRead _ hPrefix).mp rfl with
      ⟨descriptions, hDescriptions, hType⟩
    exact ⟨descriptions, _, hDescriptions, hType, hPrefix⟩
  · rintro ⟨descriptions, type, hDescriptions, hType, hPrefix⟩
    rw [(hRead type hPrefix).mpr ⟨descriptions, hDescriptions, hType⟩]
    exact hPrefix

theorem isIdentifier_inner_iff
    {node : Json}
    {field name : Text}
    (hSome : name ≠ []) :
    isIdentifier name (inner field node) = true ↔
      ∃ expression, node.member? field = some expression ∧
        Identifies expression name := by
  rw [isIdentifier_iff hSome]
  exact exists_inner_iff (fun inside => Identifies inside name)
    fun hNull => not_hasText_null hNull.1

theorem isPrefixOf_typeText_inner_iff
    {node : Json}
    {field : Text} :
    (ascii "address").isPrefixOf (typeText (inner field node)) =
        true ↔
      ∃ expression, node.member? field = some expression ∧
        HasAddressType expression := by
  rw [isPrefixOf_typeText_iff]
  apply exists_inner_iff HasAddressType
  rintro ⟨descriptions, type, hDescriptions, -⟩
  cases hDescriptions

------------------------------------------------------------
-- Checks
------------------------------------------------------------

theorem flags_of_memberAccess
    {node : Json}
    {f : Finding}
    (hType :
      HasText node (ascii "nodeType") (ascii "MemberAccess"))
    (hFinding : ofMemberAccess? node = some f) :
    Flags node f := by
  unfold ofMemberAccess? at hFinding
  dsimp only at hFinding
  split at hFinding
  · next hTest =>
      cases hFinding
      rw [Bool.and_eq_true, Bool.or_eq_true, decide_eq_true_iff,
        decide_eq_true_iff] at hTest
      rcases hTest with ⟨hFunction, hPrefix⟩
      have hSome :
          memberText (ascii "memberName") node ≠ [] := by
        rintro hEmpty
        rw [hEmpty] at hFunction
        exact absurd hFunction (by decide)
      rw [isPrefixOf_typeText_inner_iff] at hPrefix
      rcases hPrefix with ⟨expression, hExpression, hAddress⟩
      exact .fixedStipend hType
        ((memberText_eq_iff hSome).mp rfl) hFunction hExpression
        hAddress
  · split at hFinding
    · next hTest =>
        cases hFinding
        rw [Bool.and_eq_true, decide_eq_true_iff,
          memberText_eq_iff (by decide),
          isIdentifier_inner_iff (by decide)] at hTest
        rcases hTest with
          ⟨hMember, expression, hExpression, hIdentifier⟩
        exact .transactionOrigin hType hMember hExpression hIdentifier
    · cases hFinding

theorem flags_of_functionCall
    {node : Json}
    {f : Finding}
    (hType :
      HasText node (ascii "nodeType") (ascii "FunctionCall"))
    (hFinding : ofFunctionCall? node = some f) :
    Flags node f := by
  unfold ofFunctionCall? at hFinding
  split at hFinding
  · next hTest =>
      cases hFinding
      rw [isIdentifier_inner_iff (by decide)] at hTest
      rcases hTest with ⟨expression, hExpression, hIdentifier⟩
      exact .signatureRecovery hType hExpression hIdentifier
  · cases hFinding

theorem flags_of_yulFunctionCall
    {node : Json}
    {f : Finding}
    (hType :
      HasText node (ascii "nodeType") (ascii "YulFunctionCall"))
    (hFinding : ofYulFunctionCall? node = some f) :
    Flags node f := by
  unfold ofYulFunctionCall? at hFinding
  dsimp only at hFinding
  split at hFinding
  · next hTest =>
      cases hFinding
      rw [memberText_inner_eq_iff (by decide)] at hTest
      rcases hTest with ⟨function, hFunction, hName⟩
      exact .codeSize hType hFunction hName
  · split at hFinding
    · next hTest =>
        cases hFinding
        rw [memberText_inner_eq_iff (by decide)] at hTest
        rcases hTest with ⟨function, hFunction, hName⟩
        exact .inlineOrigin hType hFunction hName
    · cases hFinding

theorem ofNode?_of_memberAccess
    {node : Json}
    (hType :
      HasText node (ascii "nodeType") (ascii "MemberAccess")) :
    ofNode? node = ofMemberAccess? node := by
  unfold ofNode?
  rw [(memberText_eq_iff (by decide)).mpr hType]
  rfl

theorem ofNode?_of_functionCall
    {node : Json}
    (hType :
      HasText node (ascii "nodeType") (ascii "FunctionCall")) :
    ofNode? node = ofFunctionCall? node := by
  unfold ofNode?
  rw [(memberText_eq_iff (by decide)).mpr hType]
  rfl

theorem ofNode?_of_yulFunctionCall
    {node : Json}
    (hType :
      HasText node (ascii "nodeType") (ascii "YulFunctionCall")) :
    ofNode? node = ofYulFunctionCall? node := by
  unfold ofNode?
  rw [(memberText_eq_iff (by decide)).mpr hType]
  rfl

/- A node gives rise to the finding which it is flagged for. -/
theorem ofNode?_eq_some_iff
    {node : Json}
    {f : Finding} :
    ofNode? node = some f ↔ Flags node f := by
  constructor
  · intro hFinding
    unfold ofNode? at hFinding
    dsimp only at hFinding
    split at hFinding
    · next hType =>
        rw [memberText_eq_iff (by decide)] at hType
        exact flags_of_memberAccess hType hFinding
    · split at hFinding
      · next hType =>
          rw [memberText_eq_iff (by decide)] at hType
          exact flags_of_functionCall hType hFinding
      · split at hFinding
        · next hType =>
            rw [memberText_eq_iff (by decide)] at hType
            exact flags_of_yulFunctionCall hType hFinding
        · cases hFinding
  · intro hFlags
    cases hFlags with
    | fixedStipend hType hMember hFunction hExpression hAddress =>
        have hTest :=
          isPrefixOf_typeText_inner_iff.mpr
            ⟨_, hExpression, hAddress⟩
        rw [ofNode?_of_memberAccess hType]
        unfold ofMemberAccess?
        dsimp only
        rcases hFunction with rfl | rfl
        · rw [(memberText_eq_iff (by decide)).mpr hMember, hTest]
          rfl
        · rw [(memberText_eq_iff (by decide)).mpr hMember, hTest]
          rfl
    | transactionOrigin hType hMember hExpression hIdentifier =>
        have hTest :=
          (isIdentifier_inner_iff (by decide)).mpr
            ⟨_, hExpression, hIdentifier⟩
        rw [ofNode?_of_memberAccess hType]
        unfold ofMemberAccess?
        dsimp only
        rw [(memberText_eq_iff (by decide)).mpr hMember, hTest]
        rfl
    | signatureRecovery hType hExpression hIdentifier =>
        have hTest :=
          (isIdentifier_inner_iff (by decide)).mpr
            ⟨_, hExpression, hIdentifier⟩
        rw [ofNode?_of_functionCall hType]
        unfold ofFunctionCall?
        rw [hTest]
        rfl
    | codeSize hType hFunction hName =>
        have hTest :=
          (memberText_inner_eq_iff (by decide)).mpr
            ⟨_, hFunction, hName⟩
        rw [ofNode?_of_yulFunctionCall hType]
        unfold ofYulFunctionCall?
        dsimp only
        rw [hTest]
        rfl
    | inlineOrigin hType hFunction hName =>
        have hTest :=
          (memberText_inner_eq_iff (by decide)).mpr
            ⟨_, hFunction, hName⟩
        rw [ofNode?_of_yulFunctionCall hType]
        unfold ofYulFunctionCall?
        dsimp only
        rw [hTest]
        rfl

------------------------------------------------------------
-- Looks
------------------------------------------------------------

/- The members of a node which decide what it is flagged for. -/
def inspected : List Text :=
  [ ascii "expression", ascii "functionName", ascii "memberName",
    ascii "name", ascii "nodeType", ascii "typeDescriptions",
    ascii "typeString" ]

/- Values which make no difference to a node which has them inside. -/
structure Looks (i j : Json) : Prop where
  string : i.string? = j.string?
  nodeType :
    memberText (ascii "nodeType") i = memberText (ascii "nodeType") j
  name : memberText (ascii "name") i = memberText (ascii "name") j
  typeString :
    memberText (ascii "typeString") i =
      memberText (ascii "typeString") j
  type : typeText i = typeText j

theorem looks_refl
    (j : Json) :
    Looks j j := by
  exact ⟨rfl, rfl, rfl, rfl, rfl⟩

section Members

variable {i j : Json} {name : Text}

theorem memberText_congr
    (hSame : Option.Rel Looks (i.member? name) (j.member? name)) :
    memberText name i = memberText name j := by
  unfold memberText
  generalize i.member? name = x, j.member? name = y at hSame ⊢
  cases hSame with
  | none => rfl
  | some hLooks =>
      rw [Option.bind_some, Option.bind_some, hLooks.string]

theorem looks_inner
    (hSame : Option.Rel Looks (i.member? name) (j.member? name)) :
    Looks (inner name i) (inner name j) := by
  unfold inner
  generalize i.member? name = x, j.member? name = y at hSame ⊢
  cases hSame with
  | none => exact looks_refl .null
  | some hLooks => exact hLooks

theorem isIdentifier_congr
    (hLooks : Looks i j) :
    isIdentifier name i = isIdentifier name j := by
  unfold isIdentifier
  rw [hLooks.nodeType, hLooks.name]

end Members

section Objects

variable
  {members members' : List (Text × Json)}
  (hSame : ∀ name ∈ inspected,
    Option.Rel Looks ((Json.obj members).member? name)
      ((Json.obj members').member? name))

include hSame

theorem looks_obj :
    Looks (.obj members) (.obj members') where
  string := rfl
  nodeType := memberText_congr (hSame _ (by decide))
  name := memberText_congr (hSame _ (by decide))
  typeString := memberText_congr (hSame _ (by decide))
  type := by
    have hTypes :=
      looks_inner (hSame (ascii "typeDescriptions") (by decide))
    exact hTypes.typeString

theorem ofNode?_congr :
    ofNode? (.obj members) = ofNode? (.obj members') := by
  have hType := (looks_obj hSame).nodeType
  have hMember :
      memberText (ascii "memberName") (.obj members) =
        memberText (ascii "memberName") (.obj members') :=
    memberText_congr (hSame _ (by decide))
  have hExpression :
      Looks (inner (ascii "expression") (.obj members))
        (inner (ascii "expression") (.obj members')) :=
    looks_inner (hSame _ (by decide))
  have hFunction :
      Looks (inner (ascii "functionName") (.obj members))
        (inner (ascii "functionName") (.obj members')) :=
    looks_inner (hSame _ (by decide))
  have hAccess :
      ofMemberAccess? (.obj members) =
        ofMemberAccess? (.obj members') := by
    unfold ofMemberAccess?
    dsimp only
    rw [hMember, hExpression.type, isIdentifier_congr hExpression]
  have hCall :
      ofFunctionCall? (.obj members) =
        ofFunctionCall? (.obj members') := by
    unfold ofFunctionCall?
    rw [isIdentifier_congr hExpression]
  have hInline :
      ofYulFunctionCall? (.obj members) =
        ofYulFunctionCall? (.obj members') := by
    unfold ofYulFunctionCall?
    rw [hFunction.name]
  unfold ofNode?
  rw [hType, hAccess, hCall, hInline]

end Objects

end Finding

end ContractLinker
