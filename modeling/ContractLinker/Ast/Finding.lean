import ContractLinker.Ast.Location

/-
  Analysis of syntax trees. A finding is a node which is
  likely to behave differently on the target, told from its
  own members; the diagnostics of a tree are those of all
  its findings, a node before the nodes inside it.

  Key definitions include:
    * `Finding`
    * `Finding.message`
    * `Finding.ofNode?`
    * `Finding.diagnostic`
    * `Ast.diagnostics`
-/

------------------------------------------------------------
-- Findings
------------------------------------------------------------

namespace ContractLinker

/- A use of a feature which the target treats differently. -/
inductive Finding where
  | fixedStipend (function : Text)
  | transactionOrigin
  | signatureRecovery
  | codeSize
  | inlineOrigin
deriving DecidableEq, Repr

namespace Finding

/- The warning about a finding. -/
def message : Finding → Text
  | .fixedStipend function =>
      ascii "You are using '<address payable>." ++ function ++
        ascii
          ("(<X>)' with a fixed gas stipend. " ++
            "Gas costs differ on this target, so the call may run out of gas. " ++
            "Use '<address payable>.call\x7bvalue: <X>\x7d(\"\")' instead " ++
            "and guard the function against reentrancy.")
  | .transactionOrigin =>
      ascii
        ("You are checking for 'tx.origin' in your code, " ++
          "which might lead to unexpected behavior. " ++
          "With native account abstraction the origin may be a contract account.")
  | .signatureRecovery =>
      ascii
        ("It looks like you are using 'ecrecover' to validate " ++
          "a signature of a user account. " ++
          "Accounts may implement other signature schemes, so prefer " ++
          "a validation which also supports contract accounts (EIP-1271).")
  | .codeSize =>
      ascii
        ("Your code or one of its dependencies uses the 'extcodesize' instruction, " ++
          "which is usually needed to tell contracts from externally owned accounts. " ++
          "Every account may have code on this target, so such a check is not reliable.")
  | .inlineOrigin =>
      ascii
        ("You are checking for 'origin()' in your inline assembly, " ++
          "which might lead to unexpected behavior. " ++
          "With native account abstraction the origin may be a contract account.")

------------------------------------------------------------
-- Nodes
------------------------------------------------------------

/- The text of a member which is a string, or nothing. -/
def memberText (name : Text) (node : Json) : Text :=
  ((node.member? name).bind Json.string?).getD []

/- The inner node under a name, `null` if there is none. -/
def inner (name : Text) (node : Json) : Json :=
  (node.member? name).getD .null

/- The type which the compiler found for an expression. -/
def typeText (expression : Json) : Text :=
  memberText (ascii "typeString")
    (inner (ascii "typeDescriptions") expression)

/- Whether a node is the identifier of a given name. -/
def isIdentifier (name : Text) (node : Json) : Bool :=
  memberText (ascii "nodeType") node = ascii "Identifier" &&
    memberText (ascii "name") node = name

/- The finding at a member access. -/
def ofMemberAccess? (node : Json) : Option Finding :=
  let member := memberText (ascii "memberName") node
  let expression := inner (ascii "expression") node
  if (member = ascii "send" || member = ascii "transfer") &&
      (ascii "address").isPrefixOf (typeText expression) then
    some (.fixedStipend member)
  else if member = ascii "origin" &&
      isIdentifier (ascii "tx") expression then
    some .transactionOrigin
  else
    none

/- The finding at a function call. -/
def ofFunctionCall? (node : Json) : Option Finding :=
  if isIdentifier (ascii "ecrecover")
      (inner (ascii "expression") node) then
    some .signatureRecovery
  else
    none

/- The finding at a function call of inline assembly. -/
def ofYulFunctionCall? (node : Json) : Option Finding :=
  let name :=
    memberText (ascii "name") (inner (ascii "functionName") node)
  if name = ascii "extcodesize" then
    some .codeSize
  else if name = ascii "origin" then
    some .inlineOrigin
  else
    none

/- The finding at a node, if there is one. -/
def ofNode? (node : Json) : Option Finding :=
  let nodeType := memberText (ascii "nodeType") node
  if nodeType = ascii "MemberAccess" then
    ofMemberAccess? node
  else if nodeType = ascii "FunctionCall" then
    ofFunctionCall? node
  else if nodeType = ascii "YulFunctionCall" then
    ofYulFunctionCall? node
  else
    none

/- The diagnostic for a finding, at the place of its node. -/
def diagnostic (finding : Finding) (node : Json) :
    Except AstError Diagnostic :=
  let span := memberText (ascii "src") node
  if span.isEmpty then
    .error (.noLocation (memberText (ascii "nodeType") node))
  else
    (SourceLocation.ofSpan span).map fun location =>
      .warning finding.message (some location)

end Finding

------------------------------------------------------------
-- Trees
------------------------------------------------------------

namespace Ast

/- The diagnostics which a node gives rise to by itself. -/
def ownDiagnostics (node : Json) :
    Except AstError (List Diagnostic) :=
  match Finding.ofNode? node with
  | none => .ok []
  | some finding => (finding.diagnostic node).map fun d => [d]

/- Two lists of diagnostics behind one another, the first failure counting. -/
def append (first second : Except AstError (List Diagnostic)) :
    Except AstError (List Diagnostic) := do
  let ds ← first
  let es ← second
  return ds ++ es

mutual

/- The diagnostics of a tree, in the order of its nodes. -/
def diagnostics : Json → Except AstError (List Diagnostic)
  | .arr items => itemDiagnostics items
  | .obj members =>
      append (ownDiagnostics (.obj members))
        (memberDiagnostics members)
  | .null | .bool _ | .int _ | .double _ | .str _ => .ok []
termination_by structural j => j

/- The diagnostics of the elements of an array. -/
def itemDiagnostics :
    List Json → Except AstError (List Diagnostic)
  | [] => .ok []
  | j :: js => append (diagnostics j) (itemDiagnostics js)
termination_by structural js => js

/- The diagnostics of the members of an object. -/
def memberDiagnostics :
    List (Text × Json) → Except AstError (List Diagnostic)
  | [] => .ok []
  | (_, j) :: ms => append (diagnostics j) (memberDiagnostics ms)
termination_by structural ms => ms

end

end Ast

end ContractLinker
