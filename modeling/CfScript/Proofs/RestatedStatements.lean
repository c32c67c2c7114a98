import CfScript.Proofs.BuiltStatements
import CfScript.Proofs.Restated
import CfScript.Proofs.Unwrapped

/-!
# Building control flow back

The tree of a statement is built into a statement that says the same. As for expressions there is one
lemma for each form: if the parts of a node restate the parts of a statement, then the node restates
the statement. A `then` branch may stand in braces or not.

## Main results

* `restatesStatement_if`, `restatesStatement_for`, ...: the nodes of statements;
* `restatesThen_braced`: an open `then` branch in braces;
* `returns_script`: the root of a script of one statement.
-/

namespace CfScript

open Build CfScript.Tree

/-- The tree is a statement and is built into one that restates another. -/
structure Tree.RestatesStatement (T : Tree) (s : Statement) : Prop where
  isStatement : T.isStatement = true
  isEmpty : T.isNode .emptyStatement = false
  builds : (Build.statement T).Returns (·.Restates s)

/-- The tree is a statement and is built into one that restates another as a `then` branch. -/
structure Tree.RestatesThen (T : Tree) (s : Statement) : Prop where
  isStatement : T.isStatement = true
  builds : (Build.statement T).Returns (·.RestatesThen s)

/-- The tree declares a variable as a statement does. -/
structure Tree.RestatesDeclaration (T : Tree) (s : Statement) : Prop where
  isNode : T.isNode .varStatement = true
  builds : (Build.statement T).Returns fun s' => s'.bare.unplaced = s.bare.unplaced

variable {T U V W : Tree} {T? U? V? : Option Tree} {trees cs : List Tree} {ss : List Statement}
  {s t : Statement} {s? : Option Statement} {condition collection value : Expression}
  {condition? update? : Option Expression} {id : Identifier} {span span' : Span}
  {c d e k o v w x : Token}

theorem Tree.RestatesStatement.of_branch {rule : Rule} (hRule : rule.isStatement = true)
    (hEmpty : rule ≠ .emptyStatement)
    (h : (Build.branchStatement (.ofNode rule cs)).Returns (·.Restates s)) :
    (Tree.node rule cs).RestatesStatement s where
  isStatement := hRule
  isEmpty := by simpa using hEmpty
  builds := by
    rw [Build.statement, Reading.statement_ofTree_node]
    exact h

/-! ## Jumps -/

theorem restatesStatement_break :
    (Tree.node .breakStatement cs).RestatesStatement (.breakLoop span) :=
  .of_branch rfl (by decide) (returns_pure rfl)

theorem restatesStatement_continue :
    (Tree.node .continueStatement cs).RestatesStatement (.continueLoop span) :=
  .of_branch rfl (by decide) (returns_pure rfl)

/-- A `return` without a value. -/
theorem restatesStatement_return (hk : k.kind = .keyword .return_) (hd : d.kind = .symbol .semicolon) :
    (Tree.node .returnStatement [.token k, .token d]).RestatesStatement (.returnValue none span) := by
  have hOps : Branch.valued [.token k, .token d] = [.token k] := by
    rw [Branch.valued_keyword hk, Branch.valued_skip hd (by decide), Branch.valued_nil]
  refine .of_branch rfl (by decide) ?_
  change (Build.valueAfterKeyword _ >>= fun value? => pure (Statement.returnValue value? _)).Returns _
  rw [Build.valueAfterKeyword, Branch.operands_ofNode, hOps]
  exact returns_pure rfl

/-! ## Branches -/

theorem Tree.RestatesStatement.restatesThen (h : T.RestatesStatement s) : T.RestatesThen s where
  isStatement := h.isStatement
  builds := by
    intro rules log
    obtain ⟨s', hRun, hs⟩ := h.builds rules log
    exact ⟨s', hRun, hs.restatesThen⟩

theorem restatesStatement_if (hk : k.kind = .keyword .if_) (ho : o.kind = .symbol .lParen)
    (hc : c.kind = .symbol .rParen) (hCondition : T.Restates condition) (hThen : U.RestatesThen s) :
    (Tree.node .ifStatement [.token k, .token o, T, .token c, U]).RestatesStatement
      (.branch condition s none span) := by
  refine .of_branch rfl (by decide) ?_
  rw [branching_ofNode hk ho hCondition.isExpression hc hThen.isStatement]
  exact hCondition.builds.bind fun x hx => hThen.builds.bind fun y hy =>
    returns_pure (Statement.restates_branch hx hy)

theorem restatesStatement_ifElse (hk : k.kind = .keyword .if_) (ho : o.kind = .symbol .lParen)
    (hc : c.kind = .symbol .rParen) (he : e.kind = .keyword .else_)
    (hCondition : T.Restates condition) (hThen : U.RestatesThen s) (hElse : V.RestatesStatement t) :
    (Tree.node .ifStatement [.token k, .token o, T, .token c, U, .token e, V]).RestatesStatement
      (.branch condition s (some t) span) := by
  refine .of_branch rfl (by decide) ?_
  rw [branching_else_ofNode hk ho hCondition.isExpression hc hThen.isStatement he hElse.isStatement]
  exact hCondition.builds.bind fun x hx => hThen.builds.bind fun y hy => hElse.builds.bind fun z hz =>
    returns_pure (Statement.restates_branch_else hx hy hz)

/-! ## Loops -/

theorem restatesStatement_while (hk : k.kind = .keyword .while_) (ho : o.kind = .symbol .lParen)
    (hc : c.kind = .symbol .rParen) (hCondition : T.Restates condition)
    (hBody : U.RestatesStatement s) :
    (Tree.node .whileStatement [.token k, .token o, T, .token c, U]).RestatesStatement
      (.whileLoop condition s span) := by
  refine .of_branch rfl (by decide) ?_
  rw [whileLoop_ofNode hk ho hCondition.isExpression hc hBody.isStatement]
  exact hCondition.builds.bind fun x hx => hBody.builds.bind fun y hy =>
    returns_pure (Statement.restates_whileLoop hx hy)

theorem restatesStatement_do (hk : k.kind = .keyword .do_) (hw : w.kind = .keyword .while_)
    (ho : o.kind = .symbol .lParen) (hc : c.kind = .symbol .rParen) (hd : d.kind = .symbol .semicolon)
    (hBody : U.RestatesStatement s) (hCondition : T.Restates condition) :
    (Tree.node .doWhileStatement
      [.token k, U, .token w, .token o, T, .token c, .token d]).RestatesStatement
        (.doLoop s condition span) := by
  have hEnds : Branch.valued [.token d] = [] := Branch.valued_skip hd (by decide)
  refine .of_branch rfl (by decide) ?_
  rw [doLoop_ofNode hk hBody.isStatement hw ho hCondition.isExpression hc hEnds]
  exact hBody.builds.bind fun x hx => hCondition.builds.bind fun y hy =>
    returns_pure (Statement.restates_doLoop hx hy)

theorem Tree.RestatesDeclaration.of_branch
    (h : (Build.branchStatement (.ofNode .varStatement cs)).Returns fun s' =>
      s'.bare.unplaced = s.bare.unplaced) :
    (Tree.node .varStatement cs).RestatesDeclaration s where
  isNode := rfl
  builds := by
    rw [Build.statement, Reading.statement_ofTree_node]
    exact h

theorem restatesDeclaration (hv : v.kind = .keyword .var) (hx : x.kind.isWord = true)
    (hText : x.lexeme = id.name) :
    (Tree.node .varStatement [.token v, .token x]).RestatesDeclaration (.declare id none span) := by
  refine .of_branch ?_
  rw [declaration_ofNode hv hx Branch.valued_nil]
  refine returns_pure ?_
  simp [Statement.bare, bareExpression?, Statement.unplaced, wordIdentifier, Identifier.unplaced, hText]

theorem restatesDeclaration_value (hv : v.kind = .keyword .var) (hx : x.kind.isWord = true)
    (hText : x.lexeme = id.name) (he : e.kind = .symbol .assign) (h : T.Restates value) :
    (Tree.node .varStatement [.token v, .token x, .token e, T]).RestatesDeclaration
      (.declare id (some value) span) := by
  refine .of_branch ?_
  rw [declaration_value_ofNode hv hx he h.isExpression Branch.valued_nil]
  refine h.builds.bind fun y hy => returns_pure ?_
  simp only [Statement.bare, bareExpression?, Statement.unplaced, unplacedExpression?, wordIdentifier,
    Identifier.unplaced, hText, show _ = _ from hy]

theorem returns_start (h : Option.Rel Tree.RestatesDeclaration T? s?) :
    (Build.optional loopStart (T?.map Reading.ofTree)).Returns fun start? =>
      unplacedStatement? (bareStatement? start?) = unplacedStatement? (bareStatement? s?) := by
  cases h with
  | none => exact returns_pure rfl
  | @some T s hStart =>
    obtain ⟨cs, rfl⟩ := isNode_iff.1 hStart.isNode
    have hOptional : Build.optional loopStart ((some (Tree.node .varStatement cs)).map Reading.ofTree) =
        some <$> Build.statement (.node .varStatement cs) := by
      rw [Option.map_some, Build.optional, loopStart, if_pos (Reading.rule?_node .varStatement cs)]
      rfl
    rw [hOptional, map_eq_pure_bind]
    exact hStart.builds.bind fun s' hs => returns_pure (congrArg some hs)

theorem returns_clause (h : Option.Rel Tree.Restates T? condition?) :
    (Build.optional Reading.expression (T?.map Reading.ofTree)).Returns fun e? =>
      unplacedExpression? (bareExpression? e?) = unplacedExpression? (bareExpression? condition?) := by
  cases h with
  | none => exact returns_pure rfl
  | @some T e hClause =>
    have hOptional : Build.optional Reading.expression ((some T).map Reading.ofTree) =
        some <$> Build.expression T := rfl
    rw [hOptional, map_eq_pure_bind]
    exact hClause.builds.bind fun e' he => returns_pure (congrArg some he)

theorem clause_of_restates (h : Option.Rel Tree.Restates T? condition?) : ∀ T ∈ T?, Clause T := by
  cases h with
  | none => nofun
  | some hClause =>
    rintro T ⟨⟩
    exact clause_of_isExpression hClause.isExpression

theorem clause_of_restatesDeclaration (h : Option.Rel Tree.RestatesDeclaration T? s?) :
    ∀ T ∈ T?, Clause T := by
  cases h with
  | none => nofun
  | some hStart =>
    rintro T ⟨⟩
    obtain ⟨cs, rfl⟩ := isNode_iff.1 hStart.isNode
    exact clause_node .varStatement cs

theorem restatesStatement_for (hd : d.kind = .symbol .semicolon) (he : e.kind = .symbol .semicolon)
    (hc : c.kind = .symbol .rParen) (hStart : Option.Rel Tree.RestatesDeclaration T? s?)
    (hTest : Option.Rel Tree.Restates U? condition?) (hUpdate : Option.Rel Tree.Restates V? update?)
    (hBody : W.RestatesStatement s) :
    (Tree.node .forStatement (.token k :: .token o :: (T?.toList ++ .token d ::
      (U?.toList ++ .token e :: (V?.toList ++ [.token c, W]))))).RestatesStatement
        (.forLoop s? condition? update? s span) := by
  refine .of_branch rfl (by decide) ?_
  rw [forLoop_ofNode rfl hd he hc (clause_of_restatesDeclaration hStart) (clause_of_restates hTest)
    (clause_of_restates hUpdate)]
  exact (returns_start hStart).bind fun x hx => (returns_clause hTest).bind fun y hy =>
    (returns_clause hUpdate).bind fun z hz => hBody.builds.bind fun s' hs =>
      returns_pure (Statement.restates_forLoop hx hy hz hs)

theorem restatesStatement_forIn (hk : k.kind = .keyword .for_) (ho : o.kind = .symbol .lParen)
    (hw : w.kind = .keyword .in_) (hc : c.kind = .symbol .rParen) (hTarget : T.Restates value)
    (hCollection : U.Restates collection) (hBody : V.RestatesStatement s) :
    (Tree.node .forInStatement
      [.token k, .token o, T, .token w, U, .token c, V]).RestatesStatement
        (.eachLoop false value collection s span) := by
  refine .of_branch rfl (by decide) ?_
  rw [eachLoop_ofNode hk ho hTarget.isExpression hw hCollection.isExpression hc hBody.isStatement]
  exact hTarget.builds.bind fun x hx => hCollection.builds.bind fun y hy =>
    hBody.builds.bind fun z hz => returns_pure (Statement.restates_eachLoop false hx hy hz)

theorem restatesStatement_forVarIn (hk : k.kind = .keyword .for_) (ho : o.kind = .symbol .lParen)
    (hv : v.kind = .keyword .var) (hw : w.kind = .keyword .in_) (hc : c.kind = .symbol .rParen)
    (hTarget : T.Restates value) (hCollection : U.Restates collection)
    (hBody : V.RestatesStatement s) :
    (Tree.node .forInStatement
      [.token k, .token o, .token v, T, .token w, U, .token c, V]).RestatesStatement
        (.eachLoop true value collection s span) := by
  refine .of_branch rfl (by decide) ?_
  rw [eachLoop_var_ofNode hk ho hv hTarget.isExpression hw hCollection.isExpression hc
    hBody.isStatement]
  exact hTarget.builds.bind fun x hx => hCollection.builds.bind fun y hy =>
    hBody.builds.bind fun z hz => returns_pure (Statement.restates_eachLoop true hx hy hz)

/-! ## Lists of statements -/

/-- Statements are built in order, up to the token behind them. -/
theorem returns_statements (h : List.Forall₂ Tree.RestatesStatement trees ss) (c : Token) :
    (Build.statements ((trees ++ [Tree.token c]).map Reading.ofTree)).Returns
      (List.Forall₂ Statement.Restates · ss) := by
  induction h with
  | nil => exact returns_pure .nil
  | @cons T s trees ss hHead _ ih =>
    obtain ⟨rule, cs, rfl, hEmpty⟩ : ∃ rule cs, T = .node rule cs ∧ rule ≠ .emptyStatement := by
      cases T with
      | leaf l => exact absurd hHead.isStatement Bool.false_ne_true
      | node rule cs => exact ⟨rule, cs, rfl, by simpa using hHead.isEmpty⟩
    rw [List.cons_append, statements_node hEmpty]
    refine (hHead.builds.orLeaveOut rule _).bind fun s? hs => ?_
    obtain ⟨s', rfl, hs⟩ := hs
    exact ih.bind fun ss' hss => returns_pure (.cons hs hss)

theorem restatesStatement_block (h : List.Forall₂ Tree.RestatesStatement trees ss) :
    (Tree.node .block ([.token o] ++ trees ++ [.token c])).RestatesStatement (.block ss span) := by
  refine .of_branch rfl (by decide) ?_
  change (Build.statements (Branch.ofNode _ _).parts >>= fun body =>
    pure (Statement.block body _)).Returns _
  rw [Branch.parts_ofNode, List.append_assoc, List.singleton_append, List.map_cons]
  exact (returns_statements h c).bind fun body hBody => returns_pure (Statement.restates_block hBody)

/-- An open `then` branch in braces. -/
theorem restatesThen_braced (h : T.RestatesStatement s) (hOpen : Layout.endsWithOpenIf s = true) :
    (Tree.node .block [.token o, T, .token c]).RestatesThen s where
  isStatement := rfl
  builds := by
    rw [Build.statement, Reading.statement_ofTree_node]
    refine (returns_statements (.cons h .nil) c).bind fun body hBody => returns_pure ?_
    cases hBody with
    | cons hHead hTail =>
      cases hTail
      exact .braced hHead hOpen _

/-- The root of a script of one statement. -/
theorem returns_script (h : T.RestatesStatement s) (last : Token) :
    (Build.root (.node .scriptBlock [T, .token last])).Returns fun s? =>
      ∃ s' : Statement, s'.Restates s ∧ s? = some s' := by
  change (Build.wholeScript _ _).Returns _
  rw [Build.wholeScript, Reading.parts_ofTree]
  refine (returns_statements (.cons h .nil) last).bind fun body hBody => ?_
  cases hBody with
  | @cons s' s _ _ hHead hTail =>
    cases hTail
    exact returns_pure ⟨s', hHead, rfl⟩

end CfScript
