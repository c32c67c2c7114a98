import CfScript.Proofs.BuiltExpressions

/-!
# Statements are built

Every rule for statements gives a statement of parts that are built, which stands in the same place
and holds what the tree keeps. Where a build looks for a part among those that may hold a value, the
marks around it are passed over; so the marks at the end of a statement, of which there may be none or
more than one, make no difference.

## Main results

* `builds_forStatement`, `builds_switchStatement`, `builds_functionDeclaration`: the rules with the
  most shapes;
* `buildsStatement_node`: all rules for statements.
-/

namespace CfScript

open Build CfScript.Tree

/-- A statement that holds what all parts of its node keep. -/
theorem Tree.BuildsStatement.of_parts {rule : Rule} {cs : List Tree}
    (hRule : rule.isPlain = true)
    (h : (Build.branchStatement (.ofNode rule cs)).Gives fun s =>
      s.held = cs.flatMap kept ∧ s.span = (Tree.node rule cs).span ∧ s.rule = rule) :
    (Tree.node rule cs).BuildsStatement := by
  refine .of_branch (h.imp fun s hs => ?_)
  obtain ⟨hHeld, hSpan, hSame⟩ := hs
  exact ⟨by rw [hHeld, kept_node hRule], hSpan, .inr (by rw [hSame]; rfl)⟩

/-! ## Parts that may hold a value -/

namespace Branch

variable {ts : List Tree}

@[simp] theorem valued_nil : valued [] = [] := rfl

theorem valued_skip {u : Token} {k : TokenKind} (h : u.kind = k)
    (hk : k ∈ Reading.fillers) : valued (.token u :: ts) = valued ts := by
  simp [valued, h, hk]

theorem valued_keep {u : Token} {k : TokenKind} (h : u.kind = k)
    (hk : k ∉ Reading.fillers) : valued (.token u :: ts) = .token u :: valued ts := by
  simp [valued, h, hk]

theorem valued_word {u : Token} (h : u.kind.isWord = true) :
    valued (.token u :: ts) = .token u :: valued ts :=
  valued_keep rfl (Reading.not_fillers_of_isWord h)

theorem valued_keyword {u : Token} {k : Keyword} (h : u.kind = .keyword k) :
    valued (.token u :: ts) = .token u :: valued ts :=
  valued_word (by rw [h]; rfl)

theorem valued_node {rule : Rule} {cs : List Tree} :
    valued (.node rule cs :: ts) = .node rule cs :: valued ts := by
  simp [valued]

theorem valued_expression {t : Tree} (h : t.isExpression = true) :
    valued (t :: ts) = t :: valued ts := by
  simp [valued, isFiller_of_isExpression h]

theorem valued_statement {t : Tree} (h : t.isStatement = true) :
    valued (t :: ts) = t :: valued ts := by
  cases t with
  | node rule cs => exact valued_node
  | leaf l => cases h

/-- The parentheses around a condition are passed over. -/
theorem valued_condition {l r : Token} {c : Tree} (hl : l.kind = .symbol .lParen)
    (hc : c.isExpression = true) (hr : r.kind = .symbol .rParen) :
    valued (.token l :: c :: .token r :: ts) = c :: valued ts := by
  rw [valued_skip hl (by decide), valued_expression hc, valued_skip hr (by decide)]

end Branch

theorem Parts.valued_ending {ts : List Tree} (h : Parts .ending ts) : Branch.valued ts = [] := by
  refine List.filter_eq_nil_iff.2 fun t ht => ?_
  obtain ⟨u, rfl, hu⟩ := h.ending t ht
  simp [hu, Reading.fillers]

theorem Parts.kept_ending {ts : List Tree} (h : Parts .ending ts) : ts.flatMap kept = [] :=
  flatMap_kept_tokens fun t ht => by
    obtain ⟨u, rfl, -⟩ := h.ending t ht
    exact ⟨u, rfl⟩

/-! ## What a branch or a loop is built of -/

section

variable {k l r v w x : Token} {c s t : Tree} {ends : List Tree}

/-- A declaration without a value. -/
theorem declaration_ofNode (hv : v.kind = .keyword .var) (hx : x.kind.isWord = true)
    (hEnds : Branch.valued ends = []) :
    branchStatement (.ofNode .varStatement (.token v :: .token x :: ends)) =
      pure (.declare (wordIdentifier x) none
        (Tree.node .varStatement (.token v :: .token x :: ends)).span) := by
  have hOps : Branch.valued (.token v :: .token x :: ends) = [.token v, .token x] := by
    rw [Branch.valued_keyword hv, Branch.valued_word hx, hEnds]
  change Build.declaration _ = _
  rw [Build.declaration, Branch.operand_ofNode (by rw [hOps]; rfl), pure_bind, identifier_token _ hx,
    pure_bind, Branch.operands_ofNode, hOps]
  rfl

/-- A declaration with a value. -/
theorem declaration_value_ofNode (hv : v.kind = .keyword .var) (hx : x.kind.isWord = true)
    (hw : w.kind = .symbol .assign) (hc : c.isExpression = true) (hEnds : Branch.valued ends = []) :
    branchStatement (.ofNode .varStatement (.token v :: .token x :: .token w :: c :: ends)) = do
      let value ← Build.expression c
      return .declare (wordIdentifier x) (some value)
        (Tree.node .varStatement (.token v :: .token x :: .token w :: c :: ends)).span := by
  have hOps : Branch.valued (.token v :: .token x :: .token w :: c :: ends) =
      [.token v, .token x, .token w, c] := by
    rw [Branch.valued_keyword hv, Branch.valued_word hx, Branch.valued_keep hw (by decide),
      Branch.valued_expression hc, hEnds]
  change Build.declaration _ = _
  rw [Build.declaration, Branch.operand_ofNode (by rw [hOps]; rfl), pure_bind, identifier_token _ hx,
    pure_bind, Branch.operands_ofNode, hOps, if_pos (by simp [Reading.isToken, hw]),
    Branch.operandExpression_ofNode (by rw [hOps]; rfl), bind_map_left]
  rfl

/-- A branch without `else`. -/
theorem branching_ofNode (hk : k.kind = .keyword .if_) (hl : l.kind = .symbol .lParen)
    (hc : c.isExpression = true) (hr : r.kind = .symbol .rParen) (hs : s.isStatement = true) :
    branchStatement (.ofNode .ifStatement [.token k, .token l, c, .token r, s]) = do
      let condition ← Build.expression c
      let thenBranch ← Build.statement s
      return .branch condition thenBranch none
        (Tree.node .ifStatement [.token k, .token l, c, .token r, s]).span := by
  have hOps : Branch.valued [.token k, .token l, c, .token r, s] = [.token k, c, s] := by
    rw [Branch.valued_keyword hk, Branch.valued_condition hl hc hr, Branch.valued_statement hs,
      Branch.valued_nil]
  change Build.branching _ = _
  rw [Build.branching, Branch.operandExpression_ofNode (by rw [hOps]; rfl),
    Branch.operandStatement_ofNode (by rw [hOps]; rfl), Branch.operands_ofNode, hOps]
  rfl

/-- A branch with `else`. -/
theorem branching_else_ofNode (hk : k.kind = .keyword .if_) (hl : l.kind = .symbol .lParen)
    (hc : c.isExpression = true) (hr : r.kind = .symbol .rParen) (hs : s.isStatement = true)
    (hw : w.kind = .keyword .else_) (ht : t.isStatement = true) :
    branchStatement (.ofNode .ifStatement [.token k, .token l, c, .token r, s, .token w, t]) = do
      let condition ← Build.expression c
      let thenBranch ← Build.statement s
      let elseBranch ← Build.statement t
      return .branch condition thenBranch (some elseBranch)
        (Tree.node .ifStatement [.token k, .token l, c, .token r, s, .token w, t]).span := by
  have hOps : Branch.valued [.token k, .token l, c, .token r, s, .token w, t] =
      [.token k, c, s, .token w, t] := by
    rw [Branch.valued_keyword hk, Branch.valued_condition hl hc hr, Branch.valued_statement hs,
      Branch.valued_keyword hw, Branch.valued_statement ht, Branch.valued_nil]
  have hElse : ([.token k, c, s, .token w, t].map Reading.ofTree)[3]?.any
      (·.isToken (.keyword .else_)) = true := by simp [Reading.isToken, hw]
  have hLast : (Branch.ofNode .ifStatement
      [.token k, .token l, c, .token r, s, .token w, t]).operandStatement 4 = Build.statement t :=
    Branch.operandStatement_ofNode (by rw [hOps]; rfl)
  change Build.branching _ = _
  rw [Build.branching, Branch.operandExpression_ofNode (by rw [hOps]; rfl),
    Branch.operandStatement_ofNode (by rw [hOps]; rfl), Branch.operands_ofNode, hOps]
  simp only [hElse, if_true, hLast, bind_map_left]
  rfl

/-- A `while`. -/
theorem whileLoop_ofNode (hk : k.kind = .keyword .while_) (hl : l.kind = .symbol .lParen)
    (hc : c.isExpression = true) (hr : r.kind = .symbol .rParen) (hs : s.isStatement = true) :
    branchStatement (.ofNode .whileStatement [.token k, .token l, c, .token r, s]) = do
      let condition ← Build.expression c
      let body ← Build.statement s
      return .whileLoop condition body
        (Tree.node .whileStatement [.token k, .token l, c, .token r, s]).span := by
  have hOps : Branch.valued [.token k, .token l, c, .token r, s] = [.token k, c, s] := by
    rw [Branch.valued_keyword hk, Branch.valued_condition hl hc hr, Branch.valued_statement hs,
      Branch.valued_nil]
  change ((Branch.ofNode _ _).operandExpression 1 >>= fun x =>
    (Branch.ofNode _ _).operandStatement 2 >>= fun y => pure (Statement.whileLoop x y _)) = _
  rw [Branch.operandExpression_ofNode (by rw [hOps]; rfl),
    Branch.operandStatement_ofNode (by rw [hOps]; rfl)]
  rfl

/-- A `do` with its `while`. -/
theorem doLoop_ofNode (hk : k.kind = .keyword .do_) (hs : s.isStatement = true)
    (hw : w.kind = .keyword .while_) (hl : l.kind = .symbol .lParen) (hc : c.isExpression = true)
    (hr : r.kind = .symbol .rParen) (hEnds : Branch.valued ends = []) :
    branchStatement (.ofNode .doWhileStatement
        (.token k :: s :: .token w :: .token l :: c :: .token r :: ends)) = do
      let body ← Build.statement s
      let condition ← Build.expression c
      return .doLoop body condition (Tree.node .doWhileStatement
        (.token k :: s :: .token w :: .token l :: c :: .token r :: ends)).span := by
  have hOps : Branch.valued (.token k :: s :: .token w :: .token l :: c :: .token r :: ends) =
      [.token k, s, .token w, c] := by
    rw [Branch.valued_keyword hk, Branch.valued_statement hs, Branch.valued_keyword hw,
      Branch.valued_condition hl hc hr, hEnds]
  change Build.doLoop _ = _
  rw [Build.doLoop, Branch.operandStatement_ofNode (by rw [hOps]; rfl), Branch.operands_ofNode, hOps]
  rfl

/-- The operands of a loop over a collection, from its target on. -/
theorem valued_collection (ht : t.isExpression = true) (hw : w.kind = .keyword .in_)
    (hc : c.isExpression = true) (hr : r.kind = .symbol .rParen) (hs : s.isStatement = true) :
    Branch.valued [t, .token w, c, .token r, s] = [t, .token w, c, s] := by
  rw [Branch.valued_expression ht, Branch.valued_keyword hw, Branch.valued_expression hc,
    Branch.valued_skip hr (by decide), Branch.valued_statement hs, Branch.valued_nil]

/-- A `for` over a collection. -/
theorem eachLoop_ofNode (hk : k.kind = .keyword .for_) (hl : l.kind = .symbol .lParen)
    (ht : t.isExpression = true) (hw : w.kind = .keyword .in_) (hc : c.isExpression = true)
    (hr : r.kind = .symbol .rParen) (hs : s.isStatement = true) :
    branchStatement (.ofNode .forInStatement
        [.token k, .token l, t, .token w, c, .token r, s]) = do
      let target ← Build.expression t
      let collection ← Build.expression c
      let body ← Build.statement s
      return .eachLoop false target collection body
        (Tree.node .forInStatement [.token k, .token l, t, .token w, c, .token r, s]).span := by
  have hOps : Branch.valued [.token k, .token l, t, .token w, c, .token r, s] =
      [.token k, t, .token w, c, s] := by
    rw [Branch.valued_keyword hk, Branch.valued_skip hl (by decide), valued_collection ht hw hc hr hs]
  have hVar := isToken_of_isExpression ht (show TokenKind.keyword .var ∉ operandKinds by decide)
  change Build.eachLoop _ = _
  rw [Build.eachLoop, Branch.operands_ofNode, hOps]
  simp only [List.map_cons, List.map_nil, List.getElem?_cons_succ, List.getElem?_cons_zero,
    Option.any_some, hVar, Bool.false_eq_true, if_false]
  simp only [Reading.isToken, Reading.token?_token, Option.any_some, hw, beq_self_eq_true, if_true]
  rw [Branch.operandExpression_ofNode (by rw [hOps]; rfl),
    Branch.operandExpression_ofNode (by rw [hOps]; rfl),
    Branch.operandStatement_ofNode (by rw [hOps]; rfl)]
  rfl

/-- A `for` over a collection that declares its target. -/
theorem eachLoop_var_ofNode (hk : k.kind = .keyword .for_) (hl : l.kind = .symbol .lParen)
    (hv : v.kind = .keyword .var) (ht : t.isExpression = true) (hw : w.kind = .keyword .in_)
    (hc : c.isExpression = true) (hr : r.kind = .symbol .rParen) (hs : s.isStatement = true) :
    branchStatement (.ofNode .forInStatement
        [.token k, .token l, .token v, t, .token w, c, .token r, s]) = do
      let target ← Build.expression t
      let collection ← Build.expression c
      let body ← Build.statement s
      return .eachLoop true target collection body (Tree.node .forInStatement
        [.token k, .token l, .token v, t, .token w, c, .token r, s]).span := by
  have hOps : Branch.valued [.token k, .token l, .token v, t, .token w, c, .token r, s] =
      [.token k, .token v, t, .token w, c, s] := by
    rw [Branch.valued_keyword hk, Branch.valued_skip hl (by decide), Branch.valued_keyword hv,
      valued_collection ht hw hc hr hs]
  change Build.eachLoop _ = _
  rw [Build.eachLoop, Branch.operands_ofNode, hOps]
  simp only [List.map_cons, List.map_nil, List.getElem?_cons_succ, List.getElem?_cons_zero,
    Option.any_some, Reading.isToken, Reading.token?_token, hv, hw, beq_self_eq_true, if_true]
  rw [Branch.operandExpression_ofNode (by rw [hOps]; rfl),
    Branch.operandExpression_ofNode (by rw [hOps]; rfl),
    Branch.operandStatement_ofNode (by rw [hOps]; rfl)]
  rfl

end

/-! ## Simple statements -/

theorem builds_emptyStatement {cs : List Tree} : (node .emptyStatement cs).BuildsStatement :=
  .of_branch (gives_pure ⟨rfl, rfl, .inl rfl⟩)

theorem builds_expressionStatement {cs : List Tree} (h : Parts Rule.expressionStatement.form cs) :
    (node .expressionStatement cs).BuildsStatement := by
  obtain ⟨e, es, rfl, he, h⟩ := h.expression
  refine .of_parts rfl ?_
  change ((Branch.ofNode _ _).childExpression 0 >>= fun x =>
    pure (Statement.expression x _)).Gives _
  rw [Branch.childExpression_ofNode rfl]
  exact he.builds.bind fun x hx => gives_pure
    ⟨by simp [Statement.held, hx, h.kept_ending], rfl, rfl⟩

theorem builds_varStatement {cs : List Tree} (h : Parts Rule.varStatement.form cs) :
    (node .varStatement cs).BuildsStatement := by
  obtain ⟨v, us, rfl, hv, h⟩ := h.kind
  obtain ⟨w, us, rfl, hw, h⟩ := h.word
  refine .of_parts rfl ?_
  rcases h.either with h | h
  · rw [declaration_ofNode hv hw h.valued_ending]
    exact gives_pure ⟨by simp [Statement.held, heldExpression?, h.kept_ending], rfl, rfl⟩
  · obtain ⟨m, us, rfl, hm, h⟩ := h.kind
    obtain ⟨e, es, rfl, he, h⟩ := h.expression
    rw [declaration_value_ofNode hv hw hm he.isExpression h.valued_ending]
    exact he.builds.bind fun x hx => gives_pure
      ⟨by simp [Statement.held, heldExpression?, hx, h.kept_ending], rfl, rfl⟩

/-- The value of a statement that may have one. -/
theorem gives_valueAfterKeyword {rule : Rule} {k : Token} {kind : TokenKind} {us : List Tree}
    (hk : k.kind = kind) (hKind : kind ∉ Reading.fillers) (h : Parts .valued us) :
    (Build.valueAfterKeyword (.ofNode rule (.token k :: us))).Gives
      (heldExpression? · = (Tree.token k :: us).flatMap kept) := by
  rcases h.either with h | h
  · have hOps : Branch.valued (.token k :: us) = [.token k] := by
      rw [Branch.valued_keep hk hKind, h.valued_ending]
    rw [Build.valueAfterKeyword, Branch.operands_ofNode, hOps]
    exact gives_pure (by simp [heldExpression?, h.kept_ending])
  · obtain ⟨e, es, rfl, he, h⟩ := h.expression
    have hOps : Branch.valued (.token k :: e :: es) = [.token k, e] := by
      rw [Branch.valued_keep hk hKind, Branch.valued_expression he.isExpression, h.valued_ending]
    rw [Build.valueAfterKeyword, Branch.operands_ofNode, hOps]
    exact he.builds.map fun x hx => by simpa [heldExpression?, h.kept_ending] using hx

theorem builds_returnStatement {cs : List Tree} (h : Parts Rule.returnStatement.form cs) :
    (node .returnStatement cs).BuildsStatement := by
  obtain ⟨k, us, rfl, hk, h⟩ := h.kind
  exact .of_parts rfl ((gives_valueAfterKeyword hk (by decide) h).bind fun x? hx? =>
    gives_pure ⟨hx?, rfl, rfl⟩)

theorem builds_throwStatement {cs : List Tree} (h : Parts Rule.throwStatement.form cs) :
    (node .throwStatement cs).BuildsStatement := by
  obtain ⟨k, us, rfl, hk, h⟩ := h.kind
  exact .of_parts rfl ((gives_valueAfterKeyword hk (by decide) h).bind fun x? hx? =>
    gives_pure ⟨hx?, rfl, rfl⟩)

theorem builds_abortStatement {cs : List Tree} (h : Parts Rule.abortStatement.form cs) :
    (node .abortStatement cs).BuildsStatement := by
  obtain ⟨k, us, rfl, hk, h⟩ := h.kind
  exact .of_parts rfl ((gives_valueAfterKeyword hk (by decide) h).bind fun x? hx? =>
    gives_pure ⟨hx?, rfl, rfl⟩)

theorem builds_breakStatement {cs : List Tree} (h : Parts Rule.breakStatement.form cs) :
    (node .breakStatement cs).BuildsStatement := by
  obtain ⟨k, us, rfl, -, h⟩ := h.kind
  exact .of_parts rfl (gives_pure ⟨by simp [Statement.held, h.kept_ending], rfl, rfl⟩)

theorem builds_continueStatement {cs : List Tree} (h : Parts Rule.continueStatement.form cs) :
    (node .continueStatement cs).BuildsStatement := by
  obtain ⟨k, us, rfl, -, h⟩ := h.kind
  exact .of_parts rfl (gives_pure ⟨by simp [Statement.held, h.kept_ending], rfl, rfl⟩)

theorem builds_includeStatement {cs : List Tree} (h : Parts Rule.includeStatement.form cs) :
    (node .includeStatement cs).BuildsStatement := by
  obtain ⟨k, us, rfl, hk, h⟩ := h.kind
  obtain ⟨e, es, rfl, he, h⟩ := h.expression
  have hOps : Branch.valued (.token k :: e :: es) = [.token k, e] := by
    rw [Branch.valued_keep hk (by decide), Branch.valued_expression he.isExpression, h.valued_ending]
  refine .of_parts rfl ?_
  change ((Branch.ofNode _ _).operandExpression 1 >>= fun x =>
    pure (Statement.includeFile x _)).Gives _
  rw [Branch.operandExpression_ofNode (by rw [hOps]; rfl)]
  exact he.builds.bind fun x hx => gives_pure
    ⟨by simp [Statement.held, hx, h.kept_ending], rfl, rfl⟩

theorem builds_importStatement {cs : List Tree} (h : Parts Rule.importStatement.form cs) :
    (node .importStatement cs).BuildsStatement := by
  obtain ⟨k, us, rfl, hk, h⟩ := h.kind
  obtain ⟨p, es, rfl, ⟨hKept, -, hFiller, hPath⟩, h⟩ := h.path "import path"
  have hOps : Branch.valued (.token k :: p :: es) = [.token k, p] := by
    have hStep : Branch.valued (p :: es) = p :: Branch.valued es := by simp [Branch.valued, hFiller]
    rw [Branch.valued_keyword hk, hStep, h.valued_ending]
  refine .of_parts rfl ?_
  change ((Branch.ofNode _ _).operand 1 >>= fun r =>
    Build.path "import path" r >>= fun x => pure (Statement.importPath x _)).Gives _
  rw [Branch.operand_ofNode (by rw [hOps]; rfl), pure_bind]
  exact hPath.bind fun x _ => gives_pure
    ⟨by simp [Statement.held, hKept, h.kept_ending], rfl, rfl⟩

/-! ## Branches and loops -/

/-- A condition in parentheses. -/
theorem Parts.condition {next : Form} {ts : List Tree} (h : Parts (.condition next) ts) :
    ∃ l e r us, ts = .token l :: e :: .token r :: us ∧ l.kind = .symbol .lParen ∧ Operand e ∧
      r.kind = .symbol .rParen ∧ Parts next us := by
  obtain ⟨l, us, rfl, hl, h⟩ := h.kind
  obtain ⟨e, us, rfl, he, h⟩ := h.expression
  obtain ⟨r, us, rfl, hr, h⟩ := h.kind
  exact ⟨l, e, r, us, rfl, hl, he, hr, h⟩

theorem builds_ifStatement {cs : List Tree} (h : Parts Rule.ifStatement.form cs) :
    (node .ifStatement cs).BuildsStatement := by
  obtain ⟨k, us, rfl, hk, h⟩ := h.kind
  obtain ⟨l, c, r, us, rfl, hl, hc, hr, h⟩ := h.condition
  obtain ⟨s, us, rfl, hs, h⟩ := h.statement
  refine .of_parts rfl ?_
  rcases h.either with h | h
  · obtain rfl := h.done
    rw [branching_ofNode hk hl hc.isExpression hr hs.isStatement]
    refine hc.builds.bind fun x hx => hs.builds.bind fun y hy => gives_pure ⟨?_, rfl, rfl⟩
    simp [Statement.held, heldStatement?, hx, hy.held]
  · obtain ⟨e, us, rfl, he, h⟩ := h.kind
    obtain ⟨t, us, rfl, ht, h⟩ := h.statement
    obtain rfl := h.done
    rw [branching_else_ofNode hk hl hc.isExpression hr hs.isStatement he ht.isStatement]
    refine hc.builds.bind fun x hx => hs.builds.bind fun y hy => ht.builds.bind fun z hz =>
      gives_pure ⟨?_, rfl, rfl⟩
    simp [Statement.held, heldStatement?, hx, hy.held, hz.held]

theorem builds_whileStatement {cs : List Tree} (h : Parts Rule.whileStatement.form cs) :
    (node .whileStatement cs).BuildsStatement := by
  obtain ⟨k, us, rfl, hk, h⟩ := h.kind
  obtain ⟨l, c, r, us, rfl, hl, hc, hr, h⟩ := h.condition
  obtain ⟨s, us, rfl, hs, h⟩ := h.statement
  obtain rfl := h.done
  refine .of_parts rfl ?_
  rw [whileLoop_ofNode hk hl hc.isExpression hr hs.isStatement]
  refine hc.builds.bind fun x hx => hs.builds.bind fun y hy => gives_pure ⟨?_, rfl, rfl⟩
  simp [Statement.held, hx, hy.held]

theorem builds_doWhileStatement {cs : List Tree} (h : Parts Rule.doWhileStatement.form cs) :
    (node .doWhileStatement cs).BuildsStatement := by
  obtain ⟨k, us, rfl, hk, h⟩ := h.kind
  obtain ⟨s, us, rfl, hs, h⟩ := h.statement
  obtain ⟨w, us, rfl, hw, h⟩ := h.kind
  obtain ⟨l, c, r, es, rfl, hl, hc, hr, h⟩ := h.condition
  refine .of_parts rfl ?_
  rw [doLoop_ofNode hk hs.isStatement hw hl hc.isExpression hr h.valued_ending]
  refine hs.builds.bind fun x hx => hc.builds.bind fun y hy => gives_pure ⟨?_, rfl, rfl⟩
  simp [Statement.held, hx.held, hy, h.kept_ending]

/-- The loop over a collection, from its target on. -/
theorem Parts.collection {ts : List Tree}
    (h : Parts (.expression <| .keyword .in_ <| .expression <| .mark .rParen <| .statement .done) ts) :
    ∃ t i c r s, ts = [t, .token i, c, .token r, s] ∧ Operand t ∧ i.kind = .keyword .in_ ∧
      Operand c ∧ r.kind = .symbol .rParen ∧ Body s := by
  obtain ⟨t, us, rfl, ht, h⟩ := h.expression
  obtain ⟨i, us, rfl, hi, h⟩ := h.kind
  obtain ⟨c, us, rfl, hc, h⟩ := h.expression
  obtain ⟨r, us, rfl, hr, h⟩ := h.kind
  obtain ⟨s, us, rfl, hs, h⟩ := h.statement
  obtain rfl := h.done
  exact ⟨t, i, c, r, s, rfl, ht, hi, hc, hr, hs⟩

theorem builds_forInStatement {cs : List Tree} (h : Parts Rule.forInStatement.form cs) :
    (node .forInStatement cs).BuildsStatement := by
  obtain ⟨k, us, rfl, hk, h⟩ := h.kind
  obtain ⟨l, us, rfl, hl, h⟩ := h.kind
  refine .of_parts rfl ?_
  rcases h.either with h | h
  · obtain ⟨v, us, rfl, hv, h⟩ := h.kind
    obtain ⟨t, i, c, r, s, rfl, ht, hi, hc, hr, hs⟩ := h.collection
    rw [eachLoop_var_ofNode hk hl hv ht.isExpression hi hc.isExpression hr hs.isStatement]
    refine ht.builds.bind fun x hx => hc.builds.bind fun y hy => hs.builds.bind fun z hz =>
      gives_pure ⟨?_, rfl, rfl⟩
    simp [Statement.held, hx, hy, hz.held]
  · obtain ⟨t, i, c, r, s, rfl, ht, hi, hc, hr, hs⟩ := h.collection
    rw [eachLoop_ofNode hk hl ht.isExpression hi hc.isExpression hr hs.isStatement]
    refine ht.builds.bind fun x hx => hc.builds.bind fun y hy => hs.builds.bind fun z hz =>
      gives_pure ⟨?_, rfl, rfl⟩
    simp [Statement.held, hx, hy, hz.held]

/-! ## Loop headers -/

/-- A clause of a loop header and the mark behind it. -/
theorem Parts.clause {p : Tree → Bool} {stop : Symbol} {next : Form} {ts : List Tree}
    (h : Parts (.clause p stop next) ts) :
    ∃ (c? : Option Tree) (u : Token) (us : List Tree), ts = c?.toList ++ .token u :: us ∧
      u.kind = .symbol stop ∧ (∀ t ∈ c?, p t = true ∧ t.Built) ∧ Parts next us := by
  rcases h.either with h | h
  · obtain ⟨u, us, rfl, hu, h⟩ := h.kind
    exact ⟨none, u, us, rfl, hu, nofun, h⟩
  · obtain ⟨t, us, rfl, ht, h⟩ := h.one
    obtain ⟨u, us, rfl, hu, h⟩ := h.kind
    refine ⟨some t, u, us, rfl, hu, ?_, h⟩
    rintro t ⟨⟩
    exact ht

/-- What stands in a clause of a loop header ends neither the clause nor the header. -/
structure Clause (t : Tree) : Prop where
  endsClause : Build.endsClause (Reading.ofTree t) = false
  endsHeader : Build.endsHeader (Reading.ofTree t) = false
  isFiller : (Reading.ofTree t).isFiller = false

theorem clause_of_isExpression {t : Tree} (h : t.isExpression = true) : Clause t where
  endsClause := by
    simp [Build.endsClause, isAssumption_of_isExpression h,
      isToken_of_isExpression h (show TokenKind.symbol .semicolon ∉ operandKinds by decide)]
  endsHeader := by
    simp [Build.endsHeader, isAssumption_of_isExpression h,
      isToken_of_isExpression h (show TokenKind.symbol .rParen ∉ operandKinds by decide)]
  isFiller := isFiller_of_isExpression h

theorem clause_node (rule : Rule) (cs : List Tree) : Clause (.node rule cs) := ⟨rfl, rfl, rfl⟩

theorem clauses_semicolon {c? : Option Tree} {u : Token} (us : List Tree)
    (h : ∀ t ∈ c?, Clause t) (hu : u.kind = .symbol .semicolon) :
    Build.clauses ((c?.toList ++ .token u :: us).map Reading.ofTree) none =
      c?.map Reading.ofTree :: Build.clauses (us.map Reading.ofTree) none := by
  have hEnds : Build.endsClause (Reading.ofTree (.token u)) = true := by
    simp [Build.endsClause, Reading.isToken, hu]
  cases c? with
  | none => simp [Build.clauses, hEnds]
  | some t =>
    have ht := h t rfl
    simp [Build.clauses, hEnds, ht.endsClause, ht.endsHeader, ht.isFiller]

theorem clauses_rParen {c? : Option Tree} {u : Token} (h : ∀ t ∈ c?, Clause t)
    (hu : u.kind = .symbol .rParen) :
    Build.clauses ((c?.toList ++ [Tree.token u]).map Reading.ofTree) none =
      [c?.map Reading.ofTree] := by
  have hEnds : Build.endsHeader (Reading.ofTree (.token u)) = true := by
    simp [Build.endsHeader, Reading.isToken, hu]
  have hNot : Build.endsClause (Reading.ofTree (.token u)) = false := by
    have hAssumption : (Reading.ofTree (.token u)).isAssumption "';'" = false := rfl
    simp [Build.endsClause, Reading.isToken, hu, hAssumption]
  cases c? with
  | none => simp [Build.clauses, hEnds, hNot]
  | some t =>
    have ht := h t rfl
    simp [Build.clauses, hEnds, hNot, ht.endsClause, ht.endsHeader, ht.isFiller]

/-- A `for` with three clauses. -/
theorem forLoop_ofNode {k l u v w : Token} {a? b? c? : Option Tree} {s : Tree} {cs : List Tree}
    (hCs : cs = .token k :: .token l :: (a?.toList ++ .token u :: (b?.toList ++ .token v ::
      (c?.toList ++ [.token w, s])))) (hu : u.kind = .symbol .semicolon)
    (hv : v.kind = .symbol .semicolon) (hw : w.kind = .symbol .rParen) (ha : ∀ t ∈ a?, Clause t)
    (hb : ∀ t ∈ b?, Clause t) (hc : ∀ t ∈ c?, Clause t) :
    branchStatement (.ofNode .forStatement cs) = do
      let init? ← Build.optional loopStart (a?.map Reading.ofTree)
      let condition? ← Build.optional Reading.expression (b?.map Reading.ofTree)
      let update? ← Build.optional Reading.expression (c?.map Reading.ofTree)
      return .forLoop init? condition? update? (← Build.statement s)
        (Tree.node .forStatement cs).span := by
  have hHeader : Build.clauses ((a?.toList ++ Tree.token u :: (b?.toList ++ Tree.token v ::
      (c?.toList ++ [Tree.token w]))).map Reading.ofTree) none =
        [a?.map .ofTree, b?.map .ofTree, c?.map .ofTree] := by
    rw [clauses_semicolon _ ha hu, clauses_semicolon _ hb hv, clauses_rParen hc hw]
  have hParts : (Branch.ofNode .forStatement cs).parts =
      (.ofTree (.token k) :: .ofTree (.token l) :: (a?.toList ++ Tree.token u :: (b?.toList ++
        Tree.token v :: (c?.toList ++ [Tree.token w]))).map .ofTree) ++ [.ofTree s] := by
    simp [hCs]
  change Build.forLoop _ = _
  rw [Build.forLoop, hParts, List.getLast?_concat, List.dropLast_concat, List.drop_succ_cons,
    List.drop_succ_cons, List.drop_zero, hHeader]
  rfl

/-- A loop starts with an expression or with a declaration. -/
theorem gives_loopStart {t : Tree} (hBuilt : t.Built)
    (h : (t.isExpression || t.isNode .varStatement) = true) :
    Clause t ∧ (Build.loopStart (Reading.ofTree t)).Gives (·.held = t.kept) := by
  rw [Bool.or_eq_true] at h
  rcases h with hExpression | hNode
  · have ht := hBuilt.operand hExpression
    have hRule : (Reading.ofTree t).rule? ≠ some .varStatement := by
      have hNot := ht.isNode .varStatement rfl
      simpa [Tree.isNode, Reading.rule?] using hNot
    rw [Build.loopStart, if_neg hRule]
    exact ⟨clause_of_isExpression hExpression, ht.builds.bind fun x hx => gives_pure hx⟩
  · obtain ⟨cs, rfl⟩ := isNode_iff.1 hNode
    rw [Build.loopStart, if_pos (Reading.rule?_node .varStatement cs)]
    exact ⟨clause_node .varStatement cs, (hBuilt.body rfl).builds.imp fun s hs => hs.held⟩

theorem gives_optionalExpression {c? : Option Tree} (h : ∀ t ∈ c?, Operand t) :
    (Build.optional (·.expression) (c?.map Reading.ofTree)).Gives
      (heldExpression? · = c?.toList.flatMap kept) := by
  cases c? with
  | none => exact gives_pure rfl
  | some t => exact (h t rfl).builds.map fun x hx => by simpa [heldExpression?] using hx

theorem gives_optionalStart {c? : Option Tree}
    (h : ∀ t ∈ c?, (Build.loopStart (Reading.ofTree t)).Gives (·.held = t.kept)) :
    (Build.optional Build.loopStart (c?.map Reading.ofTree)).Gives
      (heldStatement? · = c?.toList.flatMap kept) := by
  cases c? with
  | none => exact gives_pure rfl
  | some t => exact (h t rfl).map fun x hx => by simpa [heldStatement?] using hx

theorem builds_forStatement {cs : List Tree} (h : Parts Rule.forStatement.form cs) :
    (node .forStatement cs).BuildsStatement := by
  obtain ⟨k, us, rfl, -, h⟩ := h.kind
  obtain ⟨l, us, rfl, -, h⟩ := h.kind
  obtain ⟨a?, u, us, rfl, hu, ha, h⟩ := h.clause
  obtain ⟨b?, v, us, rfl, hv, hb, h⟩ := h.clause
  obtain ⟨c?, w, us, rfl, hw, hc, h⟩ := h.clause
  obtain ⟨s, us, rfl, hs, h⟩ := h.statement
  obtain rfl := h.done
  have hStart := fun t ht => gives_loopStart (ha t ht).2 (ha t ht).1
  refine .of_parts rfl ?_
  rw [forLoop_ofNode rfl hu hv hw (fun t ht => (hStart t ht).1)
    (fun t ht => clause_of_isExpression (hb t ht).1) (fun t ht => clause_of_isExpression (hc t ht).1)]
  refine (gives_optionalStart fun t ht => (hStart t ht).2).bind fun a? hA => ?_
  refine (gives_optionalExpression fun t ht => (hb t ht).2.operand (hb t ht).1).bind fun b? hB => ?_
  refine (gives_optionalExpression fun t ht => (hc t ht).2.operand (hc t ht).1).bind fun c? hC => ?_
  refine hs.builds.bind fun s hs => gives_pure ⟨?_, rfl, rfl⟩
  simp [Statement.held, hA, hB, hC, hs.held]

/-! ## Statements with lists -/

theorem Operand.isStatement {t : Tree} (h : Operand t) : t.isStatement = false := by
  rcases h.node_or_token with ⟨rule, cs, rfl, hRule⟩ | ⟨u, rfl, -⟩
  · cases rule <;> first | rfl | cases hRule
  · rfl

theorem listed_cons_operand {t : Tree} (h : Operand t) (ts : List Tree) :
    listed (t :: ts) = listed ts := by
  have hNone : (Piece.of t).outline? = none := by
    rcases h.node_or_token with ⟨rule, cs, rfl, -⟩ | ⟨u, rfl, -⟩
    · have hRule : rule.isStatement = false := h.isStatement
      simp [Piece.outline?, Piece.of, rule?, hRule]
    · rfl
  simp [listed, hNone]

theorem builds_block {cs : List Tree} (h : Parts Rule.block.form cs) :
    (node .block cs).BuildsStatement :=
  .of_branch ((gives_block h).bind fun _ hBody => gives_pure ⟨hBody, rfl, .inr rfl⟩)

theorem builds_scriptBlock {cs : List Tree} (h : Parts Rule.scriptBlock.form cs) :
    (node .scriptBlock cs).BuildsStatement :=
  .of_branch ((gives_script h).bind fun _ hBody => gives_pure ⟨hBody, rfl, .inr rfl⟩)

/-! ## Switches -/

@[simp] theorem Reading.branch?_token (u : Token) : (Reading.ofTree (.token u)).branch? = none := rfl

@[simp] theorem Reading.branch?_node (rule : Rule) (cs : List Tree) :
    (Reading.ofTree (.node rule cs)).branch? = some (.ofNode rule cs) := by
  simp [Reading.branch?, Branch.ofNode, children]

/-- The value and the statements of a case. -/
theorem gives_caseClause {cs : List Tree} (h : Parts Rule.caseClause.form cs) :
    ∃ e, Operand e ∧ (Branch.ofNode .caseClause cs).childExpression 1 = Build.expression e ∧
      (Build.statements ((Branch.ofNode .caseClause cs).parts.drop 2)).Gives
        fun body => e.kept ++ [outlines body] = (Tree.node .caseClause cs).kept := by
  obtain ⟨k, us, rfl, -, h⟩ := h.kind
  obtain ⟨e, us, rfl, he, h⟩ := h.expression
  obtain ⟨m, us, rfl, -, h⟩ := h.kind
  obtain ⟨us, vs, rfl, hus, h⟩ := h.statements
  obtain rfl := h.done
  refine ⟨e, he, Branch.childExpression_ofNode rfl, ?_⟩
  have hDrop : (Branch.ofNode .caseClause (.token k :: e :: .token m :: (us ++ []))).parts.drop 2 =
      (Tree.token m :: us).map .ofTree := by
    simp
  rw [hDrop]
  refine (gives_statements fun t ht => ?_).imp fun body hBody => ?_
  · rcases List.mem_cons.1 ht with rfl | ht
    · exact .inr ⟨m, rfl⟩
    · exact .inl (hus t ht)
  · have hMark : ∀ u : Token, (Tree.token u).isStatement = false := fun _ => rfl
    rw [kept_list rfl, hBody]
    simp [isStatement_of_body hus, hMark, he.isStatement, listed_cons_operand he]

/-- The statements of a default clause. -/
theorem gives_defaultClause {cs : List Tree} (h : Parts Rule.defaultClause.form cs) :
    (Build.statements ((Branch.ofNode .defaultClause cs).parts.drop 1)).Gives
      fun body => [outlines body] = (Tree.node .defaultClause cs).kept := by
  obtain ⟨k, us, rfl, -, h⟩ := h.kind
  obtain ⟨m, us, rfl, -, h⟩ := h.kind
  obtain ⟨us, vs, rfl, hus, h⟩ := h.statements
  obtain rfl := h.done
  have hDrop : (Branch.ofNode .defaultClause (.token k :: .token m :: (us ++ []))).parts.drop 1 =
      (Tree.token m :: us).map .ofTree := by
    simp
  rw [hDrop]
  refine (gives_statements fun t ht => ?_).imp fun body hBody => ?_
  · rcases List.mem_cons.1 ht with rfl | ht
    · exact .inr ⟨m, rfl⟩
    · exact .inl (hus t ht)
  · have hMark : ∀ u : Token, (Tree.token u).isStatement = false := fun _ => rfl
    rw [kept_list rfl, hBody]
    simp [isStatement_of_body hus, hMark]

/-- Whether the tree is a clause of a `switch`. -/
def Tree.isClause (t : Tree) : Bool := t.isNode .caseClause || t.isNode .defaultClause

section SwitchClauses

variable (cs : List Tree) (rest : List Branch) (body : List Statement)
  (default? : Option (List Statement))

theorem switchClauses_case : Build.switchClauses (.ofNode .caseClause cs :: rest) default? = (do
    let value ← (Branch.ofNode .caseClause cs).childExpression 1
    let body ← Build.statements ((Branch.ofNode .caseClause cs).parts.drop 2)
    let (cases, default?) ← Build.switchClauses rest default?
    return (⟨value, body⟩ :: cases, default?)) := rfl

theorem switchClauses_default : Build.switchClauses (.ofNode .defaultClause cs :: rest) none = (do
    let body ← Build.statements ((Branch.ofNode .defaultClause cs).parts.drop 1)
    Build.switchClauses rest (some body)) := rfl

/-- A default clause behind another one is passed over. -/
theorem switchClauses_again :
    Build.switchClauses (.ofNode .defaultClause cs :: rest) (some body) =
      Build.switchClauses rest (some body) := rfl

theorem switchClauses_other {rule : Rule} (hCase : rule ≠ .caseClause)
    (hDefault : rule ≠ .defaultClause) :
    Build.switchClauses (.ofNode rule cs :: rest) default? =
      Build.switchClauses rest default? := by
  cases rule <;> first | rfl | exact absurd rfl hCase | exact absurd rfl hDefault

end SwitchClauses

/-- The cases are built one by one, and of the default clauses the first, unless there is one
already. -/
theorem gives_switchClauses {ts : List Tree} (h : ∀ t ∈ ts, t.isClause = true → t.Built)
    (default? : Option (List Statement)) :
    (Build.switchClauses ((ts.map Reading.ofTree).filterMap (·.branch?)) default?).Gives fun r =>
      heldCases r.1 = (ts.filter (·.isNode .caseClause)).flatMap kept ∧
      heldBody? r.2 =
        if default?.isSome then heldBody? default?
        else (ts.find? (·.isNode .defaultClause)).toList.flatMap kept := by
  induction ts generalizing default? with
  | nil =>
    refine gives_pure ⟨rfl, ?_⟩
    cases default? <;> rfl
  | cons t ts ih =>
    have hRest := ih fun t ht => h t (by simp [ht])
    rw [List.map_cons]
    match t, h with
    | .leaf l, _ => simpa [Tree.isNode, rule?, Reading.branch?, Reading.rule?] using hRest default?
    | .node rule cs, h =>
      have hBuilt : (Tree.node rule cs).isClause = true → (Tree.node rule cs).Built := h _ (by simp)
      rw [List.filterMap_cons_some (Reading.branch?_node rule cs)]
      by_cases hCase : rule = .caseClause
      · subst hCase
        obtain ⟨e, he, hValue, hBody⟩ := gives_caseClause (hBuilt rfl).parts
        rw [switchClauses_case, hValue]
        refine he.builds.bind fun x hx => hBody.bind fun body hBody => ?_
        refine (hRest default?).bind fun r hr => gives_pure ⟨?_, ?_⟩
        · rw [heldCases, hx, hBody, hr.1]
          simp
        · rw [hr.2]
          simp
      by_cases hDefault : rule = .defaultClause
      · subst hDefault
        cases default? with
        | none =>
          rw [switchClauses_default]
          refine (gives_defaultClause (hBuilt rfl).parts).bind fun body hBody => ?_
          refine (hRest (some body)).imp fun r hr => ⟨?_, ?_⟩
          · simpa using hr.1
          · simpa [heldBody?, hBody] using hr.2
        | some body =>
          rw [switchClauses_again]
          refine (hRest (some body)).imp fun r hr => ⟨?_, ?_⟩
          · simpa using hr.1
          · simpa using hr.2
      · rw [switchClauses_other _ _ _ hCase hDefault]
        simpa [hCase, hDefault] using hRest default?

theorem kept_switchStatement (cs : List Tree) :
    (Tree.node .switchStatement cs).kept =
      (cs.filter (!·.isNode .defaultClause)).flatMap kept ++
        (cs.find? (·.isNode .defaultClause)).toList.flatMap kept := by
  rw [kept_eq_held, Rule.kept, if_pos rfl, Rule.held, if_neg (by decide), if_neg (by decide),
    List.flatMap_append, List.filter_map, List.flatMap_map, List.find?_map]
  congr 1
  cases hFind : cs.find? ((·.tree.isNode .defaultClause) ∘ Piece.of) with
  | none =>
    have hNone : cs.find? (·.isNode .defaultClause) = none := hFind
    rw [hNone]
    rfl
  | some t =>
    have hSome : cs.find? (·.isNode .defaultClause) = some t := hFind
    rw [hSome]
    simp [Piece.of]

theorem builds_switchStatement {cs : List Tree} (h : Parts Rule.switchStatement.form cs) :
    (node .switchStatement cs).BuildsStatement := by
  have hBuilt := h.built
  obtain ⟨k, us, rfl, hk, h⟩ := h.kind
  obtain ⟨l, c, r, us, rfl, hl, hc, hr, h⟩ := h.condition
  obtain ⟨b, us, rfl, -, h⟩ := h.kind
  obtain ⟨us, vs, rfl, hus, h⟩ := h.many
  obtain ⟨e, vs, rfl, -, h⟩ := h.kind
  obtain rfl := h.done
  have hSubject : (Branch.valued (.token k :: .token l :: c :: .token r :: .token b ::
      (us ++ [.token e])))[1]? = some c := by
    rw [Branch.valued_keyword hk, Branch.valued_condition hl hc.isExpression hr]
    rfl
  refine .of_branch ?_
  change (Build.select _).Gives _
  rw [Build.select, Branch.operandExpression_ofNode hSubject]
  refine hc.builds.bind fun x hx => ?_
  refine (gives_switchClauses (fun t ht _ => hBuilt t ht) none).bind fun r hr => gives_pure
    ⟨?_, rfl, .inr rfl⟩
  have hClauses : us.filter (!·.isNode .defaultClause) = us.filter (·.isNode .caseClause) := by
    refine List.filter_congr fun u hu => ?_
    have hSort := (hus u hu).1
    rw [Bool.or_eq_true] at hSort
    rcases hSort with hNode | hNode <;> obtain ⟨ds, rfl⟩ := isNode_iff.1 hNode <;> rfl
  rw [Statement.held, hr.1, hr.2, kept_switchStatement, hx]
  simp [List.filter_append, hClauses, hc.isNode .defaultClause rfl, hc.isNode .caseClause rfl]

/-! ## Attempts -/

theorem heldCatches_eq (catches : List (CatchClause Statement)) :
    heldCatches catches = catches.flatMap fun c => [outlines c.body] := by
  induction catches with
  | nil => rfl
  | cons c catches ih => rw [heldCatches, ih, List.flatMap_cons]

/-- A `catch` clause with its variable, possibly after a type. -/
theorem gives_catchClause {cs : List Tree} (h : Parts Rule.catchClause.form cs) :
    (Build.catchClause (.ofNode .catchClause cs)).Gives
      fun c => [outlines c.body] = (Tree.node .catchClause cs).kept := by
  obtain ⟨k, us, rfl, hk, h⟩ := h.kind
  obtain ⟨l, us, rfl, hl, h⟩ := h.kind
  obtain ⟨type, w, us, rfl, hType, hw, h⟩ := h.typedName
  obtain ⟨r, us, rfl, hr, h⟩ := h.kind
  obtain ⟨bs, us, rfl, ⟨hbs, -⟩, h⟩ := h.node
  obtain rfl := h.done
  rw [Build.catchClause, Branch.operands_ofNode, kept_node rfl]
  rcases hType with rfl | ⟨ts, rfl, hTs⟩
  · have hOps : Branch.valued (.token k :: .token l :: ([] ++ [.token w, .token r,
        .node .block bs])) = [.token k, .token w, .node .block bs] := by
      rw [List.nil_append, Branch.valued_keyword hk, Branch.valued_skip hl (by decide),
        Branch.valued_word hw, Branch.valued_skip hr (by decide), Branch.valued_node,
        Branch.valued_nil]
    rw [hOps]
    simp only [List.map_cons, List.getElem?_cons_succ, List.getElem?_cons_zero, Option.bind_some,
      Branch.branchOf?_token, Option.map_none, Option.isSome_none, Bool.false_eq_true, if_false,
      identifier_token _ hw, pure_bind]
    refine (gives_requiredBlock hbs ?_).bind fun body hBody => gives_pure ?_
    · simp [Branch.node?, List.findSome?_cons]
    · simp [hBody]
  · have hOps : Branch.valued (.token k :: .token l :: ([.node .typeName ts] ++ [.token w, .token r,
        .node .block bs])) = [.token k, .node .typeName ts, .token w, .node .block bs] := by
      rw [List.singleton_append, Branch.valued_keyword hk, Branch.valued_skip hl (by decide),
        Branch.valued_node, Branch.valued_word hw, Branch.valued_skip hr (by decide),
        Branch.valued_node, Branch.valued_nil]
    rw [hOps]
    simp only [List.map_cons, List.getElem?_cons_succ, List.getElem?_cons_zero, Option.bind_some,
      Branch.branchOf?_node, if_true, Option.map_some, Option.isSome_some, identifier_token _ hw,
      pure_bind]
    refine (gives_requiredBlock hbs ?_).bind fun body hBody => gives_pure ?_
    · simp [Branch.node?, List.findSome?_cons]
    · simp [hBody, hTs]

/-- The block of a `finally` clause. -/
theorem gives_finallyClause {cs : List Tree} (h : Parts Rule.finallyClause.form cs) :
    (Build.block (.ofNode .finallyClause cs)).Gives
      fun body => [outlines body] = (Tree.node .finallyClause cs).kept := by
  obtain ⟨k, us, rfl, -, h⟩ := h.kind
  obtain ⟨bs, us, rfl, ⟨hbs, -⟩, h⟩ := h.node
  obtain rfl := h.done
  refine (gives_requiredBlock hbs ?_).imp fun body hBody => ?_
  · simp [Branch.node?, List.findSome?_cons]
  · rw [kept_node rfl]
    simp [hBody]

theorem builds_tryStatement {cs : List Tree} (h : Parts Rule.tryStatement.form cs) :
    (node .tryStatement cs).BuildsStatement := by
  have hBuilt := h.built
  obtain ⟨k, us, rfl, -, h⟩ := h.kind
  obtain ⟨bs, us, rfl, ⟨hbs, -⟩, h⟩ := h.node
  obtain ⟨us, vs, rfl, hus, h⟩ := h.many
  have hCatches : us.filter (·.isNode .catchClause) = us :=
    List.filter_eq_self.2 fun u hu => (hus u hu).1
  have hNoFinally : us.filter (·.isNode .finallyClause) = [] := by
    refine List.filter_eq_nil_iff.2 fun u hu => ?_
    obtain ⟨ds, rfl⟩ := isNode_iff.1 (hus u hu).1
    simp
  refine .of_parts rfl ?_
  change (Build.tryStatement _).Gives _
  refine (gives_requiredBlock hbs (by simp [Branch.node?, List.findSome?_cons])).bind
    fun body hBody => ?_
  refine (gives_all_nodes hBuilt fun ds => gives_catchClause).bind fun catches hCatch => ?_
  rcases h.either with h | h
  · obtain rfl := h.done
    have hNone : (Branch.ofNode .tryStatement (.token k :: .node .block bs :: (us ++ []))).node?
        .finallyClause = none := by
      simp [Branch.node?_ofNode, hNoFinally]
    rw [hNone]
    refine gives_pure ⟨?_, rfl, rfl⟩
    rw [Statement.held, heldCatches_eq, hCatch, hBody]
    simp [hCatches, heldBody?]
  · obtain ⟨fs, vs, rfl, ⟨hfs, -⟩, h⟩ := h.node
    obtain rfl := h.done
    have hSome : (Branch.ofNode .tryStatement (.token k :: .node .block bs ::
        (us ++ [.node .finallyClause fs]))).node? .finallyClause =
          some (.ofNode .finallyClause fs) := by
      simp [Branch.node?_ofNode, hNoFinally, children]
    have hFinally : (Build.optional Build.block (some (Branch.ofNode .finallyClause fs))).Gives
        (heldBody? · = (Tree.node .finallyClause fs).kept) :=
      (gives_finallyClause hfs).map fun _ h => h
    rw [hSome]
    refine hFinally.bind fun finally? hLast => gives_pure ⟨?_, rfl, rfl⟩
    rw [Statement.held, heldCatches_eq, hCatch, hBody, hLast]
    simp [List.filter_append, hCatches]

/-! ## Elements -/

/-- A statement with attributes: what stands before them, the attributes and the block. -/
theorem Tree.BuildsStatement.of_shape {rule : Rule} {front attributes back : List Tree}
    (hShape : Shaped front attributes back) (hRule : rule.hasAttributes = true)
    (h : (Build.branchStatement (.ofNode rule (front ++ (attributes ++ back)))).Gives fun s =>
      s.held = front.flatMap kept ++ keptAttributes (front ++ (attributes ++ back)) ++
          keptBlocks (front ++ (attributes ++ back)) ∧
        s.span = (Tree.node rule (front ++ (attributes ++ back))).span ∧ s.rule = rule) :
    (Tree.node rule (front ++ (attributes ++ back))).BuildsStatement := by
  refine .of_branch (h.imp fun s hs => ?_)
  obtain ⟨hHeld, hSpan, hSame⟩ := hs
  exact ⟨by rw [hHeld, hShape.kept hRule], hSpan, .inr (by rw [hSame]; rfl)⟩

theorem Parts.tokens_ending {ts : List Tree} (h : Parts .ending ts) :
    ∀ t ∈ ts, ∃ u, t = .token u := fun t ht => by
  obtain ⟨u, rfl, -⟩ := h.ending t ht
  exact ⟨u, rfl⟩

theorem Shaped.keptBlocks_tokens {front attributes back : List Tree}
    (h : Shaped front attributes back) (hBack : ∀ t ∈ back, ∃ u, t = .token u) :
    keptBlocks (front ++ (attributes ++ back)) = [] := by
  rw [keptBlocks, h.filter_block, List.filter_eq_nil_iff.2 fun t ht => ?_, List.flatMap_nil]
  obtain ⟨u, rfl⟩ := hBack t ht
  exact Bool.false_ne_true

/-- A component or an interface: its keyword, attributes and a block. -/
theorem builds_component {rule : Rule} {kind : ComponentKind} {keyword : Keyword} {cs : List Tree}
    (h : Parts (.keyword keyword <| .attributes <| .node .block .done) cs)
    (hRule : rule.hasAttributes = true)
    (hBranch : Build.branchStatement (.ofNode rule cs) = Build.component kind (.ofNode rule cs))
    (hSame : ∀ map body span, (Statement.component kind map body span).rule = rule) :
    (node rule cs).BuildsStatement := by
  have hBuilt := h.built
  obtain ⟨k, us, rfl, -, h⟩ := h.kind
  obtain ⟨as, us, rfl, has, h⟩ := h.attributes
  obtain ⟨bs, us, rfl, ⟨hbs, -⟩, h⟩ := h.node
  obtain rfl := h.done
  have hShape : Shaped [.token k] as [.node .block bs] := ⟨by simp, has, .inl ⟨bs, rfl⟩⟩
  have hBlocks := hShape.filter_block
  have hNode : (Branch.ofNode rule ([.token k] ++ (as ++ [.node .block bs]))).node? .block =
      some (.ofNode .block bs) := by
    rw [Branch.node?_ofNode, hBlocks]
    rfl
  refine Tree.BuildsStatement.of_shape hShape hRule ?_
  rw [List.singleton_append, hBranch, Build.component]
  refine (gives_attributes hBuilt _).bind fun map hMap => ?_
  refine (gives_block?_of_node hbs hNode).bind fun body? hBody? => ?_
  obtain ⟨body, rfl, hBody⟩ := hBody?
  refine gives_pure ⟨?_, rfl, hSame _ _ _⟩
  rw [List.singleton_append] at hBlocks
  rw [Statement.held, Option.getD_some, hMap, hBody, keptBlocks, hBlocks]
  simp

theorem builds_componentDeclaration {cs : List Tree} (h : Parts Rule.componentDeclaration.form cs) :
    (node .componentDeclaration cs).BuildsStatement :=
  builds_component h rfl rfl fun _ _ _ => rfl

theorem builds_interfaceDeclaration {cs : List Tree} (h : Parts Rule.interfaceDeclaration.form cs) :
    (node .interfaceDeclaration cs).BuildsStatement :=
  builds_component h rfl rfl fun _ _ _ => rfl

/-- Every word that starts a tag names one. -/
theorem TagKind.ofWord?_of_mem {word : String}
    (h : Grammar.tagWords.contains (Text.fold word) = true) : ∃ kind, TagKind.ofWord? word = some kind := by
  have hWords : Grammar.tagWords = TagKind.all.map (Text.fold ·.word) := by decide
  rw [hWords, List.contains_iff_mem] at h
  obtain ⟨kind, hMem, hFold⟩ := List.mem_map.1 h
  have hSome : (TagKind.ofWord? word).isSome = true := by
    rw [TagKind.ofWord?, List.find?_isSome]
    exact ⟨kind, hMem, Text.sameName_iff.2 hFold⟩
  exact Option.isSome_iff_exists.1 hSome

theorem builds_tagStatement {cs : List Tree} (h : Parts Rule.tagStatement.form cs) :
    (node .tagStatement cs).BuildsStatement := by
  have hBuilt := h.built
  obtain ⟨k, us, rfl, ⟨hk, -⟩, h⟩ := h.token
  obtain ⟨as, back, rfl, has, h⟩ := h.attributes
  have hBack : (∃ bs, back = [.node .block bs]) ∨ ∀ t ∈ back, ∃ u, t = .token u := by
    rcases h.either with h | h
    · obtain ⟨bs, us, rfl, -, h⟩ := h.node
      obtain rfl := h.done
      exact .inl ⟨bs, rfl⟩
    · exact .inr h.tokens_ending
  have hShape : Shaped [.token k] as back := ⟨by simp, has, hBack⟩
  rw [Bool.and_eq_true] at hk
  obtain ⟨kind, hKind⟩ := TagKind.ofWord?_of_mem hk.2
  refine Tree.BuildsStatement.of_shape hShape rfl ?_
  change (Build.tag _).Gives _
  rw [Build.tag, Branch.child_ofNode rfl, pure_bind, Reading.token?_token, Option.bind_some, hKind]
  refine (gives_attributes hBuilt _).bind fun map hMap => ?_
  refine (hShape.gives_block? hBuilt).bind fun body? hBody? => gives_pure ⟨?_, rfl, rfl⟩
  rw [Statement.held, hMap, hBody?]
  simp

/-! ## Properties -/

theorem builds_propertyFull {cs : List Tree} (h : Parts Rule.propertyFull.form cs) :
    (node .propertyFull cs).BuildsStatement := by
  have hBuilt := h.built
  obtain ⟨k, us, rfl, -, h⟩ := h.kind
  obtain ⟨as, es, rfl, has, h⟩ := h.attributes
  have hShape : Shaped [.token k] as es := ⟨by simp, has, .inr h.tokens_ending⟩
  refine Tree.BuildsStatement.of_shape hShape rfl ?_
  change (Build.attributes .property _ >>= fun map =>
    pure (Statement.property ⟨.long none none, map⟩ _)).Gives _
  refine (gives_attributes hBuilt _).bind fun map hMap => gives_pure ⟨?_, rfl, rfl⟩
  rw [Statement.held_property, hMap, hShape.keptBlocks_tokens h.tokens_ending]
  simp

/-- The parts of a short property that are no attributes, behind the keyword. -/
theorem filter_operands (rule : Rule) {k : Token} {front attributes back : List Tree}
    (hk : k.kind ∉ Reading.fillers) (hShape : Shaped (.token k :: front) attributes back)
    (hValued : Branch.valued front = front) (hBack : Branch.valued back = []) :
    ((Branch.ofNode rule ((.token k :: front) ++ (attributes ++ back))).operands.drop 1).filter
      (·.rule? != some .attribute) = front.map Reading.ofTree := by
  have hAttributes : Branch.valued attributes = attributes := by
    refine List.filter_eq_self.2 fun t ht => ?_
    obtain ⟨cs, rfl⟩ := isNode_iff.1 (hShape.attributes t ht)
    rfl
  have hAll : Branch.valued ((.token k :: front) ++ (attributes ++ back)) =
      .token k :: (front ++ attributes) := by
    rw [List.cons_append, Branch.valued_keep rfl hk, Branch.valued, List.filter_append,
      List.filter_append, ← Branch.valued, ← Branch.valued, ← Branch.valued, hValued, hAttributes,
      hBack, List.append_nil]
  rw [Branch.operands_ofNode, hAll, List.map_cons, List.drop_succ_cons, List.drop_zero,
    List.map_append, List.filter_append, List.filter_eq_self.2 fun r hr => ?_,
    List.filter_eq_nil_iff.2 fun r hr => ?_, List.append_nil]
  · obtain ⟨t, ht, rfl⟩ := List.mem_map.1 hr
    obtain ⟨cs, rfl⟩ := isNode_iff.1 (hShape.attributes t ht)
    simp
  · obtain ⟨t, ht, rfl⟩ := List.mem_map.1 hr
    simpa [Reading.rule?, isNode] using (hShape.front t (by simp [ht])).1

theorem builds_propertyShorthand {cs : List Tree} (h : Parts Rule.propertyShorthand.form cs) :
    (node .propertyShorthand cs).BuildsStatement := by
  have hBuilt := h.built
  obtain ⟨k, us, rfl, hk, h⟩ := h.kind
  obtain ⟨type, w, us, rfl, hType, hw, h⟩ := h.typedName
  obtain ⟨as, es, rfl, has, h⟩ := h.attributes
  have hCs : Tree.token k :: (type ++ .token w :: (as ++ es)) =
      (.token k :: (type ++ [.token w])) ++ (as ++ es) := by
    simp
  rw [hCs] at hBuilt ⊢
  have hFront : ∀ t ∈ Tree.token k :: (type ++ [.token w]),
      t.isNode .attribute = false ∧ t.isNode .block = false := by
    rcases hType with rfl | ⟨ts, rfl, -⟩ <;> simp
  have hShape : Shaped (.token k :: (type ++ [.token w])) as es :=
    ⟨hFront, has, .inr h.tokens_ending⟩
  have hValued : Branch.valued (type ++ [.token w]) = type ++ [.token w] := by
    rcases hType with rfl | ⟨ts, rfl, -⟩
    · exact Branch.valued_word hw
    · rw [List.singleton_append, Branch.valued_node, Branch.valued_word hw, Branch.valued_nil]
  have hKept : type.flatMap kept = [] := by
    rcases hType with rfl | ⟨ts, rfl, hTs⟩ <;> simp [*]
  have hHead : ∃ type?, Build.propertyHead ((type ++ [Tree.token w]).map Reading.ofTree) =
      (type?, some (.ofTree (.token w))) := by
    rcases hType with rfl | ⟨ts, rfl, -⟩
    · exact ⟨none, rfl⟩
    · exact ⟨_, by simp [Build.propertyHead]; rfl⟩
  obtain ⟨type?, hHead⟩ := hHead
  have hParts := filter_operands .propertyShorthand (hk ▸ by decide) hShape hValued h.valued_ending
  refine Tree.BuildsStatement.of_shape hShape rfl ?_
  change (Build.shortProperty _).Gives _
  rw [Build.shortProperty, hParts, hHead]
  dsimp only
  rw [if_neg (show ¬(Reading.ofTree (.token w)).isAssumed = true from Bool.false_ne_true),
    identifier_token _ hw]
  refine (gives_attributes hBuilt _).bind fun map hMap => gives_pure ⟨?_, rfl, rfl⟩
  rw [Statement.held_property, hMap, hShape.keptBlocks_tokens h.tokens_ending]
  simp [hKept]

/-! ## Functions -/

/-- What stands between the keyword of a function and its attributes, and what stands after them. -/
theorem Parts.signature {ts : List Tree} (h : Parts .signature ts) :
    ∃ f w ps as back, ts = .token f :: .token w :: .node .parameterList ps :: (as ++ back) ∧
      f.kind = .keyword .function ∧ w.kind.isWord = true ∧ Parts Rule.parameterList.form ps ∧
      (∀ t ∈ as, t.isNode .attribute = true) ∧
      ((∃ bs, back = [.node .block bs]) ∨ ∀ t ∈ back, ∃ u, t = .token u) := by
  obtain ⟨f, us, rfl, hf, h⟩ := h.kind
  obtain ⟨w, us, rfl, hw, h⟩ := h.word
  obtain ⟨ps, us, rfl, ⟨hps, -⟩, h⟩ := h.node
  obtain ⟨as, back, rfl, has, h⟩ := h.attributes
  refine ⟨f, w, ps, as, back, rfl, hf, hw, hps, has, ?_⟩
  rcases h.either with h | h
  · obtain ⟨bs, us, rfl, -, h⟩ := h.node
    obtain rfl := h.done
    exact .inl ⟨bs, rfl⟩
  · exact .inr h.tokens_ending

/-- What stands before the keyword of a function: modifiers, and possibly a return type. -/
structure FunctionFront (front : List Tree) : Prop where
  part : ∀ t ∈ front, (∃ u : Token, t = .token u ∧ u.kind = .identifier) ∨
    ∃ cs, t = .node .returnType cs ∧ t.kept = []

theorem kept_returnType {cs : List Tree} (h : Parts Rule.returnType.form cs) :
    (Tree.node .returnType cs).kept = [] := by
  obtain ⟨ts, us, rfl, ⟨hts, -⟩, h⟩ := h.node
  obtain rfl := h.done
  rw [kept_node rfl]
  simp [kept_typeName hts]

/-- The parts of a named function. -/
theorem Parts.function {cs : List Tree} (h : Parts Rule.functionDeclaration.form cs) :
    ∃ front f w ps as back,
      cs = (front ++ [.token f, .token w, .node .parameterList ps]) ++ (as ++ back) ∧
      FunctionFront front ∧ f.kind = .keyword .function ∧ w.kind.isWord = true ∧
      Parts Rule.parameterList.form ps ∧ (∀ t ∈ as, t.isNode .attribute = true) ∧
      ((∃ bs, back = [.node .block bs]) ∨ ∀ t ∈ back, ∃ u, t = .token u) := by
  obtain ⟨ms, us, rfl, hms, h⟩ := h.many
  have hModifier : ∀ t ∈ ms, ∃ u : Token, t = .token u ∧ u.kind = .identifier := by
    intro t ht
    obtain ⟨u, hu, hKind⟩ := isTokenThat_iff.1 (hms t ht).1
    exact ⟨u, hu, beq_iff_eq.1 hKind⟩
  rcases h.either with h | h
  · obtain ⟨f, w, ps, as, back, rfl, hf, hw, hps, has, hBack⟩ := h.signature
    exact ⟨ms, f, w, ps, as, back, by simp, ⟨fun t ht => .inl (hModifier t ht)⟩, hf, hw, hps, has,
      hBack⟩
  · obtain ⟨rs, us, rfl, ⟨hrs, -⟩, h⟩ := h.node
    obtain ⟨f, w, ps, as, back, rfl, hf, hw, hps, has, hBack⟩ := h.signature
    refine ⟨ms ++ [.node .returnType rs], f, w, ps, as, back, by simp, ⟨fun t ht => ?_⟩, hf, hw,
      hps, has, hBack⟩
    rcases List.mem_append.1 ht with ht | ht
    · exact .inl (hModifier t ht)
    · rw [List.mem_singleton] at ht
      exact .inr ⟨rs, ht, ht ▸ kept_returnType hrs⟩

/-- The head of a function ends at its keyword. -/
theorem gives_functionHead {front rest : List Tree} {f : Token} (h : FunctionFront front)
    (hf : f.kind = .keyword .function) (returnType? : Option Identifier) :
    (Build.functionHead returnType? ((front ++ .token f :: rest).map Reading.ofTree)).Gives
      (·.rest = rest.map Reading.ofTree) := by
  induction front generalizing returnType? with
  | nil =>
    have hToken : (Reading.ofTree (.token f)).isToken (.keyword .function) = true := by
      simp [Reading.isToken, hf]
    rw [List.nil_append, List.map_cons, Build.functionHead, hToken, Bool.true_or, if_pos rfl]
    exact gives_pure rfl
  | cons t ts ih =>
    have hRest := ih ⟨fun t ht => h.part t (by simp [ht])⟩
    rw [List.cons_append, List.map_cons, Build.functionHead]
    rcases h.part t (by simp) with ⟨u, rfl, hu⟩ | ⟨cs, rfl, -⟩
    · have hToken : (Reading.ofTree (.token u)).isToken (.keyword .function) = false := by
        simp [Reading.isToken, hu]
      have hAssumed : (Reading.ofTree (.token u)).isAssumed = false := rfl
      rw [hToken, hAssumed, Bool.or_self, if_neg Bool.false_ne_true]
      exact (hRest returnType?).bind fun head hHead => gives_pure hHead
    · have hToken : (Reading.ofTree (.node .returnType cs)).isToken (.keyword .function) = false := rfl
      have hAssumed : (Reading.ofTree (.node .returnType cs)).isAssumed = false := rfl
      rw [hToken, hAssumed, Bool.or_self, if_neg Bool.false_ne_true]
      exact hRest _

namespace FunctionFront

variable {front : List Tree}

theorem plain (h : FunctionFront front) :
    ∀ t ∈ front, t.isNode .attribute = false ∧ t.isNode .block = false := by
  intro t ht
  rcases h.part t ht with ⟨u, rfl, -⟩ | ⟨cs, rfl, -⟩ <;> simp

theorem flatMap_kept (h : FunctionFront front) : front.flatMap kept = [] := by
  refine List.flatMap_eq_nil_iff.2 fun t ht => ?_
  rcases h.part t ht with ⟨u, rfl, -⟩ | ⟨cs, -, hNone⟩
  · rfl
  · exact hNone

theorem filter_parameterList (h : FunctionFront front) :
    front.filter (·.isNode .parameterList) = [] := by
  refine List.filter_eq_nil_iff.2 fun t ht => ?_
  rcases h.part t ht with ⟨u, rfl, -⟩ | ⟨cs, rfl, -⟩ <;> simp

end FunctionFront

theorem builds_functionDeclaration {cs : List Tree} (h : Parts Rule.functionDeclaration.form cs) :
    (node .functionDeclaration cs).BuildsStatement := by
  have hBuilt := h.built
  obtain ⟨front, f, w, ps, as, back, rfl, hFront, hf, hw, hps, has, hBack⟩ := h.function
  have hPlain : ∀ t ∈ front ++ [Tree.token f, Tree.token w, Tree.node .parameterList ps],
      t.isNode .attribute = false ∧ t.isNode .block = false := by
    intro t ht
    rcases List.mem_append.1 ht with ht | ht
    · exact hFront.plain t ht
    · simp only [List.mem_cons, List.not_mem_nil, or_false] at ht
      rcases ht with rfl | rfl | rfl <;> simp
  have hShape : Shaped (front ++ [.token f, .token w, .node .parameterList ps]) as back :=
    ⟨hPlain, has, hBack⟩
  have hAttributes : as.filter (·.isNode .parameterList) = [] := by
    refine List.filter_eq_nil_iff.2 fun t ht => ?_
    obtain ⟨ds, rfl⟩ := isNode_iff.1 (has t ht)
    simp
  have hBack' : back.filter (·.isNode .parameterList) = [] := by
    rcases hBack with ⟨bs, rfl⟩ | hTokens
    · rfl
    · refine List.filter_eq_nil_iff.2 fun t ht => ?_
      obtain ⟨u, rfl⟩ := hTokens t ht
      exact Bool.false_ne_true
  have hParameters : (Branch.ofNode .functionDeclaration ((front ++ [.token f, .token w,
      .node .parameterList ps]) ++ (as ++ back))).node? .parameterList =
        some (.ofNode .parameterList ps) := by
    simp [Branch.node?_ofNode, List.filter_append, hFront.filter_parameterList, hAttributes, hBack',
      children]
  refine Tree.BuildsStatement.of_shape hShape rfl ?_
  have hParts : (Branch.ofNode .functionDeclaration ((front ++ [.token f, .token w,
      .node .parameterList ps]) ++ (as ++ back))).parts =
        (front ++ Tree.token f :: .token w :: .node .parameterList ps ::
          (as ++ back)).map Reading.ofTree := by
    simp
  change (Build.function _).Gives _
  rw [Build.function, hParts]
  refine (gives_functionHead hFront hf none).bind fun head hHead => ?_
  rw [hHead, List.map_cons]
  dsimp only
  rw [identifier_token _ hw]
  refine (gives_parameters hps hParameters).bind fun params hParams => ?_
  refine (gives_attributes hBuilt _).bind fun map hMap => ?_
  refine (hShape.gives_block? hBuilt).bind fun body? hBody? => gives_pure ⟨?_, rfl, rfl⟩
  rw [Statement.held, hParams, hMap, hBody?]
  simp [hFront.flatMap_kept]

/-! ## All rules -/

/-- Every rule for statements gives a statement of parts that are built. -/
theorem buildsStatement_node {rule : Rule} {cs : List Tree} (h : Parts rule.form cs)
    (hRule : rule.isStatement = true) : (Tree.node rule cs).BuildsStatement := by
  cases rule with
  | scriptBlock => exact builds_scriptBlock h
  | block => exact builds_block h
  | emptyStatement => exact builds_emptyStatement
  | expressionStatement => exact builds_expressionStatement h
  | varStatement => exact builds_varStatement h
  | ifStatement => exact builds_ifStatement h
  | whileStatement => exact builds_whileStatement h
  | doWhileStatement => exact builds_doWhileStatement h
  | forStatement => exact builds_forStatement h
  | forInStatement => exact builds_forInStatement h
  | switchStatement => exact builds_switchStatement h
  | breakStatement => exact builds_breakStatement h
  | continueStatement => exact builds_continueStatement h
  | returnStatement => exact builds_returnStatement h
  | tryStatement => exact builds_tryStatement h
  | throwStatement => exact builds_throwStatement h
  | functionDeclaration => exact builds_functionDeclaration h
  | componentDeclaration => exact builds_componentDeclaration h
  | interfaceDeclaration => exact builds_interfaceDeclaration h
  | propertyFull => exact builds_propertyFull h
  | propertyShorthand => exact builds_propertyShorthand h
  | tagStatement => exact builds_tagStatement h
  | importStatement => exact builds_importStatement h
  | includeStatement => exact builds_includeStatement h
  | abortStatement => exact builds_abortStatement h
  | _ => cases hRule

end CfScript
