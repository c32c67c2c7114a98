import CfScript.Proofs.BuiltLists

/-!
# Expressions are built

Every rule for expressions gives an expression of parts that are built, and the expression holds what
the parts keep. There is one lemma for each rule: the form of the node is taken apart, and the parts
stand where the build looks for them.

## Main results

* `builds_binaryExpression`, `builds_arrowFunction`: the two rules with the most shapes;
* `buildsExpression_node`: all rules for expressions.
-/

namespace CfScript

open Build CfScript.Tree

/-- An expression that holds what all parts of its node keep. -/
theorem Tree.BuildsExpression.of_parts {rule : Rule} {cs : List Tree}
    (hRule : rule.isExpression = true)
    (h : (Build.branchExpression (.ofNode rule cs)).Gives (·.held = cs.flatMap kept)) :
    (Tree.node rule cs).BuildsExpression := by
  have hPlain : rule.isPlain = true := by
    cases rule <;> first | rfl | cases hRule
  refine .of_branch ?_
  rwa [kept_node hPlain]

/-! ## Operations -/

theorem operator_token {α : Type} (what : String) {ofKind? : TokenKind → Option α} {u : Token}
    {op : α} (h : ofKind? u.kind = some op) :
    Build.operator what ofKind? (Reading.ofTree (.token u)) = pure op := by
  simp [Build.operator, h]

/-- Every sign of an assignment is its operator. -/
theorem AssignOp.ofKind?_of_isAssignment {k : TokenKind} (h : k.isAssignment = true) :
    ∃ op, AssignOp.ofKind? k = some op := by
  obtain ⟨s, rfl⟩ : ∃ s, k = .symbol s := by
    cases k <;> simp_all [TokenKind.isAssignment]
  have hAll : ∀ s ∈ TokenKind.assignments, (AssignOp.ofKind? (.symbol s)).isSome = true := by decide
  exact Option.isSome_iff_exists.1 (hAll s (by simpa [TokenKind.isAssignment] using h))

theorem UnaryOp.ofKind?_of_mem {k : TokenKind} (h : Grammar.unaryOperators.contains k = true) :
    ∃ op, UnaryOp.ofKind? k = some op := by
  have hAll : ∀ k ∈ Grammar.unaryOperators, (UnaryOp.ofKind? k).isSome = true := by decide
  exact Option.isSome_iff_exists.1 (hAll k (by simpa using h))

theorem builds_assignmentExpression {cs : List Tree} (h : Parts Rule.assignmentExpression.form cs) :
    (node .assignmentExpression cs).BuildsExpression := by
  obtain ⟨a, us, rfl, ha, h⟩ := h.expression
  obtain ⟨u, us, rfl, ⟨hu, -⟩, h⟩ := h.token
  obtain ⟨b, us, rfl, hb, h⟩ := h.expression
  obtain rfl := h.done
  obtain ⟨op, hOp⟩ := AssignOp.ofKind?_of_isAssignment hu
  refine .of_parts rfl ?_
  rw [branchExpression, Branch.rule_ofNode]
  dsimp only
  rw [Branch.child_ofNode rfl, pure_bind, operator_token _ hOp, pure_bind,
    Branch.childExpression_ofNode rfl, Branch.childExpression_ofNode rfl]
  refine ha.builds.bind fun x hx => hb.builds.bind fun y hy => gives_pure ?_
  simp [Expression.held, hx, hy]

theorem builds_ternaryExpression {cs : List Tree} (h : Parts Rule.ternaryExpression.form cs) :
    (node .ternaryExpression cs).BuildsExpression := by
  obtain ⟨a, us, rfl, ha, h⟩ := h.expression
  obtain ⟨q, us, rfl, -, h⟩ := h.kind
  obtain ⟨b, us, rfl, hb, h⟩ := h.expression
  obtain ⟨r, us, rfl, -, h⟩ := h.kind
  obtain ⟨c, us, rfl, hc, h⟩ := h.expression
  obtain rfl := h.done
  refine .of_parts rfl ?_
  rw [branchExpression, Branch.rule_ofNode]
  dsimp only
  rw [Branch.childExpression_ofNode rfl, Branch.childExpression_ofNode rfl,
    Branch.childExpression_ofNode rfl]
  refine ha.builds.bind fun x hx => hb.builds.bind fun y hy => hc.builds.bind fun z hz =>
    gives_pure ?_
  simp [Expression.held, hx, hy, hz]

theorem builds_elvisExpression {cs : List Tree} (h : Parts Rule.elvisExpression.form cs) :
    (node .elvisExpression cs).BuildsExpression := by
  obtain ⟨a, us, rfl, ha, h⟩ := h.expression
  obtain ⟨q, us, rfl, -, h⟩ := h.kind
  obtain ⟨b, us, rfl, hb, h⟩ := h.expression
  obtain rfl := h.done
  refine .of_parts rfl ?_
  rw [branchExpression, Branch.rule_ofNode]
  dsimp only
  rw [Branch.childExpression_ofNode rfl, Branch.childExpression_ofNode rfl]
  refine ha.builds.bind fun x hx => hb.builds.bind fun y hy => gives_pure ?_
  simp [Expression.held, hx, hy]

/-- The tokens of an operator between two operands, in whatever words. -/
theorem Parts.operator {next : Form} {ts : List Tree} (h : Parts (.operator next) ts) :
    ∃ us op vs, ts = us.map .token ++ vs ∧ us ≠ [] ∧ BinaryOp.ofKinds? (us.map (·.kind)) = some op ∧
      Parts next vs := by
  rcases h.either with h | h
  · obtain ⟨u, us, rfl, ⟨hu, -⟩, h⟩ := h.token
    obtain ⟨op, hOp⟩ := Option.isSome_iff_exists.1 hu
    exact ⟨[u], op, us, rfl, by simp, hOp, h⟩
  rcases h.either with h | h
  · obtain ⟨u, us, rfl, hu, h⟩ := h.kind
    obtain ⟨v, us, rfl, hv, h⟩ := h.kind
    exact ⟨[u, v], .isNot, us, rfl, by simp, by simp [hu, hv, BinaryOp.ofKinds?], h⟩
  · obtain ⟨u, us, rfl, hu, h⟩ := h.kind
    obtain ⟨v, us, rfl, hv, h⟩ := h.kind
    obtain ⟨w, us, rfl, hw, h⟩ := h.kind
    exact ⟨[u, v, w], .doesNotContain, us, rfl, by simp, by simp [hu, BinaryOp.ofKinds?], h⟩

theorem binaryOperator_tokens (b : Branch) {us : List Token} {op : BinaryOp}
    (h : BinaryOp.ofKinds? (us.map (·.kind)) = some op) :
    Build.binaryOperator b (us.map fun u => .ofTree (.token u)) = pure op := by
  have hTokens : (us.map fun u => Reading.ofTree (.token u)).filterMap (·.token?) = us := by
    simp [List.filterMap_map, Function.comp_def]
  simp only [Build.binaryOperator, hTokens, h]

/-- The operator is what stands between the first and the last part. -/
theorem binary_parts {b : Branch} {first last : Reading} {us : List Token} {op : BinaryOp}
    (hParts : b.parts = first :: ((us.map fun u => .ofTree (.token u)) ++ [last]))
    (h : BinaryOp.ofKinds? (us.map (·.kind)) = some op) (hUs : us ≠ []) :
    Build.binary b = (do
      let left ← first.expression
      let right ← last.expression
      return .binary op left right b.span) := by
  obtain ⟨u, vs, rfl⟩ := List.exists_cons_of_ne_nil hUs
  have hOp := binaryOperator_tokens b h
  rw [List.map_cons] at hOp
  simp only [Build.binary, hParts, List.map_cons, List.cons_append]
  rw [← List.cons_append, List.dropLast_concat, hOp, pure_bind, List.getLast?_concat]
  rfl

theorem builds_binaryExpression {cs : List Tree} (h : Parts Rule.binaryExpression.form cs) :
    (node .binaryExpression cs).BuildsExpression := by
  obtain ⟨a, ts, rfl, ha, h⟩ := h.expression
  obtain ⟨us, op, ts, rfl, hUs, hOp, h⟩ := h.operator
  obtain ⟨b, ts, rfl, hb, h⟩ := h.expression
  obtain rfl := h.done
  refine .of_parts rfl ?_
  rw [branchExpression, Branch.rule_ofNode]
  dsimp only
  have hParts : (Branch.ofNode .binaryExpression (a :: (us.map .token ++ [b]))).parts =
      .ofTree a :: ((us.map fun u => .ofTree (.token u)) ++ [.ofTree b]) := by
    simp
  rw [binary_parts hParts hOp hUs]
  refine ha.builds.bind fun x hx => hb.builds.bind fun y hy => gives_pure ?_
  simp [Expression.held, hx, hy, flatMap_kept_tokens]

theorem builds_unaryExpression {cs : List Tree} (h : Parts Rule.unaryExpression.form cs) :
    (node .unaryExpression cs).BuildsExpression := by
  obtain ⟨u, us, rfl, ⟨hu, -⟩, h⟩ := h.token
  obtain ⟨a, us, rfl, ha, h⟩ := h.expression
  obtain rfl := h.done
  obtain ⟨op, hOp⟩ := UnaryOp.ofKind?_of_mem hu
  refine .of_parts rfl ?_
  rw [branchExpression, Branch.rule_ofNode]
  dsimp only
  rw [Branch.child_ofNode rfl, pure_bind, operator_token _ hOp, pure_bind,
    Branch.childExpression_ofNode rfl]
  exact ha.builds.bind fun x hx => gives_pure (by simp [Expression.held, hx])

theorem builds_postfixExpression {cs : List Tree} (h : Parts Rule.postfixExpression.form cs) :
    (node .postfixExpression cs).BuildsExpression := by
  obtain ⟨a, us, rfl, ha, h⟩ := h.expression
  obtain ⟨u, us, rfl, ⟨hu, -⟩, h⟩ := h.token
  obtain rfl := h.done
  obtain ⟨op, hOp⟩ := Option.isSome_iff_exists.1 hu
  refine .of_parts rfl ?_
  rw [branchExpression, Branch.rule_ofNode]
  dsimp only
  rw [Branch.child_ofNode rfl, pure_bind]
  simp only [Reading.token?_token, Option.bind_some, hOp]
  rw [Branch.childExpression_ofNode rfl]
  exact ha.builds.bind fun x hx => gives_pure (by simp [Expression.held, hx])

theorem builds_parenExpression {cs : List Tree} (h : Parts Rule.parenExpression.form cs) :
    (node .parenExpression cs).BuildsExpression := by
  obtain ⟨l, us, rfl, -, h⟩ := h.kind
  obtain ⟨a, us, rfl, ha, h⟩ := h.expression
  obtain ⟨r, us, rfl, -, h⟩ := h.kind
  obtain rfl := h.done
  refine .of_parts rfl ?_
  rw [branchExpression, Branch.rule_ofNode]
  dsimp only
  rw [Branch.childExpression_ofNode rfl]
  exact ha.builds.bind fun x hx => gives_pure (by simp [Expression.held, hx])

/-! ## Accesses -/

/-- The arguments in a node with one list of them. -/
theorem gives_arguments {rule : Rule} {cs as : List Tree} (h : Parts Rule.argumentList.form as)
    (hList : (Branch.ofNode rule cs).node? .argumentList = some (.ofNode .argumentList as)) :
    (Build.arguments (.ofNode rule cs)).Gives
      (heldArguments · = (Tree.node .argumentList as).kept) := by
  rw [Build.arguments, hList]
  exact gives_argumentList h

theorem builds_callExpression {cs : List Tree} (h : Parts Rule.callExpression.form cs) :
    (node .callExpression cs).BuildsExpression := by
  obtain ⟨a, us, rfl, ha, h⟩ := h.expression
  obtain ⟨as, us, rfl, ⟨has, -⟩, h⟩ := h.node
  obtain rfl := h.done
  refine .of_parts rfl ?_
  rw [branchExpression, Branch.rule_ofNode]
  dsimp only
  rw [Branch.childExpression_ofNode rfl]
  refine ha.builds.bind fun x hx => (gives_arguments has ?_).bind fun xs hxs => gives_pure ?_
  · simp [Branch.node?, ha.branchOf? .argumentList rfl]
  · simp [Expression.held, hx, hxs]

theorem builds_memberExpression {cs : List Tree} (h : Parts Rule.memberExpression.form cs) :
    (node .memberExpression cs).BuildsExpression := by
  obtain ⟨a, us, rfl, ha, h⟩ := h.expression
  obtain ⟨u, us, rfl, -, h⟩ := h.token
  obtain ⟨w, us, rfl, hw, h⟩ := h.word
  obtain rfl := h.done
  refine .of_parts rfl ?_
  rw [branchExpression, Branch.rule_ofNode]
  dsimp only
  rw [Branch.child_ofNode rfl, pure_bind, Branch.childExpression_ofNode rfl]
  refine ha.builds.bind fun x hx => ?_
  rw [Branch.child_ofNode rfl, pure_bind, identifier_token _ hw, pure_bind]
  exact gives_pure (by simp [Expression.held, hx])

theorem builds_indexExpression {cs : List Tree} (h : Parts Rule.indexExpression.form cs) :
    (node .indexExpression cs).BuildsExpression := by
  obtain ⟨a, us, rfl, ha, h⟩ := h.expression
  obtain ⟨l, us, rfl, -, h⟩ := h.kind
  obtain ⟨b, us, rfl, hb, h⟩ := h.expression
  obtain ⟨r, us, rfl, -, h⟩ := h.kind
  obtain rfl := h.done
  refine .of_parts rfl ?_
  rw [branchExpression, Branch.rule_ofNode]
  dsimp only
  rw [Branch.childExpression_ofNode rfl, Branch.childExpression_ofNode rfl]
  refine ha.builds.bind fun x hx => hb.builds.bind fun y hy => gives_pure ?_
  simp [Expression.held, hx, hy]

/-! ## Literals -/

theorem heldEntries_eq (entries : List (StructEntry Expression)) :
    heldEntries entries = entries.flatMap fun e => e.key.held ++ e.value.held := by
  induction entries with
  | nil => rfl
  | cons e entries ih => rw [heldEntries, ih, List.flatMap_cons]

/-- Expressions between marks. -/
theorem gives_expressions {ts : List Tree}
    (h : ∀ t ∈ ts, Operand t ∨ ∃ u, t = .token u ∧ u.kind ∈ Reading.fillers) :
    (Build.all (·.expression) ((Branch.valued ts).map Reading.ofTree)).Gives
      (heldExpressions · = ts.flatMap kept) := by
  induction ts with
  | nil => exact gives_pure rfl
  | cons t ts ih =>
    have hRest := ih fun t ht => h t (by simp [ht])
    rcases h t (by simp) with ht | ⟨u, rfl, hu⟩
    · have hValued : Branch.valued (t :: ts) = t :: Branch.valued ts := by
        simp [Branch.valued, ht.isFiller]
      rw [hValued]
      refine ht.builds.bind fun x hx => hRest.bind fun xs hxs => gives_pure ?_
      rw [heldExpressions, hx, hxs, List.flatMap_cons]
    · have hValued : Branch.valued (.token u :: ts) = Branch.valued ts := by
        simp [Branch.valued, hu]
      rw [hValued]
      exact hRest

theorem builds_arrayLiteral {cs : List Tree} (h : Parts Rule.arrayLiteral.form cs) :
    (node .arrayLiteral cs).BuildsExpression := by
  obtain ⟨l, us, rfl, hl, h⟩ := h.kind
  obtain ⟨us, vs, rfl, hus, h⟩ := h.many
  obtain ⟨r, vs, rfl, hr, h⟩ := h.kind
  obtain rfl := h.done
  refine .of_parts rfl ?_
  rw [branchExpression, Branch.rule_ofNode]
  dsimp only
  rw [Branch.operands_ofNode]
  refine (gives_expressions fun t ht => ?_).bind fun xs hxs => gives_pure hxs
  simp only [List.mem_cons, List.mem_append, List.not_mem_nil, or_false] at ht
  rcases ht with rfl | ht | rfl
  · exact .inr ⟨l, rfl, by simp [hl, Reading.fillers]⟩
  · obtain ⟨hSort, hBuilt⟩ := hus t ht
    rw [Bool.or_eq_true] at hSort
    refine hSort.imp hBuilt.operand fun hToken => ?_
    obtain ⟨u, rfl, hu⟩ := isTokenThat_iff.1 hToken
    exact ⟨u, rfl, by simp [beq_iff_eq.1 hu, Reading.fillers]⟩
  · exact .inr ⟨r, rfl, by simp [hr, Reading.fillers]⟩

/-- The key of an entry is a word or a literal. -/
theorem gives_key {u : Token} (hClosed : u.isClosed)
    (h : (u.kind.isWord || u.kind == .string || u.kind == .integer) = true) :
    (Build.key (Reading.ofTree (.token u))).Gives (·.held = []) := by
  rw [Build.key, Reading.token?_token]
  dsimp only
  split
  next => exact gives_pure rfl
  next hWord =>
    refine builds_token hClosed ?_
    simp only [Bool.eq_false_iff.2 hWord, Bool.false_or, Bool.or_eq_true, beq_iff_eq] at h
    rcases h with h | h <;> simp [h, operandKinds]

theorem gives_structEntry {cs : List Tree} (h : Parts Rule.structEntry.form cs) :
    (Build.structEntry (.ofNode .structEntry cs)).Gives
      fun e => e.key.held ++ e.value.held = (Tree.node .structEntry cs).kept := by
  obtain ⟨u, us, rfl, ⟨hu, hClosed⟩, h⟩ := h.token
  obtain ⟨m, e, rfl, he⟩ : ∃ m e, us = [.token m, e] ∧ Operand e := by
    rcases h.either with h | h
    · obtain ⟨m, us, rfl, -, h⟩ := h.kind
      obtain ⟨e, us, rfl, he, h⟩ := h.expression
      obtain rfl := h.done
      exact ⟨m, e, rfl, he⟩
    · obtain ⟨m, us, rfl, -, h⟩ := h.kind
      obtain ⟨e, us, rfl, he, h⟩ := h.expression
      obtain rfl := h.done
      exact ⟨m, e, rfl, he⟩
  rw [Build.structEntry, Branch.child_ofNode rfl, pure_bind]
  refine (gives_key hClosed hu).bind fun key hKey => ?_
  rw [Branch.child_ofNode rfl, pure_bind, Branch.childExpression_ofNode rfl, kept_node rfl]
  exact he.builds.bind fun value hValue => gives_pure (by simp [hKey, hValue])

theorem builds_structLiteral {cs : List Tree} (h : Parts Rule.structLiteral.form cs) :
    (node .structLiteral cs).BuildsExpression := by
  refine .of_parts rfl ?_
  rw [branchExpression, Branch.rule_ofNode]
  dsimp only
  refine (gives_all_nodes h.built fun ds => gives_structEntry).bind fun es hes => gives_pure ?_
  rw [Expression.held, heldEntries_eq, hes, flatMap_kept_filter h.listed]

/-! ## Objects and functions -/

/-- A path is a string or a name with dots, and it is built as it is written. -/
theorem Parts.path {next : Form} {ts : List Tree} (h : Parts (.path next) ts) (what : String) :
    ∃ t us, ts = t :: us ∧ (t.kept = [] ∧ (Reading.ofTree t).branchOf? .argumentList = none ∧
      (Reading.ofTree t).isFiller = false ∧
      (Build.path what (Reading.ofTree t)).Gives fun _ => True) ∧ Parts next us := by
  obtain ⟨t, us, rfl, ⟨ht, hBuilt⟩, h⟩ := h.one
  refine ⟨t, us, rfl, ?_, h⟩
  rw [Bool.or_eq_true] at ht
  rcases ht with hToken | hNode
  · obtain ⟨u, rfl, hu⟩ := isTokenThat_iff.1 hToken
    have hKind : u.kind = .string := beq_iff_eq.1 hu
    have hPath : Build.path what (Reading.ofTree (.token u)) = pure u.lexeme := by
      simp [Build.path, Tree.token, hKind]
    rw [hPath]
    exact ⟨rfl, rfl, by simp [hKind, Reading.fillers], gives_pure trivial⟩
  · obtain ⟨ds, rfl⟩ := isNode_iff.1 hNode
    exact ⟨kept_typeName hBuilt.parts, by simp, rfl, gives_pure trivial⟩

theorem builds_newExpression {cs : List Tree} (h : Parts Rule.newExpression.form cs) :
    (node .newExpression cs).BuildsExpression := by
  obtain ⟨n, us, rfl, -, h⟩ := h.kind
  obtain ⟨p, us, rfl, ⟨hKept, hNone, -, hPath⟩, h⟩ := h.path "class name"
  refine .of_parts rfl ?_
  rw [branchExpression, Branch.rule_ofNode]
  dsimp only
  rw [Branch.child_ofNode rfl, pure_bind]
  refine hPath.bind fun name _ => ?_
  rcases h.either with h | h
  · obtain rfl := h.done
    have hNo : Build.arguments (.ofNode .newExpression [.token n, p]) = pure [] := by
      simp [Build.arguments, Branch.node?, List.findSome?_cons, hNone]
    rw [hNo, pure_bind]
    exact gives_pure (by simp [Expression.held, heldArguments, hKept])
  · obtain ⟨as, us, rfl, ⟨has, -⟩, h⟩ := h.node
    obtain rfl := h.done
    refine (gives_arguments has ?_).bind fun xs hxs => gives_pure ?_
    · simp [Branch.node?, List.findSome?_cons, hNone]
    · simp [Expression.held, hxs, hKept]

/-- The parameters in a node with a list of them. -/
theorem gives_parameters {rule : Rule} {cs ps : List Tree} (h : Parts Rule.parameterList.form ps)
    (hList : (Branch.ofNode rule cs).node? .parameterList = some (.ofNode .parameterList ps)) :
    (Build.parameters (.ofNode rule cs)).Gives
      (heldParameters · = (Tree.node .parameterList ps).kept) := by
  rw [Build.parameters, hList]
  exact gives_parameterList h

/-- The block of a node that has one. -/
theorem gives_block?_of_node {rule : Rule} {cs bs : List Tree} (h : Parts Rule.block.form bs)
    (hBlock : (Branch.ofNode rule cs).node? .block = some (.ofNode .block bs)) :
    (Build.block? (.ofNode rule cs)).Gives
      fun body? => ∃ body, body? = some body ∧ [outlines body] = (Tree.node .block bs).kept := by
  rw [Build.block?, hBlock]
  exact (gives_block h).map fun body hBody => ⟨body, rfl, hBody⟩

/-- The statements of a block that has to be there. -/
theorem gives_requiredBlock {rule : Rule} {cs bs : List Tree} (h : Parts Rule.block.form bs)
    (hBlock : (Branch.ofNode rule cs).node? .block = some (.ofNode .block bs)) :
    (Build.block (.ofNode rule cs)).Gives
      fun body => [outlines body] = (Tree.node .block bs).kept := by
  refine (gives_block?_of_node h hBlock).bind fun body? hBody? => ?_
  obtain ⟨body, rfl, hBody⟩ := hBody?
  exact gives_pure hBody

theorem builds_functionExpression {cs : List Tree} (h : Parts Rule.functionExpression.form cs) :
    (node .functionExpression cs).BuildsExpression := by
  obtain ⟨f, us, rfl, -, h⟩ := h.kind
  obtain ⟨ps, us, rfl, ⟨hps, -⟩, h⟩ := h.node
  obtain ⟨bs, us, rfl, ⟨hbs, -⟩, h⟩ := h.node
  obtain rfl := h.done
  refine .of_parts rfl ?_
  rw [branchExpression, Branch.rule_ofNode]
  dsimp only
  refine (gives_parameters hps ?_).bind fun params hParams => ?_
  · simp [Branch.node?, List.findSome?_cons]
  refine (gives_requiredBlock hbs ?_).bind fun body hBody => gives_pure ?_
  · simp [Branch.node?, List.findSome?_cons]
  · simp [Expression.held, hParams, hBody]

/-- The parameters of an arrow function are one word or a list. -/
theorem gives_arrowParameters {t : Tree} (hBuilt : t.Built)
    (h : (t.isTokenThat (·.kind == .identifier) || t.isNode .parameterList) = true) :
    (Build.arrowParameters (Reading.ofTree t)).Gives (heldParameters · = t.kept) := by
  rw [Bool.or_eq_true] at h
  rcases h with hToken | hNode
  · obtain ⟨u, rfl, hu⟩ := isTokenThat_iff.1 hToken
    have hWord : u.kind.isWord = true := by simp [beq_iff_eq.1 hu, TokenKind.isWord]
    have hOne : Build.arrowParameters (Reading.ofTree (.token u)) =
        pure [{ name := wordIdentifier u }] := by
      simp [Build.arrowParameters, hWord]
    rw [hOne]
    exact gives_pure rfl
  · obtain ⟨ps, rfl⟩ := isNode_iff.1 hNode
    have hList : Build.arrowParameters (Reading.ofTree (.node .parameterList ps)) =
        Build.all Build.parameter ((Branch.ofNode .parameterList ps).nodes .parameter) := by
      simp [Build.arrowParameters]
    rw [hList]
    exact gives_parameterList hBuilt.parts

theorem builds_arrowFunction {cs : List Tree} (h : Parts Rule.arrowFunction.form cs) :
    (node .arrowFunction cs).BuildsExpression := by
  obtain ⟨p, us, rfl, ⟨hp, hBuilt⟩, h⟩ := h.one
  obtain ⟨a, us, rfl, -, h⟩ := h.token
  obtain ⟨b, us, rfl, ⟨hb, hBuiltBody⟩, h⟩ := h.one
  obtain rfl := h.done
  refine .of_parts rfl ?_
  rw [branchExpression, Branch.rule_ofNode]
  dsimp only
  rw [Build.arrow, Branch.child_ofNode rfl, pure_bind]
  refine (gives_arrowParameters hBuilt hp).bind fun params hParams => ?_
  rw [Bool.or_eq_true] at hb
  rcases hb with hBlock | hExpression
  · obtain ⟨bs, rfl⟩ := isNode_iff.1 hBlock
    simp only [Branch.parts_ofNode, List.map_cons, List.map_nil, List.getLast?_cons_cons,
      List.getLast?_singleton, Option.getD_some, Branch.branchOf?_node, if_true]
    refine (gives_block hBuiltBody.parts).bind fun body hBody => gives_pure ?_
    simp [Expression.held, hParams, hBody]
  · have hOperand := hBuiltBody.operand hExpression
    simp only [Branch.parts_ofNode, List.map_cons, List.map_nil, List.getLast?_cons_cons,
      List.getLast?_singleton, Option.getD_some, hOperand.branchOf? .block rfl]
    refine hOperand.builds.bind fun value hValue => gives_pure ?_
    simp [Expression.held, hParams, hValue]

/-! ## All rules -/

/-- Every rule for expressions gives an expression of parts that are built. -/
theorem buildsExpression_node {rule : Rule} {cs : List Tree} (h : Parts rule.form cs)
    (hRule : rule.isExpression = true) : (Tree.node rule cs).BuildsExpression := by
  cases rule with
  | assignmentExpression => exact builds_assignmentExpression h
  | ternaryExpression => exact builds_ternaryExpression h
  | elvisExpression => exact builds_elvisExpression h
  | binaryExpression => exact builds_binaryExpression h
  | unaryExpression => exact builds_unaryExpression h
  | postfixExpression => exact builds_postfixExpression h
  | parenExpression => exact builds_parenExpression h
  | callExpression => exact builds_callExpression h
  | memberExpression => exact builds_memberExpression h
  | indexExpression => exact builds_indexExpression h
  | arrayLiteral => exact builds_arrayLiteral h
  | structLiteral => exact builds_structLiteral h
  | newExpression => exact builds_newExpression h
  | functionExpression => exact builds_functionExpression h
  | arrowFunction => exact builds_arrowFunction h
  | _ => cases hRule

end CfScript
