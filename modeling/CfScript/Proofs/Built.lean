import CfScript.Build.Root
import CfScript.Proofs.Outcome
import CfScript.Proofs.Outline

/-!
# Trees that are built

A tree without errors is built from the leaves upwards. `Built` says of a tree that all its nodes have
the forms of their rules, and that the statements and the expressions among them are built and hold
what the tree keeps. So what is built of a node is found by taking its form apart: each part is a
token, or a tree that is built already.

## Main results

* `Tree.Built`: trees that are built;
* `Parts.one`, `Parts.many`: the form of parts that are built is taken apart;
* `kept_node`, `kept_attributed`: what a node keeps.
-/

namespace CfScript

/-- Whether the token, if it is a string, has a text between two quotes. -/
def Token.isClosed (t : Token) : Prop :=
  t.kind = .string → (Build.stringText (Build.quoteOf t.lexeme.toList).char t.lexeme.toList).isSome

/-- Whether a statement stands for a tree: in the same place, of the same rule, with the same
statements in its lists. An empty statement is an empty block. -/
structure Statement.Represents (s : Statement) (t : Tree) : Prop where
  held : s.held = t.kept
  span : s.span = t.span
  rule : t.rule? = some .emptyStatement ∨ t.rule? = some s.rule

/-- A part of a tree with what it keeps. -/
def Piece.of (t : Tree) : Piece := ⟨t, t.kept⟩

/-- Whether a node of the rule keeps what its parts keep, and nothing else. -/
def Rule.isPlain (rule : Rule) : Bool :=
  rule != .emptyStatement && !rule.holdsList && rule != .switchStatement && !rule.hasAttributes

namespace Tree

/-- Whether the tree is built as a statement. -/
def BuildsStatement (t : Tree) : Prop := (Build.statement t).Gives (·.Represents t)

/-- Whether the tree is built as an expression. -/
def BuildsExpression (t : Tree) : Prop := (Build.expression t).Gives (·.held = t.kept)

/-- A tree without errors whose nodes have the forms of their rules and whose statements and
expressions are built. -/
inductive Built : Tree → Prop
  | token {u : Token} : u.isClosed → Built (.token u)
  | node {rule : Rule} {cs : List Tree} : rule.form cs → (∀ c ∈ cs, c.Built) →
    (rule.isStatement = true → (Tree.node rule cs).BuildsStatement) →
    (rule.isExpression = true → (Tree.node rule cs).BuildsExpression) → Built (.node rule cs)

theorem hasErrorsAny_eq_false_iff {ts : List Tree} :
    hasErrorsAny ts = false ↔ ∀ t ∈ ts, t.hasErrors = false := by
  induction ts with
  | nil => simp [hasErrorsAny]
  | cons t ts ih => simp [hasErrorsAny, ih]

theorem Built.hasErrors {t : Tree} (h : t.Built) : t.hasErrors = false := by
  induction h with
  | token => rfl
  | node _ _ _ _ ih => exact hasErrorsAny_eq_false_iff.2 ih

/-- A part that is built is as is said. -/
theorem Built.of_fits {p : Tree → Bool} {t : Tree} (h : t.Built) (hFits : t.Fits p) : p t = true :=
  hFits.resolve_left (by simp [h.hasErrors])

/-! ## What a tree keeps -/

@[simp] theorem kept_token (u : Token) : (token u).kept = [] := rfl

theorem kept_eq_held (rule : Rule) (cs : List Tree) :
    (node rule cs).kept = rule.held (rule.kept (cs.map .of)) := by
  rw [kept, held, pieces_eq_map]
  rfl

/-- What the parts of a node keep, if nothing is left out and no list stands under the node. -/
theorem kept_node {rule : Rule} {cs : List Tree} (h : rule.isPlain = true) :
    (node rule cs).kept = cs.flatMap kept := by
  simp only [Rule.isPlain, Bool.and_eq_true, bne_iff_ne, Bool.not_eq_true'] at h
  obtain ⟨⟨⟨hEmpty, hList⟩, hSwitch⟩, hAttributes⟩ := h
  simp [kept_eq_held, Rule.kept, Rule.held, hEmpty, hList, hSwitch, hAttributes, List.flatMap_map,
    Piece.of]

/-- The outlines of the statements among trees. -/
def listed (ts : List Tree) : List Outline := ts.filterMap fun t => (Piece.of t).outline?

/-- What the parts of a node keep that are no statements of the list, and the list. -/
theorem kept_list {rule : Rule} {cs : List Tree} (hList : rule.holdsList = true) :
    (node rule cs).kept = (cs.filter (!·.isStatement)).flatMap kept ++ [listed cs] := by
  have hEmpty : rule ≠ .emptyStatement := by
    rintro rfl
    cases hList
  have hSwitch : rule ≠ .switchStatement := by
    rintro rfl
    cases hList
  have hAttributes : rule.hasAttributes = false := by
    cases rule <;> simp_all [Rule.holdsList, Rule.hasAttributes]
  simp only [kept_eq_held, Rule.kept, hSwitch, hAttributes, Rule.held, hEmpty, hList, if_true,
    Bool.false_eq_true, if_false, List.filter_map, List.flatMap_map, List.filterMap_map]
  rfl

/-- What the parts of a node keep that are neither attributes nor blocks. -/
def keptOthers (ts : List Tree) : List (List Outline) :=
  (ts.filter fun t => !t.isNode .attribute && !t.isNode .block).flatMap kept

/-- What the attributes among trees keep. -/
def keptAttributes (ts : List Tree) : List (List Outline) :=
  (AttributeMap.ofList ((ts.map .of).filterMap Rule.attribute?)).values.flatMap (·.held)

/-- What the blocks among trees keep. -/
def keptBlocks (ts : List Tree) : List (List Outline) :=
  (ts.filter (·.isNode .block)).flatMap kept

theorem kept_attributed {rule : Rule} {cs : List Tree} (h : rule.hasAttributes = true) :
    (node rule cs).kept = keptOthers cs ++ keptAttributes cs ++ keptBlocks cs := by
  have hEmpty : rule ≠ .emptyStatement := by
    rintro rfl
    cases h
  have hSwitch : rule ≠ .switchStatement := by
    rintro rfl
    cases h
  have hList : rule.holdsList = false := by
    cases rule <;> simp_all [Rule.holdsList, Rule.hasAttributes]
  simp only [kept_eq_held, Rule.kept, hSwitch, h, Rule.held, hEmpty, hList, if_true,
    Bool.false_eq_true, if_false, List.filter_map, List.flatMap_append, List.flatMap_map]
  rfl

theorem flatMap_kept_tokens {ts : List Tree} (h : ∀ t ∈ ts, ∃ u, t = token u) :
    ts.flatMap kept = [] := by
  refine List.flatMap_eq_nil_iff.2 fun t ht => ?_
  obtain ⟨u, rfl⟩ := h t ht
  rfl

end Tree

/-! ## Forms of parts that are built -/

/-- An expression that is built. -/
structure Operand (t : Tree) : Prop where
  isExpression : t.isExpression = true
  builds : t.BuildsExpression

/-- A statement that is built. -/
structure Body (t : Tree) : Prop where
  isStatement : t.isStatement = true
  builds : t.BuildsStatement

/-- Parts that are built and of a form. -/
structure Parts (form : Form) (ts : List Tree) : Prop where
  form : form ts
  built : ∀ t ∈ ts, t.Built

namespace Tree

variable {rule : Rule} {cs : List Tree} {t : Tree}

theorem Built.parts (h : (Tree.node rule cs).Built) : Parts rule.form cs := by
  cases h with
  | node hForm hBuilt => exact ⟨hForm, hBuilt⟩

theorem Built.body (h : t.Built) (ht : t.isStatement = true) : Body t := by
  cases h with
  | token => cases ht
  | node _ _ hStatement _ => exact ⟨ht, hStatement ht⟩

theorem Built.isClosed {u : Token} (h : (Tree.token u).Built) : u.isClosed := by
  generalize ht : Tree.token u = t at h
  cases h with
  | token hClosed =>
    cases ht
    exact hClosed
  | node => cases ht

/-- A token that is an expression is a literal or a name. -/
theorem builds_token {u : Token} (h : u.isClosed) (hKind : operandKinds.contains u.kind = true) :
    (Tree.token u).BuildsExpression := by
  have hOut : ∀ e : Expression, e.held = [] →
      (pure e : Build Expression).Gives (·.held = (token u).kept) :=
    fun e he => Build.gives_pure he
  have hKinds : u.kind ∈ operandKinds := by simpa using hKind
  obtain ⟨kind, lexeme, span, line⟩ := u
  simp only [operandKinds, List.mem_cons, List.not_mem_nil, or_false] at hKinds
  rcases hKinds with rfl | rfl | rfl | rfl | rfl | rfl | rfl
  · exact hOut _ rfl
  · exact hOut _ rfl
  · obtain ⟨text, hText⟩ := Option.isSome_iff_exists.1 (h rfl)
    have hString : Build.expression (token ⟨.string, lexeme, span, line⟩) =
        pure (.string (String.ofList text) (Build.quoteOf lexeme.toList) span) := by
      change Build.string _ = _
      simp only [Build.string]
      rw [hText]
    rw [BuildsExpression, hString]
    exact hOut _ rfl
  · exact hOut _ rfl
  · exact hOut _ rfl
  · exact hOut _ rfl
  · exact hOut _ rfl

theorem Built.operand (h : t.Built) (ht : t.isExpression = true) : Operand t := by
  refine ⟨ht, ?_⟩
  cases h with
  | token hClosed => exact builds_token hClosed (by simpa using ht)
  | node _ _ _ hExpression => exact hExpression (by simpa using ht)

end Tree

namespace Parts

variable {p : Tree → Bool} {next a b : Form} {ts : List Tree}

theorem done (h : Parts .done ts) : ts = [] := h.form

theorem either (h : Parts (.either a b) ts) : Parts a ts ∨ Parts b ts :=
  h.form.imp (⟨·, h.built⟩) (⟨·, h.built⟩)

theorem one (h : Parts (.one p next) ts) :
    ∃ t us, ts = t :: us ∧ (p t = true ∧ t.Built) ∧ Parts next us := by
  obtain ⟨t, us, rfl, hFits, hNext⟩ := Form.one_iff.1 h.form
  have ht := h.built t (by simp)
  exact ⟨t, us, rfl, ⟨ht.of_fits hFits, ht⟩, hNext, fun u hu => h.built u (by simp [hu])⟩

theorem many (h : Parts (.many p next) ts) :
    ∃ us vs, ts = us ++ vs ∧ (∀ u ∈ us, p u = true ∧ u.Built) ∧ Parts next vs := by
  obtain ⟨us, vs, rfl, hFits, hNext⟩ := h.form
  refine ⟨us, vs, rfl, fun u hu => ?_, hNext, fun v hv => h.built v (by simp [hv])⟩
  have hu' := h.built u (by simp [hu])
  exact ⟨hu'.of_fits (hFits u hu), hu'⟩

theorem token {test : Token → Bool} (h : Parts (.one (·.isTokenThat test) next) ts) :
    ∃ u us, ts = .token u :: us ∧ (test u = true ∧ u.isClosed) ∧ Parts next us := by
  obtain ⟨t, us, rfl, ⟨ht, hBuilt⟩, hNext⟩ := h.one
  obtain ⟨u, rfl, hu⟩ := Tree.isTokenThat_iff.1 ht
  exact ⟨u, us, rfl, ⟨hu, hBuilt.isClosed⟩, hNext⟩

theorem kind {k : TokenKind} (h : Parts (.kind k next) ts) :
    ∃ u us, ts = .token u :: us ∧ u.kind = k ∧ Parts next us := by
  obtain ⟨u, us, hTs, ⟨hu, -⟩, hNext⟩ := h.token
  exact ⟨u, us, hTs, beq_iff_eq.1 hu, hNext⟩

theorem word (h : Parts (.word next) ts) :
    ∃ u us, ts = .token u :: us ∧ u.kind.isWord = true ∧ Parts next us := by
  obtain ⟨u, us, hTs, ⟨hu, -⟩, hNext⟩ := h.token
  exact ⟨u, us, hTs, hu, hNext⟩

theorem node {rule : Rule} (h : Parts (.node rule next) ts) :
    ∃ cs us, ts = .node rule cs :: us ∧ (Parts rule.form cs ∧ (Tree.node rule cs).Built) ∧
      Parts next us := by
  obtain ⟨t, us, rfl, ⟨ht, hBuilt⟩, hNext⟩ := h.one
  obtain ⟨cs, rfl⟩ := Tree.isNode_iff.1 ht
  exact ⟨cs, us, rfl, ⟨hBuilt.parts, hBuilt⟩, hNext⟩

theorem expression (h : Parts (.expression next) ts) :
    ∃ t us, ts = t :: us ∧ Operand t ∧ Parts next us := by
  obtain ⟨t, us, rfl, ⟨ht, hBuilt⟩, hNext⟩ := h.one
  exact ⟨t, us, rfl, hBuilt.operand ht, hNext⟩

theorem statement (h : Parts (.statement next) ts) :
    ∃ t us, ts = t :: us ∧ Body t ∧ Parts next us := by
  obtain ⟨t, us, rfl, ⟨ht, hBuilt⟩, hNext⟩ := h.one
  exact ⟨t, us, rfl, hBuilt.body ht, hNext⟩

theorem ending (h : Parts .ending ts) :
    ∀ t ∈ ts, ∃ u : Token, t = .token u ∧ u.kind = .symbol .semicolon := by
  obtain ⟨us, vs, rfl, hAll, hDone⟩ := h.many
  obtain rfl := hDone.done
  intro t ht
  obtain ⟨u, hu, hKind⟩ := Tree.isTokenThat_iff.1 (hAll t (by simpa using ht)).1
  exact ⟨u, hu, beq_iff_eq.1 hKind⟩

end Parts

/-! ## Reading the parts -/

namespace Reading

@[simp] theorem isFiller_token (u : Token) :
    (ofTree (.token u)).isFiller = fillers.contains u.kind := rfl

@[simp] theorem isFiller_node (rule : Rule) (cs : List Tree) :
    (ofTree (.node rule cs)).isFiller = false := rfl

@[simp] theorem token?_token (u : Token) : (ofTree (.token u)).token? = some u := rfl

@[simp] theorem token?_node (rule : Rule) (cs : List Tree) :
    (ofTree (.node rule cs)).token? = none := rfl

@[simp] theorem rule?_token (u : Token) : (ofTree (.token u)).rule? = none := rfl

@[simp] theorem rule?_node (rule : Rule) (cs : List Tree) :
    (ofTree (.node rule cs)).rule? = some rule := rfl

theorem not_fillers_of_isWord {k : TokenKind} (h : k.isWord = true) : k ∉ fillers := by
  cases k <;> simp_all [TokenKind.isWord, fillers]

end Reading

/-- The branch of a node. -/
def Branch.ofNode (rule : Rule) (cs : List Tree) : Branch :=
  ⟨rule, .node rule cs, cs.map Reading.ofTree⟩

namespace Branch

variable {rule other : Rule} {cs : List Tree}

@[simp] theorem rule_ofNode : (ofNode rule cs).rule = rule := rfl

@[simp] theorem parts_ofNode : (ofNode rule cs).parts = cs.map Reading.ofTree := rfl

@[simp] theorem tree_ofNode : (ofNode rule cs).tree = .node rule cs := rfl

@[simp] theorem span_ofNode : (ofNode rule cs).span = (Tree.node rule cs).span := rfl

theorem child_ofNode {i : Nat} {t : Tree} (h : cs[i]? = some t) :
    (ofNode rule cs).child i = pure (Reading.ofTree t) := by
  simp [child, pick, h]

theorem childExpression_ofNode {i : Nat} {t : Tree} (h : cs[i]? = some t) :
    (ofNode rule cs).childExpression i = Build.expression t := by
  rw [childExpression, child_ofNode h, pure_bind]
  rfl

/-- The trees among some that may hold a value. -/
def valued (cs : List Tree) : List Tree := cs.filter fun t => !(Reading.ofTree t).isFiller

theorem operands_ofNode : (ofNode rule cs).operands = (valued cs).map Reading.ofTree := by
  rw [operands, parts_ofNode, valued, List.filter_map]
  rfl

theorem operand_ofNode {i : Nat} {t : Tree} (h : (valued cs)[i]? = some t) :
    (ofNode rule cs).operand i = pure (Reading.ofTree t) := by
  simp [operand, pick, operands_ofNode, h]

theorem operandExpression_ofNode {i : Nat} {t : Tree} (h : (valued cs)[i]? = some t) :
    (ofNode rule cs).operandExpression i = Build.expression t := by
  rw [operandExpression, operand_ofNode h, pure_bind]
  rfl

theorem operandStatement_ofNode {i : Nat} {t : Tree} (h : (valued cs)[i]? = some t) :
    (ofNode rule cs).operandStatement i = Build.statement t := by
  rw [operandStatement, operand_ofNode h, pure_bind]
  rfl

@[simp] theorem branchOf?_token (u : Token) : (Reading.ofTree (.token u)).branchOf? rule = none := rfl

@[simp] theorem branchOf?_node :
    (Reading.ofTree (.node other cs)).branchOf? rule =
      if other = rule then some (ofNode rule cs) else none := by
  simp only [Reading.branchOf?, Reading.rule?_node, Reading.tree_ofTree, Reading.parts_ofTree,
    Option.some.injEq]
  split
  next h =>
    subst h
    rfl
  next => rfl

end Branch

namespace Build

theorem word_token (what : String) {w : Token} (hw : w.kind.isWord = true) :
    Build.word what (Reading.ofTree (.token w)) = pure w := by
  simp [Build.word, Tree.token, hw]

theorem identifier_token (what : String) {w : Token} (hw : w.kind.isWord = true) :
    Build.identifier what (Reading.ofTree (.token w)) = pure (wordIdentifier w) := by
  rw [Build.identifier, word_token what hw, map_pure]

end Build

theorem Tree.BuildsStatement.of_branch {rule : Rule} {cs : List Tree}
    (h : (Build.branchStatement (.ofNode rule cs)).Gives (·.Represents (.node rule cs))) :
    (Tree.node rule cs).BuildsStatement := by
  rw [BuildsStatement, Build.statement, Reading.statement_ofTree_node]
  exact h

theorem Tree.BuildsExpression.of_branch {rule : Rule} {cs : List Tree}
    (h : (Build.branchExpression (.ofNode rule cs)).Gives (·.held = (Tree.node rule cs).kept)) :
    (Tree.node rule cs).BuildsExpression := by
  rw [BuildsExpression, Build.expression, Reading.expression_ofTree_node]
  exact h

namespace Tree

variable {t : Tree}

/-- An expression is a node of a rule for expressions, or a token that is one. -/
theorem isExpression_cases (h : t.isExpression = true) :
    (∃ rule cs, t = .node rule cs ∧ rule.isExpression = true) ∨
      ∃ u, t = .token u ∧ u.kind ∈ Tree.operandKinds := by
  cases t with
  | node rule cs => exact .inl ⟨rule, cs, rfl, by simpa using h⟩
  | leaf l =>
    obtain ⟨u, hu, hKind⟩ := Tree.isTokenThat_iff.1 (show _ = true from h)
    exact .inr ⟨u, hu, by simpa using hKind⟩

theorem isFiller_of_isExpression (h : t.isExpression = true) :
    (Reading.ofTree t).isFiller = false := by
  rcases isExpression_cases h with ⟨rule, cs, rfl, -⟩ | ⟨u, rfl, hKind⟩
  · rfl
  · have hNot : ∀ k ∈ Tree.operandKinds, Reading.fillers.contains k = false := by decide
    exact hNot _ hKind

/-- No mark and no keyword but the constants is an expression. -/
theorem isToken_of_isExpression (h : t.isExpression = true) {k : TokenKind}
    (hk : k ∉ Tree.operandKinds) : (Reading.ofTree t).isToken k = false := by
  rcases isExpression_cases h with ⟨rule, cs, rfl, -⟩ | ⟨u, rfl, hKind⟩
  · rfl
  · simp only [Reading.isToken, Reading.token?_token, Option.any_some, beq_eq_false_iff_ne]
    rintro rfl
    exact hk hKind

/-- Nothing was assumed where an expression stands. -/
theorem isAssumption_of_isExpression (h : t.isExpression = true) (what : String) :
    (Reading.ofTree t).isAssumption what = false := by
  rcases isExpression_cases h with ⟨rule, cs, rfl, -⟩ | ⟨u, rfl, -⟩ <;> rfl

theorem branchOf?_of_isExpression (h : t.isExpression = true) (rule : Rule)
    (hRule : rule.isExpression = false) : (Reading.ofTree t).branchOf? rule = none := by
  rcases isExpression_cases h with ⟨other, cs, rfl, hOther⟩ | ⟨u, rfl, -⟩
  · rw [Branch.branchOf?_node, if_neg]
    rintro rfl
    simp [hRule] at hOther
  · rfl

end Tree

namespace Operand

variable {t : Tree}

theorem node_or_token (h : Operand t) :
    (∃ rule cs, t = .node rule cs ∧ rule.isExpression = true) ∨
      ∃ u, t = .token u ∧ u.kind ∈ Tree.operandKinds := Tree.isExpression_cases h.isExpression

@[simp] theorem isFiller (h : Operand t) : (Reading.ofTree t).isFiller = false :=
  Tree.isFiller_of_isExpression h.isExpression

theorem isNode (h : Operand t) (rule : Rule) (hRule : rule.isExpression = false) :
    t.isNode rule = false := by
  rcases h.node_or_token with ⟨other, cs, rfl, hOther⟩ | ⟨u, rfl, -⟩
  · simp only [Tree.isNode_node, beq_eq_false_iff_ne]
    rintro rfl
    simp [hRule] at hOther
  · rfl

theorem branchOf? (h : Operand t) (rule : Rule) (hRule : rule.isExpression = false) :
    (Reading.ofTree t).branchOf? rule = none :=
  Tree.branchOf?_of_isExpression h.isExpression rule hRule

end Operand

namespace Body

variable {t : Tree}

theorem node (h : Body t) : ∃ rule cs, t = .node rule cs ∧ rule.isStatement = true := by
  have ht := h.isStatement
  cases t with
  | node rule cs => exact ⟨rule, cs, rfl, ht⟩
  | leaf l => cases ht

@[simp] theorem isFiller (h : Body t) : (Reading.ofTree t).isFiller = false := by
  obtain ⟨rule, cs, rfl, -⟩ := h.node
  rfl

theorem isToken (h : Body t) (k : TokenKind) : (Reading.ofTree t).isToken k = false := by
  obtain ⟨rule, cs, rfl, -⟩ := h.node
  rfl

end Body

end CfScript
