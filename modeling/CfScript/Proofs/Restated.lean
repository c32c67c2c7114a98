import CfScript.Proofs.BuiltExpressions
import CfScript.Proofs.Parens

/-!
# Building an expression back

The tree of an expression is built into an expression that says the same, and nothing is found on the
way. There is one lemma for each form: if the parts of a node restate the parts of an expression, then
the node restates the expression. Parentheses that the expression does not have make no difference.

## Main results

* `Returns.bind`, `Returns.all`: builds one after the other that find nothing;
* `restates_binary`, `restates_call`, ...: the nodes of expressions;
* `restates_paren`: parentheses change nothing.
-/

namespace CfScript

/-! ## Builds that find nothing -/

namespace Build

variable {α β γ δ : Type} {b : Build α} {f : α → Build β} {P : α → Prop} {Q : β → Prop}

/-- Whether a build gives a result with a property and finds nothing, under any rules. -/
def Returns (b : Build α) (P : α → Prop) : Prop :=
  ∀ rules log, ∃ a, b.runOn rules log = (.ok a, log) ∧ P a

theorem returns_pure {a : α} (h : P a) : Returns (pure a) P := fun _ _ => ⟨a, rfl, h⟩

namespace Returns

theorem bind (h : Returns b P) (hf : ∀ a, P a → Returns (f a) Q) : Returns (b >>= f) Q := by
  intro rules log
  obtain ⟨a, hRun, ha⟩ := h rules log
  obtain ⟨c, hRun', hc⟩ := hf a ha rules log
  refine ⟨c, ?_, hc⟩
  rw [runOn_bind, hRun]
  exact hRun'

/-- Builds of the elements of a list, whose results are related to those of another list. -/
theorem all {g : γ → Build β} {R : β → δ → Prop} {xs : List γ} {ys : List δ}
    (h : List.Forall₂ (fun x y => (g x).Returns (R · y)) xs ys) :
    (Build.all g xs).Returns fun zs => List.Forall₂ R zs ys := by
  induction h with
  | nil => exact returns_pure .nil
  | cons hHead _ ih =>
    exact hHead.bind fun z hz => ih.bind fun zs hzs => returns_pure (.cons hz hzs)

/-- A build that finds nothing leaves nothing out. -/
theorem orLeaveOut (h : b.Returns P) (rule : Rule) (t : Tree) :
    (Build.orLeaveOut rule t b).Returns fun a? => ∃ a, a? = some a ∧ P a := by
  have hSome : (some <$> b).Returns fun a? => ∃ a, a? = some a ∧ P a := by
    rw [map_eq_pure_bind]
    exact h.bind fun a ha => returns_pure ⟨a, rfl, ha⟩
  intro rules log
  obtain ⟨a?, hRun, ha⟩ := hSome rules log
  refine ⟨a?, ?_, ha⟩
  rw [Build.orLeaveOut, runOn_tryCatch, hRun]

end Returns

end Build

open Build CfScript.Tree

/-! ## Trees of expressions -/

/-- The tree is an expression and is built into one that restates another. -/
structure Tree.Restates (T : Tree) (e : Expression) : Prop where
  isExpression : T.isExpression = true
  builds : (Build.expression T).Returns (·.Restates e)

variable {T U V : Tree} {e e' left right value object index operand : Expression} {span : Span}
  {t o c : Token} {cs trees items : List Tree}

theorem Tree.Restates.of_branch {rule : Rule} (hRule : rule.isExpression = true)
    (h : (Build.branchExpression (.ofNode rule cs)).Returns (·.Restates e)) :
    (Tree.node rule cs).Restates e where
  isExpression := by simpa using hRule
  builds := by
    rw [Build.expression, Reading.expression_ofTree_node]
    exact h

/-! ## Literals and names -/

theorem Tree.Restates.of_token (hKind : t.kind ∈ operandKinds)
    (hBuild : Build.tokenExpression t = pure e') (h : e'.Restates e) : (Tree.token t).Restates e where
  isExpression := by simpa using hKind
  builds := by
    rw [show Build.expression (.token t) = _ from hBuild]
    exact returns_pure h

theorem restates_identifier {id : Identifier} (hKind : t.kind = .identifier)
    (hText : t.lexeme = id.name) : (Tree.token t).Restates (.identifier id span) := by
  have hBuild : Build.tokenExpression t = pure (.ofIdentifier (wordIdentifier t)) := by
    simp [Build.tokenExpression, hKind, TokenKind.isWord]
  refine .of_token (by simp [hKind, operandKinds]) hBuild ?_
  simp [Expression.Restates, Expression.ofIdentifier, wordIdentifier, Expression.bare,
    Expression.unplaced, Identifier.unplaced, hText]

theorem restates_number {text : String} (hKind : t.kind = .integer ∨ t.kind = .float)
    (hText : t.lexeme = text) : (Tree.token t).Restates (.number text span) := by
  have hBuild : Build.tokenExpression t = pure (.number t.lexeme t.span) := by
    rcases hKind with hKind | hKind <;> simp [Build.tokenExpression, hKind]
  refine .of_token ?_ hBuild ?_
  · rcases hKind with hKind | hKind <;> simp [hKind, operandKinds]
  · rw [hText]
    rfl

theorem restates_string {text : String} {quote : Quote} (hKind : t.kind = .string)
    (hText : t.lexeme = Layout.stringLexeme text quote) :
    (Tree.token t).Restates (.string text quote span) := by
  have hChars : t.lexeme.toList = quote.char :: (text.toList ++ [quote.char]) := by
    rw [hText, Layout.stringLexeme, String.toList_ofList]
  have hQuote : Build.quoteOf t.lexeme.toList = quote := by
    rw [hChars]
    cases quote <;> rfl
  have hBuild : Build.tokenExpression t = pure (.string text quote t.span) := by
    simp only [Build.tokenExpression, hKind, Build.string, hQuote]
    rw [hChars, stringText_quoted]
    simp
  exact .of_token (by simp [hKind, operandKinds]) hBuild rfl

theorem restates_boolean {value : Bool}
    (hKind : t.kind = if value then .keyword .true_ else .keyword .false_) :
    (Tree.token t).Restates (.boolean value span) := by
  cases value with
  | true =>
    replace hKind : t.kind = .keyword .true_ := hKind
    have hBuild : Build.tokenExpression t = pure (.boolean true t.span) := by
      simp [Build.tokenExpression, hKind]
    exact .of_token (by simp [hKind, operandKinds]) hBuild rfl
  | false =>
    replace hKind : t.kind = .keyword .false_ := hKind
    have hBuild : Build.tokenExpression t = pure (.boolean false t.span) := by
      simp [Build.tokenExpression, hKind]
    exact .of_token (by simp [hKind, operandKinds]) hBuild rfl

theorem restates_null (hKind : t.kind = .keyword .null) : (Tree.token t).Restates (.null span) := by
  have hBuild : Build.tokenExpression t = pure (.null t.span) := by
    simp [Build.tokenExpression, hKind]
  exact .of_token (by simp [hKind, operandKinds]) hBuild rfl

/-! ## Operations -/

theorem restates_paren (h : T.Restates e) :
    (Tree.node .parenExpression [.token o, T, .token c]).Restates e := by
  refine .of_branch rfl ?_
  rw [branchExpression, Branch.rule_ofNode]
  dsimp only
  rw [Branch.childExpression_ofNode rfl]
  exact h.builds.bind fun x hx => returns_pure hx

/-- Parentheses in the expression change nothing either. -/
theorem Tree.Restates.paren (h : T.Restates e) : T.Restates (.paren e span) :=
  ⟨h.isExpression, h.builds⟩

theorem restates_binary {op : BinaryOp} {us : List Token} (hUs : us ≠ [])
    (hOp : BinaryOp.ofKinds? (us.map (·.kind)) = some op) (hLeft : T.Restates left)
    (hRight : U.Restates right) :
    (Tree.node .binaryExpression ([T] ++ us.map .token ++ [U])).Restates
      (.binary op left right span) := by
  refine .of_branch rfl ?_
  rw [branchExpression, Branch.rule_ofNode]
  dsimp only
  have hParts : (Branch.ofNode .binaryExpression ([T] ++ us.map .token ++ [U])).parts =
      .ofTree T :: ((us.map fun u => .ofTree (.token u)) ++ [.ofTree U]) := by
    simp
  rw [binary_parts hParts hOp hUs]
  refine hLeft.builds.bind fun x hx => hRight.builds.bind fun y hy => returns_pure ?_
  simp only [Expression.Restates, Expression.bare, Expression.unplaced] at hx hy ⊢
  rw [hx, hy]

theorem restates_unary {op : UnaryOp} (hOp : UnaryOp.ofKind? o.kind = some op)
    (h : T.Restates operand) :
    (Tree.node .unaryExpression [.token o, T]).Restates (.unary op operand span) := by
  refine .of_branch rfl ?_
  rw [branchExpression, Branch.rule_ofNode]
  dsimp only
  rw [Branch.child_ofNode rfl, pure_bind, operator_token _ hOp, pure_bind,
    Branch.childExpression_ofNode rfl]
  refine h.builds.bind fun x hx => returns_pure ?_
  simp only [Expression.Restates, Expression.bare, Expression.unplaced] at hx ⊢
  rw [hx]

theorem restates_postfixed {op : PostfixOp} (hOp : PostfixOp.ofKind? o.kind = some op)
    (h : T.Restates operand) :
    (Tree.node .postfixExpression [T, .token o]).Restates (.postfixOp op operand span) := by
  refine .of_branch rfl ?_
  rw [branchExpression, Branch.rule_ofNode]
  dsimp only
  rw [Branch.child_ofNode rfl, pure_bind]
  simp only [Reading.token?_token, Option.bind_some, hOp]
  rw [Branch.childExpression_ofNode rfl]
  refine h.builds.bind fun x hx => returns_pure ?_
  simp only [Expression.Restates, Expression.bare, Expression.unplaced] at hx ⊢
  rw [hx]

theorem restates_assignment {op : AssignOp} (hOp : AssignOp.ofKind? o.kind = some op)
    (hTarget : T.Restates object) (hValue : U.Restates value) :
    (Tree.node .assignmentExpression [T, .token o, U]).Restates
      (.assignment op object value span) := by
  refine .of_branch rfl ?_
  rw [branchExpression, Branch.rule_ofNode]
  dsimp only
  rw [Branch.child_ofNode rfl, pure_bind, operator_token _ hOp, pure_bind,
    Branch.childExpression_ofNode rfl, Branch.childExpression_ofNode rfl]
  refine hTarget.builds.bind fun x hx => hValue.builds.bind fun y hy => returns_pure ?_
  simp only [Expression.Restates, Expression.bare, Expression.unplaced] at hx hy ⊢
  rw [hx, hy]

theorem restates_ternary {condition thenValue elseValue : Expression} (hCondition : T.Restates condition)
    (hThen : U.Restates thenValue) (hElse : V.Restates elseValue) :
    (Tree.node .ternaryExpression [T, .token o, U, .token c, V]).Restates
      (.ternary condition thenValue elseValue span) := by
  refine .of_branch rfl ?_
  rw [branchExpression, Branch.rule_ofNode]
  dsimp only
  rw [Branch.childExpression_ofNode rfl, Branch.childExpression_ofNode rfl,
    Branch.childExpression_ofNode rfl]
  refine hCondition.builds.bind fun x hx => hThen.builds.bind fun y hy =>
    hElse.builds.bind fun z hz => returns_pure ?_
  simp only [Expression.Restates, Expression.bare, Expression.unplaced] at hx hy hz ⊢
  rw [hx, hy, hz]

theorem restates_elvis {default : Expression} (hValue : T.Restates value)
    (hDefault : U.Restates default) :
    (Tree.node .elvisExpression [T, .token o, U]).Restates (.elvis value default span) := by
  refine .of_branch rfl ?_
  rw [branchExpression, Branch.rule_ofNode]
  dsimp only
  rw [Branch.childExpression_ofNode rfl, Branch.childExpression_ofNode rfl]
  refine hValue.builds.bind fun x hx => hDefault.builds.bind fun y hy => returns_pure ?_
  simp only [Expression.Restates, Expression.bare, Expression.unplaced] at hx hy ⊢
  rw [hx, hy]

/-! ## Lists -/

/-- Trees that are items with commas between them. -/
inductive Separated : List Tree → List Tree → Prop where
  | nil : Separated [] []
  | single {T : Tree} : Separated [T] [T]
  | cons {T : Tree} {c : Token} {items trees : List Tree} (hc : c.kind = .symbol .comma)
      (h : Separated items trees) : Separated (T :: items) (T :: .token c :: trees)

/-- The values between the marks of a list are its items. -/
theorem Separated.valued (h : Separated items trees) (hItems : ∀ T ∈ items, T.isExpression = true) :
    Branch.valued trees = items := by
  induction h with
  | nil => rfl
  | @single T => simp [Branch.valued, isFiller_of_isExpression (hItems T (by simp))]
  | @cons T c items trees hc h ih =>
    have hHead := isFiller_of_isExpression (hItems T (by simp))
    have hComma : (Reading.ofTree (.token c)).isFiller = true := by simp [hc, Reading.fillers]
    have hRest := ih fun U hU => hItems U (by simp [hU])
    rw [Branch.valued] at hRest ⊢
    rw [List.filter_cons_of_pos (by simp [hHead]), List.filter_cons_of_neg (by simp [hComma]), hRest]

/-- The nodes between the marks of a list are its items. -/
theorem Separated.nodes (h : Separated items trees) {rule other : Rule}
    (hItems : ∀ T ∈ items, T.isNode rule = true) :
    (Branch.ofNode other ([.token o] ++ trees ++ [.token c])).nodes rule =
      items.map fun T => .ofNode rule T.children := by
  have hMark (u : Token) : (Tree.token u).isNode rule = false := rfl
  have hTrees : trees.filter (·.isNode rule) = items := by
    induction h with
    | nil => rfl
    | @single T => simp [hItems T (by simp)]
    | @cons T c items trees hc h ih =>
      rw [List.filter_cons_of_pos (hItems T (by simp)), List.filter_cons_of_neg (by simp [hMark]),
        ih fun U hU => hItems U (by simp [hU])]
  rw [Branch.nodes_ofNode, List.filter_append, List.filter_append, hTrees]
  simp [hMark]

theorem restates_array {es : List Expression} (ho : o.kind = .symbol .lBracket)
    (hc : c.kind = .symbol .rBracket) (hTrees : Separated items trees)
    (hItems : List.Forall₂ Tree.Restates items es) :
    (Tree.node .arrayLiteral ([.token o] ++ trees ++ [.token c])).Restates (.array es span) := by
  have hExpressions : ∀ T ∈ items, T.isExpression = true :=
    ((List.forall₂_and_left _ _).1 (hItems.imp fun T e h => ⟨h.isExpression, h⟩)).1
  have hMark {u : Token} (hu : u.kind ∈ Reading.fillers) : Branch.valued [.token u] = [] := by
    simp [Branch.valued, hu]
  have hOperands : Branch.valued ([.token o] ++ trees ++ [.token c]) = items := by
    have hAppend (a b : List Tree) : Branch.valued (a ++ b) = Branch.valued a ++ Branch.valued b :=
      List.filter_append a b
    rw [hAppend, hAppend, hTrees.valued hExpressions, hMark (by simp [ho, Reading.fillers]),
      hMark (by simp [hc, Reading.fillers]), List.nil_append, List.append_nil]
  refine .of_branch rfl ?_
  rw [branchExpression, Branch.rule_ofNode]
  dsimp only
  rw [Branch.operands_ofNode, hOperands]
  have hBuilds : List.Forall₂ (fun r e => (Reading.expression r).Returns (Expression.Restates · e))
      (items.map Reading.ofTree) es :=
    List.forall₂_map_left_iff.2 (hItems.imp fun T e h => h.builds)
  refine (Returns.all hBuilds).bind fun xs hxs => returns_pure ?_
  simp only [Expression.Restates, Expression.bare, Expression.unplaced, unplaced_bareExpressions hxs]

/-- The tree is an argument and is built into one that restates another. -/
def Tree.RestatesArgument (T : Tree) (arg : Argument Expression) : Prop :=
  T.isNode .argument = true ∧
    (Build.argument (.ofNode .argument T.children)).Returns (·.Restates arg)

theorem restatesArgument_unnamed (h : T.Restates value) :
    (Tree.node .argument [T]).RestatesArgument ⟨none, value⟩ := by
  refine ⟨rfl, ?_⟩
  rw [Tree.children, Build.argument, if_neg (by simp), Branch.childExpression_ofNode rfl]
  exact h.builds.bind fun x hx => returns_pure ⟨rfl, hx⟩

theorem restatesArgument_named {name : Identifier} (ht : t.kind.isWord = true)
    (hText : t.lexeme = name.name) (ho : o.kind = .symbol .assign) (h : T.Restates value) :
    (Tree.node .argument [.token t, .token o, T]).RestatesArgument ⟨some name, value⟩ := by
  refine ⟨rfl, ?_⟩
  rw [Tree.children, Build.argument, if_pos (by simp [Reading.isToken, ho]), Branch.child_ofNode rfl,
    pure_bind, identifier_token _ ht, pure_bind, Branch.childExpression_ofNode rfl]
  refine h.builds.bind fun x hx => returns_pure ⟨?_, hx⟩
  simp [wordIdentifier, Identifier.unplaced, hText]

/-- The arguments between the marks of a list. -/
theorem returns_arguments {rule : Rule} {args : List (Argument Expression)} {o c : Token}
    (hTrees : Separated items trees) (hItems : List.Forall₂ Tree.RestatesArgument items args)
    (hList : (Branch.ofNode rule cs).node? .argumentList =
      some (.ofNode .argumentList ([.token o] ++ trees ++ [.token c]))) :
    (Build.arguments (.ofNode rule cs)).Returns (List.Forall₂ Argument.Restates · args) := by
  have hNodes : ∀ T ∈ items, T.isNode .argument = true :=
    ((List.forall₂_and_left _ _).1 (hItems.imp fun T arg h => h)).1
  rw [Build.arguments, hList]
  dsimp only
  rw [hTrees.nodes hNodes]
  exact .all (List.forall₂_map_left_iff.2 (hItems.imp fun T arg h => h.2))

theorem restates_call {args : List (Argument Expression)} (hCallee : T.Restates object)
    (hTrees : Separated items trees) (hItems : List.Forall₂ Tree.RestatesArgument items args) :
    (Tree.node .callExpression
      [T, .node .argumentList ([.token o] ++ trees ++ [.token c])]).Restates
        (.call object args span) := by
  refine .of_branch rfl ?_
  rw [branchExpression, Branch.rule_ofNode]
  dsimp only
  rw [Branch.childExpression_ofNode rfl]
  have hNone := branchOf?_of_isExpression hCallee.isExpression .argumentList rfl
  have hList : (Branch.ofNode .callExpression
      [T, .node .argumentList ([.token o] ++ trees ++ [.token c])]).node? .argumentList =
        some (.ofNode .argumentList ([.token o] ++ trees ++ [.token c])) := by
    simp [Branch.node?, hNone]
  have hArgs := returns_arguments hTrees hItems hList
  refine hCallee.builds.bind fun x hx => hArgs.bind fun xs hxs => returns_pure ?_
  simp only [Expression.Restates, Expression.bare, Expression.unplaced] at hx ⊢
  rw [hx, unplaced_bareArguments hxs]

theorem restates_member {property : Identifier} {safe : Bool} (h : T.Restates object)
    (ho : o.kind = if safe then .symbol .safeDot else .symbol .dot) (ht : t.kind.isWord = true)
    (hText : t.lexeme = property.name) :
    (Tree.node .memberExpression [T, .token o, .token t]).Restates
      (.member object property safe span) := by
  have hSafe : (Reading.ofTree (.token o)).isToken (.symbol .safeDot) = safe := by
    cases safe <;> simp [Reading.isToken, ho]
  refine .of_branch rfl ?_
  rw [branchExpression, Branch.rule_ofNode]
  dsimp only
  rw [Branch.child_ofNode rfl, pure_bind, Branch.childExpression_ofNode rfl]
  refine h.builds.bind fun x hx => ?_
  rw [Branch.child_ofNode rfl, pure_bind, identifier_token _ ht, pure_bind]
  refine returns_pure ?_
  rw [hSafe]
  simp only [Expression.Restates, Expression.bare, Expression.unplaced] at hx ⊢
  simp only [hx, wordIdentifier, Identifier.unplaced, hText]

theorem restates_index (hObject : T.Restates object) (hIndex : U.Restates index) :
    (Tree.node .indexExpression [T, .token o, U, .token c]).Restates (.index object index span) := by
  refine .of_branch rfl ?_
  rw [branchExpression, Branch.rule_ofNode]
  dsimp only
  rw [Branch.childExpression_ofNode rfl, Branch.childExpression_ofNode rfl]
  refine hObject.builds.bind fun x hx => hIndex.builds.bind fun y hy => returns_pure ?_
  simp only [Expression.Restates, Expression.bare, Expression.unplaced] at hx hy ⊢
  rw [hx, hy]

/-- The tree is a struct entry and is built into one that restates another. -/
def Tree.RestatesEntry (T : Tree) (entry : StructEntry Expression) : Prop :=
  T.isNode .structEntry = true ∧
    (Build.structEntry (.ofNode .structEntry T.children)).Returns (·.Restates entry)

/-- A key is built from its token: a word is a name, whatever it means elsewhere. -/
theorem returns_key {key : Expression} (hKey : key.isPlainKey = true)
    (hKind : Scan.kindOf? t.lexeme = some t.kind) (hText : Layout.lexemes false key = [t.lexeme]) :
    (Build.key (.ofTree (.token t))).Returns (·.Restates key) := by
  rw [Build.key, Reading.token?_token]
  dsimp only
  cases key with
  | identifier id span =>
    obtain hName : id.name = t.lexeme := by simpa [Layout.lexemes] using hText
    have hWord : t.kind.isWord = true := by
      rw [Expression.isPlainKey, Scan.isWord, hName, hKind] at hKey
      simpa using hKey
    rw [if_pos hWord]
    refine returns_pure ?_
    simp [Expression.Restates, Expression.ofIdentifier, wordIdentifier, Expression.bare,
      Expression.unplaced, Identifier.unplaced, hName]
  | string text quote span =>
    obtain hLexeme : Layout.stringLexeme text quote = t.lexeme := by
      simpa [Layout.lexemes] using hText
    have hString : t.kind = .string := by
      have hQuoted := Layout.kindOf?_stringLexeme hKey
      rw [hLexeme, hKind] at hQuoted
      exact Option.some.inj hQuoted
    rw [if_neg (by simp [hString, TokenKind.isWord])]
    exact (restates_string hString hLexeme.symm).builds
  | number text span =>
    obtain hLexeme : text = t.lexeme := by simpa [Layout.lexemes] using hText
    have hInteger : t.kind = .integer := by
      have hNumber := beq_iff_eq.1 (show (_ == _) = true from hKey)
      rw [hLexeme, hKind] at hNumber
      exact Option.some.inj hNumber
    rw [if_neg (by simp [hInteger, TokenKind.isWord])]
    exact (restates_number (.inl hInteger) hLexeme.symm).builds
  | _ => cases hKey

theorem restatesEntry {key : Expression} {separator : Separator} (hKey : key.isPlainKey = true)
    (ht : Scan.kindOf? t.lexeme = some t.kind) (hText : Layout.lexemes false key = [t.lexeme])
    (ho : Scan.kindOf? separator.text = some o.kind) (h : T.Restates value) :
    (Tree.node .structEntry [.token t, .token o, T]).RestatesEntry ⟨key, separator, value⟩ := by
  have hSeparator : (if (Reading.ofTree (.token o)).isToken (.symbol .assign) then Separator.equals
      else .colon) = separator := by
    cases separator with
    | colon =>
      obtain hKind := Option.some.inj (show some (.symbol .colon) = some o.kind from ho)
      simp [Reading.isToken, ← hKind]
    | equals =>
      obtain hKind := Option.some.inj (show some (.symbol .assign) = some o.kind from ho)
      simp [Reading.isToken, ← hKind]
  refine ⟨rfl, ?_⟩
  rw [Tree.children, Build.structEntry, Branch.child_ofNode rfl, pure_bind]
  refine (returns_key hKey ht hText).bind fun k hk => ?_
  rw [Branch.child_ofNode rfl, pure_bind, Branch.childExpression_ofNode rfl]
  exact h.builds.bind fun x hx => returns_pure ⟨hk, hSeparator, hx⟩

theorem restates_struct {entries : List (StructEntry Expression)} (hTrees : Separated items trees)
    (hItems : List.Forall₂ Tree.RestatesEntry items entries) :
    (Tree.node .structLiteral ([.token o] ++ trees ++ [.token c])).Restates
      (.struct entries span) := by
  have hNodes : ∀ T ∈ items, T.isNode .structEntry = true :=
    ((List.forall₂_and_left _ _).1 (hItems.imp fun T entry h => h)).1
  refine .of_branch rfl ?_
  rw [branchExpression, Branch.rule_ofNode]
  dsimp only
  rw [hTrees.nodes hNodes]
  refine (Returns.all (List.forall₂_map_left_iff.2 (hItems.imp fun T entry h => h.2))).bind
    fun xs hxs => returns_pure ?_
  simp only [Expression.Restates, Expression.bare, Expression.unplaced, unplaced_bareEntries hxs]

theorem leavesAll_tokens (us : List Token) : leavesAll (us.map .token) = us.map .matched := by
  induction us with
  | nil => rfl
  | cons u us ih => rw [List.map_cons, leavesAll, ih, List.map_cons]; rfl

theorem restates_new {className : String} {args : List (Argument Expression)} {us : List Token}
    (hName : String.join (us.map (·.lexeme)) = className) (hTrees : Separated items trees)
    (hItems : List.Forall₂ Tree.RestatesArgument items args) :
    (Tree.node .newExpression [.token t, .node .typeName (us.map .token),
      .node .argumentList ([.token o] ++ trees ++ [.token c])]).Restates
        (.new className args span) := by
  have hPath : Build.path "class name" (.ofTree (.node .typeName (us.map .token))) =
      pure className := by
    have hPure : Build.path "class name" (.ofTree (.node .typeName (us.map .token))) =
      pure (Tree.node .typeName (us.map .token)).text := rfl
    rw [hPure, Tree.text, Tree.leaves, leavesAll_tokens, List.map_map]
    exact congrArg pure hName
  have hList : (Branch.ofNode .newExpression [.token t, .node .typeName (us.map .token),
      .node .argumentList ([.token o] ++ trees ++ [.token c])]).node? .argumentList =
        some (.ofNode .argumentList ([.token o] ++ trees ++ [.token c])) := by
    simp [Branch.node?, List.findSome?_cons]
  have hArgs := returns_arguments hTrees hItems hList
  refine .of_branch rfl ?_
  rw [branchExpression, Branch.rule_ofNode]
  dsimp only
  rw [Branch.child_ofNode rfl, pure_bind, hPath, pure_bind]
  refine hArgs.bind fun xs hxs => returns_pure ?_
  simp only [Expression.Restates, Expression.bare, Expression.unplaced, unplaced_bareArguments hxs]

end CfScript
