import CfScript.Proofs.LikeOutcomes

/-!
# Trees that are alike are built alike

Each step of a build looks at rules, at kinds of tokens and at names up to letter case, and carries
along texts and places. So on trees that are alike it comes to program trees and to findings that are
alike. There is one lemma for each step.

## Main results

* `like_attributes`: attributes, with the findings about their names;
* `like_branchExpression`, `like_branchStatement`: the builds of a node whose parts are alike;
* `Tree.Like.run`: the builds of trees that are alike.
-/

namespace CfScript

namespace Build

variable {v : View} {b c : Branch} {r q : Reading} {rs qs : List Reading}

/-! ## Parts -/

theorem like_pick (h : b.Like v c) (hAmong : List.Forall₂ (Reading.Like v) rs qs) (i : Nat) :
    Like v (Reading.Like v) (b.pick rs i) (c.pick qs i) := by
  have hPart := forall₂_getElem? hAmong i
  unfold Branch.pick
  rw [h.rule]
  revert hPart
  generalize rs[i]? = r?, qs[i]? = q?
  intro hPart
  cases hPart with
  | none => exact like_throw (.missingPart _ h.tree)
  | some hPart => exact like_pure hPart

theorem like_child (h : b.Like v c) (i : Nat) : Like v (Reading.Like v) (b.child i) (c.child i) :=
  like_pick h h.parts i

theorem like_operand (h : b.Like v c) (i : Nat) :
    Like v (Reading.Like v) (b.operand i) (c.operand i) :=
  like_pick h h.operands i

theorem like_childExpression (h : b.Like v c) (i : Nat) :
    Like v (Expression.Like v) (b.childExpression i) (c.childExpression i) :=
  (like_child h i).bind fun _ _ h => h.expression

theorem like_operandExpression (h : b.Like v c) (i : Nat) :
    Like v (Expression.Like v) (b.operandExpression i) (c.operandExpression i) :=
  (like_operand h i).bind fun _ _ h => h.expression

theorem like_operandStatement (h : b.Like v c) (i : Nat) :
    Like v (Statement.Like v) (b.operandStatement i) (c.operandStatement i) :=
  (like_operand h i).bind fun _ _ h => h.statement

/-- Parts that may be there ask the same of a token. -/
theorem any_isToken_like {r? q? : Option Reading} (h : Option.Rel (Reading.Like v) r? q?)
    (kind : TokenKind) : r?.any (·.isToken kind) = q?.any (·.isToken kind) := by
  cases h with
  | none => rfl
  | some h => exact h.isToken kind

theorem like_word (what : String) (h : r.Like v q) :
    Like v (Token.Like v) (word what r) (word what q) := by
  have hTree := h.tree
  unfold word
  generalize r.tree = t, q.tree = u at hTree
  cases hTree with
  | node rule hAll => exact like_throw (.unexpectedTree what (.node rule hAll))
  | leaf hLeaf =>
    cases hLeaf with
    | matched hToken =>
      dsimp only
      rw [hToken.kind]
      split
      · exact like_pure hToken
      · exact like_throw (.unexpectedTree what (.leaf (.matched hToken)))
    | skipped hToken => exact like_throw (.unexpectedTree what (.leaf (.skipped hToken)))
    | assumed other => exact like_throw (.refl _)

theorem like_identifier (what : String) (h : r.Like v q) :
    Like v (Identifier.Like v) (identifier what r) (identifier what q) :=
  (like_word what h).map fun _ _ h => h.lexeme

theorem like_path (what : String) (h : r.Like v q) :
    Like v v.SameText (path what r) (path what q) := by
  have hTree := h.tree
  unfold path
  generalize r.tree = t, q.tree = u at hTree
  cases hTree with
  | node rule hAll =>
    have hNode : (Tree.node rule _).Like v (.node rule _) := .node rule hAll
    cases rule with
    | typeName => exact like_pure hNode.text
    | _ => exact like_throw (.unexpectedTree what hNode)
  | leaf hLeaf =>
    cases hLeaf with
    | matched hToken =>
      dsimp only
      rw [hToken.kind]
      split
      · exact like_pure hToken.lexeme
      · exact like_throw (.unexpectedTree what (.leaf (.matched hToken)))
    | skipped hToken => exact like_throw (.unexpectedTree what (.leaf (.skipped hToken)))
    | assumed other => exact like_throw (.unexpectedTree what (.leaf (.assumed other)))

theorem like_operator {α : Type} (what : String) (ofKind? : TokenKind → Option α) (h : r.Like v q) :
    Like v Eq (operator what ofKind? r) (operator what ofKind? q) := by
  have hToken := h.token?
  unfold operator
  generalize r.token? = t?, q.token? = u? at hToken
  cases hToken with
  | none => exact like_throw (.unexpectedTree what h.tree)
  | some hToken =>
    dsimp only
    rw [hToken.kind]
    split
    · exact like_pure rfl
    · exact like_throw (.unknownOperator hToken.lexeme.spelling hToken.span)

theorem like_statements (h : List.Forall₂ (Reading.Like v) rs qs) :
    Like v (List.Forall₂ (Statement.Like v)) (statements rs) (statements qs) := by
  induction h with
  | nil => exact like_pure .nil
  | cons hHead _ ih =>
    unfold statements
    rw [hHead.rule?]
    split
    · exact ih
    · exact ih
    · refine (hHead.statement.orLeaveOut _ hHead.tree).bind fun _ _ hFirst => ?_
      refine ih.bind fun _ _ hRest => like_pure (List.rel_append ?_ hRest)
      cases hFirst with
      | none => exact .nil
      | some hFirst => exact .cons hFirst .nil

theorem like_block? (h : b.Like v c) :
    Like v (Option.Rel (List.Forall₂ (Statement.Like v))) (block? b) (block? c) :=
  .optional (h.node? .block) fun _ _ h => like_statements h.parts

theorem like_block (h : b.Like v c) :
    Like v (List.Forall₂ (Statement.Like v)) (block b) (block c) := by
  refine (like_block? h).bind fun _ _ hBody => ?_
  cases hBody with
  | none => exact like_throw (.missing _ h.span)
  | some hBody => exact like_pure hBody

/-! ## Attributes -/

theorem like_finding? (rules : AttributeRules) (code : ErrorCode) {t u : Token} (h : t.Like v u)
    {message other : String} (hMessage : v.spelling = true → message = other) (label : String)
    (notes : List String) :
    List.Forall₂ (Diagnostic.Like v)
      (rules.finding? code (wordIdentifier t) t.line message label notes).toList
      (rules.finding? code (wordIdentifier u) u.line other label notes).toList := by
  unfold AttributeRules.finding?
  cases rules.policy.severity? with
  | none => exact .nil
  | some severity => exact .cons ⟨rfl, rfl, rfl, rfl, rfl, hMessage, h.span⟩ .nil

theorem like_repeated? (rules : AttributeRules) (owner : String) {t u : Token} (h : t.Like v u) :
    List.Forall₂ (Diagnostic.Like v) (rules.repeated? owner (wordIdentifier t) t.line).toList
      (rules.repeated? owner (wordIdentifier u) u.line).toList :=
  like_finding? rules _ h (fun hSeen => by simp only [wordIdentifier, h.lexeme.spelling hSeen]) _ _

theorem like_unknown? (rules : AttributeRules) (element : Element) {t u : Token} (h : t.Like v u) :
    List.Forall₂ (Diagnostic.Like v) (rules.unknown? element (wordIdentifier t) t.line).toList
      (rules.unknown? element (wordIdentifier u) u.line).toList :=
  like_finding? rules _ h (fun hSeen => by simp only [wordIdentifier, h.lexeme.spelling hSeen]) _ _

theorem accepts_like {rules : AttributeRules} (hAdmits : v.Admits rules) (element : Element)
    {x y : String} (h : v.SameText x y) : rules.accepts element x = rules.accepts element y := by
  simp only [AttributeRules.accepts, Element.knows, h.sameName_right, hAdmits _ _ _ h]

/-- Names that were new, and the attributes that were gathered. -/
def LikeGathered (v : View) (x y : List Token × AttributeMap Expression) : Prop :=
  List.Forall₂ (Token.Like v) x.1 y.1 ∧ x.2.Like v y.2

theorem like_gather (owner : String) {bs cs : List Branch} (h : List.Forall₂ (Branch.Like v) bs cs)
    {fresh other : List Token} (hFresh : List.Forall₂ (Token.Like v) fresh other)
    {m n : AttributeMap Expression} (hMap : m.Like v n) :
    Like v (LikeGathered v) (gather owner bs fresh m) (gather owner cs other n) := by
  induction h generalizing fresh other m n with
  | nil => exact like_pure ⟨hFresh, hMap⟩
  | cons hHead _ ih =>
    refine (like_child hHead 0).bind fun _ _ hName => ?_
    refine (like_word _ hName).bind fun name name' hName => ?_
    refine (like_childExpression hHead 2).bind fun value value' hValue => ?_
    have hIdentifier : (wordIdentifier name).Like v (wordIdentifier name') := hName.lexeme
    obtain ⟨hOld, hMap⟩ := hMap.insert hIdentifier hValue
    revert hOld hMap
    generalize m.insert (wordIdentifier name) value = x
    generalize n.insert (wordIdentifier name') value' = y
    obtain ⟨old?, m⟩ := x
    obtain ⟨other?, n⟩ := y
    intro hOld hMap
    cases old? <;> cases other? <;> simp only [Option.isSome_none, Option.isSome_some,
      reduceCtorEq] at hOld
    · exact ih (.cons hName hFresh) hMap
    · refine like_read.bind fun rules rules' ⟨hRules, _⟩ => ?_
      subst hRules
      exact (like_note (like_repeated? rules owner hName)).bind fun _ _ _ => ih hFresh hMap

/-- The attributes of branches that are alike, with findings about the same names. -/
theorem like_attributes (element : Element) (h : b.Like v c) :
    Like v (AttributeMap.Like v) (attributes element b) (attributes element c) := by
  refine (like_gather _ (h.nodes .attribute) .nil .empty).bind fun x y ⟨hFresh, hMap⟩ => ?_
  refine like_read.bind fun rules rules' ⟨hRules, hAdmits⟩ => ?_
  subst hRules
  refine Like.bind (like_report ?_) fun _ _ _ => like_pure hMap
  have hStrange := forall₂_filter (List.rel_reverse hFresh)
    (p := fun t => !rules.accepts element t.lexeme) (q := fun t => !rules.accepts element t.lexeme)
    fun t u h => by rw [accepts_like hAdmits element h.lexeme]
  revert hStrange
  generalize List.filter _ x.1.reverse = ts, List.filter _ y.1.reverse = us
  intro hStrange
  induction hStrange with
  | nil => exact .nil
  | cons hHead _ ih =>
    have hFinding := like_unknown? rules element hHead
    rw [List.filterMap_cons, List.filterMap_cons]
    revert hFinding
    generalize rules.unknown? element _ _ = d?, rules.unknown? element _ _ = e?
    intro hFinding
    cases d? <;> cases e? <;> cases hFinding
    · exact ih
    · next hFinding _ => exact .cons hFinding ih

theorem like_parameterAttributes (h : b.Like v c) :
    Like v (AttributeMap.Like v) (parameterAttributes b) (parameterAttributes c) :=
  (like_gather _ (h.nodes .attribute) .nil .empty).map fun _ _ h => h.2

/-! ## Parameters -/

theorem isRequired_like (h : List.Forall₂ (Reading.Like v) rs qs) :
    isRequired rs = isRequired qs := by
  cases h with
  | nil => rfl
  | cons hFirst h =>
    cases h with
    | nil => rfl
    | cons hNext _ =>
      simp only [isRequired, hNext.rule?, hFirst.any_token? fun _ _ h => h.isWordNamed "required",
        hNext.any_token? fun _ _ h => congrArg TokenKind.isWord h.kind]

/-- What follows the modifier and the type of a parameter. -/
theorem like_named (h : b.Like v c) (hParts : List.Forall₂ (Reading.Like v) rs qs)
    (required : Bool) {type? other? : Option Identifier}
    (hType : Option.Rel (Identifier.Like v) type? other?) :
    Like v (Parameter.Like v)
      (do
        let name ← identifier "parameter name" (← b.pick rs 0)
        let default? ←
          if rs[1]?.any (·.isToken (.symbol .assign)) then
            some <$> (do (← b.pick rs 2).expression)
          else pure none
        return { required, type?, name, default?, attributes := ← parameterAttributes b })
      (do
        let name ← identifier "parameter name" (← c.pick qs 0)
        let default? ←
          if qs[1]?.any (·.isToken (.symbol .assign)) then
            some <$> (do (← c.pick qs 2).expression)
          else pure none
        return { required, type? := other?, name, default?, attributes := ← parameterAttributes c }) := by
  refine (like_pick h hParts 0).bind fun _ _ hName => ?_
  refine (like_identifier _ hName).bind fun name name' hName => ?_
  have hRest (x? y? : Option Expression) (hDefault : Option.Rel (Expression.Like v) x? y?) :
      Like v (Parameter.Like v)
        (do return { required, type?, name, default? := x?, attributes := ← parameterAttributes b })
        (do return { required, type? := other?, name := name', default? := y?,
                     attributes := ← parameterAttributes c }) :=
    (like_parameterAttributes h).bind fun _ _ hMap =>
      like_pure ⟨rfl, hType, hName, hDefault, hMap⟩
  dsimp only
  rw [any_isToken_like (forall₂_getElem? hParts 1)]
  split
  · have hValue : Like v (Expression.Like v) (do (← b.pick rs 2).expression)
        (do (← c.pick qs 2).expression) := (like_pick h hParts 2).bind fun _ _ h => h.expression
    exact (hValue.map (Q := Option.Rel (Expression.Like v)) fun _ _ h => .some h).bind hRest
  · exact (like_pure .none).bind hRest

theorem dropIf_like (h : List.Forall₂ (Reading.Like v) rs qs) (p : Prop) [Decidable p] :
    List.Forall₂ (Reading.Like v) (if p then rs.drop 1 else rs) (if p then qs.drop 1 else qs) := by
  split
  · exact List.forall₂_drop 1 h
  · exact h

/-- The type at the head of parts. -/
theorem headType_like (h : List.Forall₂ (Reading.Like v) rs qs) :
    Option.Rel (Identifier.Like v) ((rs.head?.bind (·.branchOf? .typeName)).map (·.identifier))
      ((qs.head?.bind (·.branchOf? .typeName)).map (·.identifier)) := by
  cases h with
  | nil => exact .none
  | cons hHead _ =>
    have hBranch := hHead.branchOf? .typeName
    simp only [List.head?_cons, Option.bind_some]
    revert hBranch
    generalize Reading.branchOf? _ _ = x?, Reading.branchOf? _ _ = y?
    intro hBranch
    cases hBranch with
    | none => exact .none
    | some hBranch => exact .some hBranch.identifier

theorem isSome_like {α β : Type} {R : α → β → Prop} {x? : Option α} {y? : Option β}
    (h : Option.Rel R x? y?) : x?.isSome = y?.isSome := by
  cases h <;> rfl

theorem like_parameter (h : b.Like v c) : Like v (Parameter.Like v) (parameter b) (parameter c) := by
  have hParts := forall₂_filter h.parts (p := (·.rule? != some .attribute))
    (q := (·.rule? != some .attribute)) fun _ _ h => by rw [h.rule?]
  unfold parameter
  dsimp only
  rw [isRequired_like hParts]
  have hTyped := dropIf_like hParts (isRequired (c.parts.filter (·.rule? != some .attribute)) = true)
  have hType := headType_like hTyped
  rw [isSome_like hType]
  exact like_named h (dropIf_like hTyped _) _ hType

theorem like_parameters (h : b.Like v c) :
    Like v (List.Forall₂ (Parameter.Like v)) (parameters b) (parameters c) := by
  have hList := h.node? .parameterList
  unfold parameters
  generalize b.node? .parameterList = x?, c.node? .parameterList = y? at hList
  cases hList with
  | none => exact like_pure .nil
  | some hList => exact .all (hList.nodes .parameter) fun _ _ h => like_parameter h

/-! ## Expressions -/

theorem quoteOf_foldChars (lexeme : List Char) :
    quoteOf (Text.foldChars lexeme) = quoteOf lexeme := by
  simp only [quoteOf, Text.head?_foldChars (q := '\'') rfl]

theorem stringText_foldChars {quote : Char} (hQuote : quote.isAlpha = false) (lexeme : List Char) :
    stringText quote (Text.foldChars lexeme) = (stringText quote lexeme).map Text.foldChars := by
  cases lexeme with
  | nil => rfl
  | cons c cs =>
    have hLast : (Text.foldChars cs).getLast? = some quote ↔ cs.getLast? = some quote := by
      rw [← List.head?_reverse, ← List.head?_reverse, Text.foldChars, ← List.map_reverse]
      exact Text.head?_foldChars hQuote cs.reverse
    simp only [Text.foldChars_cons, stringText, Text.toLower_eq_iff hQuote, hLast]
    split
    · simp [Text.foldChars, List.map_dropLast]
    · rfl

theorem Quote.isAlpha_char (quote : Quote) : quote.char.isAlpha = false := by
  cases quote <;> rfl

theorem like_string {t u : Token} (h : t.Like v u) :
    Like v (Expression.Like v) (string t) (string u) := by
  have hFold := Text.fold_eq_iff.1 h.lexeme.fold
  have hQuote : quoteOf t.lexeme.toList = quoteOf u.lexeme.toList := by
    rw [← quoteOf_foldChars, hFold, quoteOf_foldChars]
  unfold string
  dsimp only
  rw [hQuote]
  have hText := stringText_foldChars (Quote.isAlpha_char (quoteOf u.lexeme.toList)) t.lexeme.toList
  rw [hFold, stringText_foldChars (Quote.isAlpha_char _)] at hText
  have hSpelt : v.spelling = true → t.lexeme = u.lexeme := h.lexeme.spelling
  have hSame : v.spelling = true → stringText (quoteOf u.lexeme.toList).char t.lexeme.toList =
      stringText (quoteOf u.lexeme.toList).char u.lexeme.toList := fun hSeen => by rw [hSpelt hSeen]
  revert hText hSame
  generalize stringText _ t.lexeme.toList = x?, stringText _ u.lexeme.toList = y?
  intro hText hSame
  cases x? <;> cases y? <;> simp only [Option.map_none, Option.map_some, reduceCtorEq] at hText
  · exact like_throw (.unexpected _ hSpelt h.span)
  · refine like_pure fun hSeen => ?_
    obtain rfl := Option.some.inj (hSame hSeen)
    simp [Expression.same]

theorem like_tokenExpression {t u : Token} (h : t.Like v u) :
    Like v (Expression.Like v) (tokenExpression t) (tokenExpression u) := by
  unfold tokenExpression
  rw [h.kind]
  split
  · exact like_pure fun hSeen => by simp [Expression.same, h.lexeme.spelling hSeen]
  · exact like_pure fun hSeen => by simp [Expression.same, h.lexeme.spelling hSeen]
  · exact like_string h
  · exact like_pure fun _ => rfl
  · exact like_pure fun _ => rfl
  · exact like_pure fun _ => rfl
  · split
    · exact like_pure fun hSeen => Identifier.Like.eq h.lexeme hSeen
    · exact like_throw (.unexpected _ (fun hSeen => by rw [h.lexeme.spelling hSeen]) h.span)

theorem like_leafExpression {l m : Leaf} (h : l.Like v m) :
    Like v (Expression.Like v) (leafExpression l) (leafExpression m) := by
  cases h with
  | matched h => exact like_tokenExpression h
  | skipped h =>
    exact like_throw (.unexpected _ (fun hSeen => by rw [h.lexeme.spelling hSeen]) h.span)
  | assumed what => exact like_throw (.refl _)

theorem like_argument (h : b.Like v c) : Like v (Argument.Like v) (argument b) (argument c) := by
  unfold argument
  rw [any_isToken_like (forall₂_getElem? h.parts 1)]
  split
  · exact (like_child h 0).bind fun _ _ hName => (like_identifier _ hName).bind fun _ _ hName =>
      (like_childExpression h 2).bind fun _ _ hValue => like_pure ⟨.some hName, hValue⟩
  · exact (like_childExpression h 0).bind fun _ _ hValue => like_pure ⟨.none, hValue⟩

theorem like_arguments (h : b.Like v c) :
    Like v (List.Forall₂ (Argument.Like v)) (arguments b) (arguments c) := by
  have hList := h.node? .argumentList
  unfold arguments
  generalize b.node? .argumentList = x?, c.node? .argumentList = y? at hList
  cases hList with
  | none => exact like_pure .nil
  | some hList => exact .all (hList.nodes .argument) fun _ _ h => like_argument h

theorem like_key (h : r.Like v q) : Like v (Expression.Like v) (key r) (key q) := by
  have hToken := h.token?
  unfold key
  generalize r.token? = t?, q.token? = u? at hToken
  cases hToken with
  | none => exact h.expression
  | some hToken =>
    dsimp only
    rw [hToken.kind]
    split
    · exact like_pure fun hSeen => Identifier.Like.eq hToken.lexeme hSeen
    · exact h.expression

theorem like_structEntry (h : b.Like v c) :
    Like v (StructEntry.Like v) (structEntry b) (structEntry c) :=
  (like_child h 0).bind fun _ _ hKey => (like_key hKey).bind fun _ _ hKey =>
    (like_child h 1).bind fun _ _ hSeparator => (like_childExpression h 2).bind fun _ _ hValue =>
      like_pure ⟨hKey, by rw [hSeparator.isToken], hValue⟩

theorem like_binaryOperator (h : b.Like v c) (hBetween : List.Forall₂ (Reading.Like v) rs qs) :
    Like v Eq (binaryOperator b rs) (binaryOperator c qs) := by
  have hTokens : List.Forall₂ (Token.Like v) (rs.filterMap (·.token?)) (qs.filterMap (·.token?)) :=
    List.rel_filterMap (fun _ _ h => h.token?) hBetween
  have hKinds : (rs.filterMap (·.token?)).map (·.kind) = (qs.filterMap (·.token?)).map (·.kind) :=
    List.forall₂_eq_eq_eq ▸ List.rel_map (fun _ _ h => h.kind) hTokens
  unfold binaryOperator
  dsimp only
  rw [hKinds]
  split
  · exact like_pure rfl
  · refine like_throw (.unknownOperator (fun hSeen => ?_) h.span)
    exact congrArg _ (List.forall₂_eq_eq_eq ▸
      List.rel_map (fun _ _ h => h.lexeme.spelling hSeen) hTokens)

/-- The last of parts, or another part where there is none. -/
theorem getLastD_like (h : List.Forall₂ (Reading.Like v) rs qs) (hDefault : r.Like v q) :
    (rs.getLast?.getD r).Like v (qs.getLast?.getD q) := by
  have hLast := forall₂_getLast? h
  generalize rs.getLast? = x?, qs.getLast? = y? at hLast
  cases hLast with
  | none => exact hDefault
  | some hLast => exact hLast

theorem like_binary (h : b.Like v c) : Like v (Expression.Like v) (binary b) (binary c) := by
  have hParts := h.parts
  unfold binary
  generalize b.parts = rs, c.parts = qs at hParts
  cases hParts with
  | nil =>
    dsimp only
    rw [h.rule]
    exact like_throw (.missingPart _ h.tree)
  | cons hFirst hParts =>
    cases hParts with
    | nil =>
      dsimp only
      rw [h.rule]
      exact like_throw (.missingPart _ h.tree)
    | cons hSecond hRest =>
      have hMore := List.Forall₂.cons hSecond hRest
      refine (like_binaryOperator h (forall₂_dropLast hMore)).bind fun op op' hOp => ?_
      refine hFirst.expression.bind fun left left' hLeft => ?_
      refine (getLastD_like hMore hSecond).expression.bind fun right right' hRight => ?_
      exact like_pure fun hSeen => by
        simp only [Expression.same, hOp, beq_self_eq_true, hLeft hSeen, hRight hSeen, Bool.and_self]

theorem like_arrowParameters (h : r.Like v q) :
    Like v (List.Forall₂ (Parameter.Like v)) (arrowParameters r) (arrowParameters q) := by
  have hToken := h.token?
  have hList := h.branchOf? .parameterList
  unfold arrowParameters
  generalize r.token? = t?, q.token? = u? at hToken
  generalize r.branchOf? .parameterList = x?, q.branchOf? .parameterList = y? at hList
  cases hToken with
  | some hToken =>
    dsimp only
    rw [hToken.kind]
    split
    · exact like_pure (.cons ⟨rfl, .none, hToken.lexeme, .none, .empty⟩ .nil)
    · exact like_throw (.unexpectedTree _ h.tree)
  | none =>
    cases hList with
    | none => exact like_throw (.unexpectedTree _ h.tree)
    | some hList => exact .all (hList.nodes .parameter) fun _ _ h => like_parameter h

theorem like_arrow (h : b.Like v c) : Like v (Expression.Like v) (arrow b) (arrow c) := by
  refine (like_child h 0).bind fun first first' hFirst => ?_
  refine (like_arrowParameters hFirst).bind fun params params' hParams => ?_
  have hLast := getLastD_like h.parts hFirst
  have hBlock := hLast.branchOf? .block
  dsimp only
  generalize b.parts.getLast?.getD first = last, c.parts.getLast?.getD first' = last' at hLast hBlock
  generalize last.branchOf? .block = x?, last'.branchOf? .block = y? at hBlock
  cases hBlock with
  | some hBlock =>
    exact (like_statements hBlock.parts).bind fun _ _ hBody => like_pure fun hSeen => by
      simp only [Expression.same, beq_self_eq_true, sameParameters_of_like hSeen hParams,
        sameStatements_of_like hSeen hBody, Bool.and_self]
  | none =>
    exact hLast.expression.bind fun _ _ hValue => like_pure fun hSeen => by
      simp only [Expression.same, beq_self_eq_true, sameParameters_of_like hSeen hParams,
        hValue hSeen, Bool.and_self]

/-- The expressions of nodes whose parts are alike. -/
theorem like_branchExpression (h : b.Like v c) :
    Like v (Expression.Like v) (branchExpression b) (branchExpression c) := by
  have hChild := like_childExpression h
  unfold branchExpression
  rw [h.rule]
  split
  · exact (like_child h 1).bind fun _ _ hOp => (like_operator _ _ hOp).bind fun _ _ hOp =>
      (hChild 0).bind fun _ _ hTarget => (hChild 2).bind fun _ _ hValue =>
        like_pure fun hSeen => by
          simp only [Expression.same, hOp, beq_self_eq_true, hTarget hSeen, hValue hSeen,
            Bool.and_self]
  · exact (hChild 0).bind fun _ _ hCondition => (hChild 2).bind fun _ _ hThen =>
      (hChild 4).bind fun _ _ hElse => like_pure fun hSeen => by
        simp only [Expression.same, hCondition hSeen, hThen hSeen, hElse hSeen, Bool.and_self]
  · exact (hChild 0).bind fun _ _ hValue => (hChild 2).bind fun _ _ hDefault =>
      like_pure fun hSeen => by
        simp only [Expression.same, hValue hSeen, hDefault hSeen, Bool.and_self]
  · exact like_binary h
  · exact (like_child h 0).bind fun _ _ hOp => (like_operator _ _ hOp).bind fun _ _ hOp =>
      (hChild 1).bind fun _ _ hOperand => like_pure fun hSeen => by
        simp only [Expression.same, hOp, beq_self_eq_true, hOperand hSeen, Bool.and_self]
  · refine (like_child h 1).bind fun sign sign' hSign => ?_
    have hOp : (sign.token?.bind fun t => PostfixOp.ofKind? t.kind) =
        sign'.token?.bind fun t => PostfixOp.ofKind? t.kind := by
      have hToken := hSign.token?
      generalize sign.token? = t?, sign'.token? = u? at hToken
      cases hToken with
      | none => rfl
      | some hToken => exact congrArg PostfixOp.ofKind? hToken.kind
    rw [hOp]
    split
    · exact (hChild 0).bind fun _ _ hOperand => like_pure fun hSeen => by
        simp only [Expression.same, beq_self_eq_true, hOperand hSeen, Bool.and_self]
    · exact like_throw (.unexpectedTree _ hSign.tree)
  · exact (hChild 1).bind fun _ _ hInner => like_pure hInner
  · exact (hChild 0).bind fun _ _ hCallee => (like_arguments h).bind fun _ _ hArgs =>
      like_pure fun hSeen => by
        simp only [Expression.same, hCallee hSeen, sameArguments_of_like hSeen hArgs,
          Bool.and_self]
  · exact (like_child h 1).bind fun _ _ hDot => (hChild 0).bind fun _ _ hObject =>
      (like_child h 2).bind fun _ _ hName => (like_identifier _ hName).bind fun _ _ hName =>
        like_pure fun hSeen => by
          simp only [Expression.same, hDot.isToken, hObject hSeen, hName.eq hSeen,
            beq_self_eq_true, Bool.and_self]
  · exact (hChild 0).bind fun _ _ hObject => (hChild 2).bind fun _ _ hIndex =>
      like_pure fun hSeen => by
        simp only [Expression.same, hObject hSeen, hIndex hSeen, Bool.and_self]
  · exact (Like.all h.operands fun _ _ h => h.expression).bind fun _ _ hItems =>
      like_pure (sameExpressions_of_like · hItems)
  · exact (Like.all (h.nodes .structEntry) fun _ _ h => like_structEntry h).bind
      fun _ _ hEntries => like_pure (sameEntries_of_like · hEntries)
  · exact (like_child h 1).bind fun _ _ hPath => (like_path _ hPath).bind fun _ _ hName =>
      (like_arguments h).bind fun _ _ hArgs => like_pure fun hSeen => by
        simp only [Expression.same, hName.spelling hSeen, beq_self_eq_true,
          sameArguments_of_like hSeen hArgs, Bool.and_self]
  · exact (like_parameters h).bind fun _ _ hParams => (like_block h).bind fun _ _ hBody =>
      like_pure fun hSeen => by
        simp only [Expression.same, beq_self_eq_true, sameParameters_of_like hSeen hParams,
          sameStatements_of_like hSeen hBody, Bool.and_self]
  · exact like_arrow h
  · exact like_throw (.unexpected _ (fun _ => rfl) h.span)

end Build

end CfScript
