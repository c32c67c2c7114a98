import CfScript.Build.Script
import CfScript.Proofs.LikeBuilds
import CfScript.Proofs.LikeRuns

/-!
# Statements and scripts that are alike

The builds of statements, and from them those of whole trees: trees that are alike have readings that
are alike, from the leaves upwards. Together with parsing this gives scripts that are alike for any two
sources whose visible tokens are.

## Main results

* `Build.like_branchStatement`: the statements of nodes whose parts are alike;
* `Tree.Like.reading`: the readings of trees that are alike;
* `Script.ofSource_like`: the scripts of two sources.
-/

namespace CfScript

variable {v : View}

namespace Build

variable {b c : Branch} {r q : Reading} {rs qs : List Reading}

/-! ## Statements -/

theorem like_valueAfterKeyword (h : b.Like v c) :
    Like v (Option.Rel (Expression.Like v)) (valueAfterKeyword b) (valueAfterKeyword c) :=
  .optional (forall₂_getElem? h.operands 1) fun _ _ h => h.expression

theorem like_declaration (h : b.Like v c) :
    Like v (Statement.Like v) (declaration b) (declaration c) := by
  refine (like_operand h 1).bind fun _ _ hName =>
    (like_identifier _ hName).bind fun name name' hName => ?_
  have hRest (x? y? : Option Expression) (hValue : Option.Rel (Expression.Like v) x? y?) :
      Like v (Statement.Like v) (pure (.declare name x? b.span)) (pure (.declare name' y? c.span)) :=
    like_pure fun hSeen => by
      simp only [Statement.same, hName.eq hSeen, sameExpression?_of_like hValue hSeen,
        Bool.and_self]
  dsimp only
  rw [any_isToken_like (forall₂_getElem? h.operands 2)]
  split
  · exact ((like_operandExpression h 3).map (Q := Option.Rel (Expression.Like v))
      fun _ _ => .some).bind hRest
  · exact (like_pure .none).bind hRest

theorem like_branching (h : b.Like v c) :
    Like v (Statement.Like v) (branching b) (branching c) := by
  refine (like_operandExpression h 1).bind fun condition condition' hCondition => ?_
  refine (like_operandStatement h 2).bind fun body body' hThen => ?_
  have hRest (x? y? : Option Statement) (hElse : Option.Rel (Statement.Like v) x? y?) :
      Like v (Statement.Like v) (pure (.branch condition body x? b.span))
        (pure (.branch condition' body' y? c.span)) :=
    like_pure fun hSeen => by
      simp only [Statement.same, hCondition hSeen, hThen hSeen,
        sameStatement?_of_like hElse hSeen, Bool.and_self]
  dsimp only
  rw [any_isToken_like (forall₂_getElem? h.operands 3)]
  split
  · exact ((like_operandStatement h 4).map (Q := Option.Rel (Statement.Like v))
      fun _ _ => .some).bind hRest
  · exact (like_pure .none).bind hRest

theorem like_doLoop (h : b.Like v c) : Like v (Statement.Like v) (doLoop b) (doLoop c) := by
  refine (like_operandStatement h 1).bind fun _ _ hBody => ?_
  have hOperands := h.operands
  generalize b.operands = rs, c.operands = qs at hOperands
  match hOperands with
  | .nil => exact like_throw (.missing _ h.span)
  | .cons _ .nil => exact like_throw (.missing _ h.span)
  | .cons _ (.cons _ .nil) => exact like_throw (.missing _ h.span)
  | .cons _ (.cons _ (.cons hThird hRest)) =>
    refine (getLastD_like hRest hThird).expression.bind fun _ _ hCondition => ?_
    exact like_pure fun hSeen => by
      simp only [Statement.same, hBody hSeen, hCondition hSeen, Bool.and_self]

theorem endsClause_like (h : r.Like v q) : endsClause r = endsClause q := by
  rw [endsClause, endsClause, h.isToken, h.isAssumption]

theorem endsHeader_like (h : r.Like v q) : endsHeader r = endsHeader q := by
  rw [endsHeader, endsHeader, h.isToken, h.isAssumption]

theorem clauses_like (h : List.Forall₂ (Reading.Like v) rs qs) {x? y? : Option Reading}
    (hClause : Option.Rel (Reading.Like v) x? y?) :
    List.Forall₂ (Option.Rel (Reading.Like v)) (clauses rs x?) (clauses qs y?) := by
  induction h generalizing x? y? with
  | nil => exact .cons hClause .nil
  | cons hHead _ ih =>
    unfold clauses
    rw [endsClause_like hHead, endsHeader_like hHead, hHead.isFiller]
    split
    · exact .cons hClause (ih .none)
    split
    · exact .cons hClause .nil
    split
    · exact ih hClause
    · exact ih (.some hHead)

theorem like_loopStart (h : r.Like v q) : Like v (Statement.Like v) (loopStart r) (loopStart q) := by
  unfold loopStart
  rw [h.rule?]
  split
  · exact h.statement
  · exact h.expression.bind fun _ _ hValue => like_pure hValue

theorem like_forLoop (h : b.Like v c) : Like v (Statement.Like v) (forLoop b) (forLoop c) := by
  have hHeader := clauses_like (List.forall₂_drop 2 (forall₂_dropLast h.parts)) .none
  have hClause (i : Nat) : Option.Rel (Reading.Like v)
      (clauses (b.parts.dropLast.drop 2) none)[i]?.join
      (clauses (c.parts.dropLast.drop 2) none)[i]?.join := by
    have hEntry := forall₂_getElem? hHeader i
    generalize (clauses (b.parts.dropLast.drop 2) none)[i]? = x?,
      (clauses (c.parts.dropLast.drop 2) none)[i]? = y? at hEntry
    cases hEntry with
    | none => exact .none
    | some hEntry => exact hEntry
  have hLast := forall₂_getLast? h.parts
  unfold forLoop
  revert hLast
  generalize b.parts.getLast? = x?, c.parts.getLast? = y?
  intro hLast
  cases hLast with
  | none => exact like_throw (.missing _ h.span)
  | some hBody =>
    refine (Like.optional (hClause 0) fun _ _ h => like_loopStart h).bind fun _ _ hInit => ?_
    refine (Like.optional (hClause 1) fun _ _ h => h.expression).bind fun _ _ hCondition => ?_
    refine (Like.optional (hClause 2) fun _ _ h => h.expression).bind fun _ _ hUpdate => ?_
    refine hBody.statement.bind fun _ _ hBody => like_pure fun hSeen => ?_
    simp only [Statement.same, sameStatement?_of_like hInit hSeen,
      sameExpression?_of_like hCondition hSeen, sameExpression?_of_like hUpdate hSeen, hBody hSeen,
      Bool.and_self]

theorem like_eachLoop (h : b.Like v c) : Like v (Statement.Like v) (eachLoop b) (eachLoop c) := by
  unfold eachLoop
  simp only [fun i => any_isToken_like (forall₂_getElem? h.operands i)]
  exact (like_operandExpression h _).bind fun _ _ hTarget =>
    (like_operandExpression h _).bind fun _ _ hCollection =>
      (like_operandStatement h _).bind fun _ _ hBody => like_pure fun hSeen => by
        simp only [Statement.same, beq_self_eq_true, hTarget hSeen, hCollection hSeen, hBody hSeen,
          Bool.and_self]

/-- Cases of a `switch` that are alike, with default clauses that are alike. -/
def LikeClauses (v : View)
    (x y : List (SwitchCase Expression Statement) × Option (List Statement)) : Prop :=
  List.Forall₂ (SwitchCase.Like v) x.1 y.1 ∧
    Option.Rel (List.Forall₂ (Statement.Like v)) x.2 y.2

theorem like_switchClauses {bs cs : List Branch} (h : List.Forall₂ (Branch.Like v) bs cs)
    {x? y? : Option (List Statement)}
    (hDefault : Option.Rel (List.Forall₂ (Statement.Like v)) x? y?) :
    Like v (LikeClauses v) (switchClauses bs x?) (switchClauses cs y?) := by
  induction h generalizing x? y? with
  | nil => exact like_pure ⟨.nil, hDefault⟩
  | @cons b c _ _ hHead _ ih =>
    unfold switchClauses
    rw [hHead.rule]
    generalize c.rule = rule
    split
    · exact (like_childExpression hHead 1).bind fun _ _ hValue =>
        (like_statements (List.forall₂_drop 2 hHead.parts)).bind fun _ _ hBody =>
          (ih hDefault).bind fun ⟨_, _⟩ ⟨_, _⟩ hRest =>
            like_pure ⟨.cons ⟨hValue, hBody⟩ hRest.1, hRest.2⟩
    · cases hDefault
      exact (like_statements (List.forall₂_drop 1 hHead.parts)).bind fun _ _ hBody =>
        ih (.some hBody)
    · next hCase hFirst =>
      split
      · exact absurd rfl hCase
      · cases hDefault
        exact absurd rfl (hFirst rfl)
      · exact ih hDefault

theorem like_select (h : b.Like v c) : Like v (Statement.Like v) (select b) (select c) := by
  refine (like_operandExpression h 1).bind fun _ _ hSubject => ?_
  have hClauses : List.Forall₂ (Branch.Like v) (b.parts.filterMap (·.branch?))
      (c.parts.filterMap (·.branch?)) := List.rel_filterMap (fun _ _ h => h.branch?) h.parts
  refine (like_switchClauses hClauses .none).bind fun _ _ hRest => like_pure fun hSeen => ?_
  simp only [Statement.same, hSubject hSeen, sameCases_of_like hSeen hRest.1,
    sameBody?_of_like hSeen hRest.2, Bool.and_self]

theorem like_catchClause (h : b.Like v c) :
    Like v (CatchClause.Like v) (catchClause b) (catchClause c) := by
  have hType : Option.Rel v.SameText
      ((b.operands[1]?.bind (·.branchOf? .typeName)).map (·.tree.text))
      ((c.operands[1]?.bind (·.branchOf? .typeName)).map (·.tree.text)) := by
    have hPart := forall₂_getElem? h.operands 1
    generalize b.operands[1]? = x?, c.operands[1]? = y? at hPart
    cases hPart with
    | none => exact .none
    | @some r q hPart =>
      have hBranch := hPart.branchOf? .typeName
      simp only [Option.bind_some]
      generalize r.branchOf? .typeName = x?, q.branchOf? .typeName = y? at hBranch
      cases hBranch with
      | none => exact .none
      | some hBranch => exact .some hBranch.tree.text
  unfold catchClause
  dsimp only
  rw [isSome_like hType]
  generalize (c.operands[1]?.bind (·.branchOf? .typeName)).map (·.tree.text) = type?' at hType ⊢
  generalize (b.operands[1]?.bind (·.branchOf? .typeName)).map (·.tree.text) = type? at hType ⊢
  have hName := forall₂_getElem? h.operands (if type?'.isSome = true then 2 else 1)
  revert hName
  generalize b.operands[if type?'.isSome = true then 2 else 1]? = x?
  generalize c.operands[if type?'.isSome = true then 2 else 1]? = y?
  intro hName
  cases hName with
  | none => exact like_throw (.missing _ h.span)
  | some hName =>
    exact (like_identifier _ hName).bind fun _ _ hName => (like_block h).bind fun _ _ hBody =>
      like_pure ⟨hType, hName, hBody⟩

theorem like_tryStatement (h : b.Like v c) :
    Like v (Statement.Like v) (tryStatement b) (tryStatement c) :=
  (like_block h).bind fun _ _ hBody =>
    (Like.all (h.nodes .catchClause) fun _ _ h => like_catchClause h).bind fun _ _ hCatches =>
      (Like.optional (h.node? .finallyClause) fun _ _ h => like_block h).bind fun _ _ hFinally =>
        like_pure fun hSeen => by
          simp only [Statement.same, sameStatements_of_like hSeen hBody,
            sameCatches_of_like hSeen hCatches, sameBody?_of_like hSeen hFinally, Bool.and_self]

theorem like_component (h : b.Like v c) (kind : ComponentKind) :
    Like v (Statement.Like v) (component kind b) (component kind c) := by
  refine (like_attributes _ h).bind fun _ _ hMap => (like_block? h).bind fun _ _ hBody => ?_
  refine like_pure fun hSeen => ?_
  have hStatements := sameBody?_of_like hSeen hBody
  cases hBody with
  | none => simp only [Statement.same, beq_self_eq_true, hMap.same hSeen, Option.getD_none,
      sameStatements, List.isEmpty_nil, Bool.and_self]
  | some hBody => simp only [Statement.same, beq_self_eq_true, hMap.same hSeen, Option.getD_some,
      sameStatements_of_like hSeen hBody, Bool.and_self]

theorem ofWord?_like {a b : String} (h : v.SameText a b) : TagKind.ofWord? a = TagKind.ofWord? b := by
  simp only [TagKind.ofWord?, h.sameName_right]

theorem like_tag (h : b.Like v c) : Like v (Statement.Like v) (tag b) (tag c) := by
  refine (like_child h 0).bind fun first first' hFirst => ?_
  have hKind : (first.token?.bind fun t => TagKind.ofWord? t.lexeme) =
      first'.token?.bind fun t => TagKind.ofWord? t.lexeme := by
    have hToken := hFirst.token?
    generalize first.token? = t?, first'.token? = u? at hToken
    cases hToken with
    | none => rfl
    | some hToken => exact ofWord?_like hToken.lexeme
  rw [hKind]
  split
  · exact like_throw (.unexpectedTree _ hFirst.tree)
  · exact (like_attributes _ h).bind fun _ _ hMap => (like_block? h).bind fun _ _ hBody =>
      like_pure fun hSeen => by
        simp only [Statement.same, beq_self_eq_true, hMap.same hSeen,
          sameBody?_of_like hSeen hBody, Bool.and_self]

theorem propertyHead_like (h : List.Forall₂ (Reading.Like v) rs qs) :
    Option.Rel (Identifier.Like v) (propertyHead rs).1 (propertyHead qs).1 ∧
      Option.Rel (Reading.Like v) (propertyHead rs).2 (propertyHead qs).2 := by
  cases h with
  | nil => exact ⟨.none, .none⟩
  | @cons first first' _ _ hFirst h =>
    have hType := hFirst.branchOf? .typeName
    unfold propertyHead
    dsimp only
    revert hType
    generalize first.branchOf? .typeName = x?, first'.branchOf? .typeName = y?
    intro hType
    cases hType with
    | none => exact ⟨.none, .some hFirst⟩
    | some hType =>
      cases h with
      | nil => exact ⟨.none, .some hFirst⟩
      | cons hName _ => exact ⟨.some hType.identifier, .some hName⟩

theorem like_shortProperty (h : b.Like v c) :
    Like v (Statement.Like v) (shortProperty b) (shortProperty c) := by
  have hParts := forall₂_filter (List.forall₂_drop 1 h.operands)
    (p := (·.rule? != some .attribute)) (q := (·.rule? != some .attribute))
    fun _ _ h => by rw [h.rule?]
  have hHead := propertyHead_like hParts
  unfold shortProperty
  dsimp only
  generalize propertyHead ((b.operands.drop 1).filter (·.rule? != some .attribute)) = x at hHead ⊢
  generalize propertyHead ((c.operands.drop 1).filter (·.rule? != some .attribute)) = y at hHead ⊢
  obtain ⟨type?, first?⟩ := x
  obtain ⟨type?', first?'⟩ := y
  obtain ⟨hType, hFirst⟩ := hHead
  cases hFirst with
  | none => exact like_throw (.missingPropertyName h.span)
  | some hFirst =>
    dsimp only
    rw [hFirst.isAssumed]
    split
    · exact like_throw_bind (.missingPropertyName h.span) _ _
    · exact (like_identifier _ hFirst).bind fun _ _ hName =>
        (like_attributes _ h).bind fun _ _ hMap =>
          like_pure (Statement.like_property (by rfl) (.some hName) hType hMap _ _)

/-- Heads of functions that are alike. -/
structure FunctionHead.Like (v : View) (x y : FunctionHead) : Prop where
  modifiers : List.Forall₂ (Identifier.Like v) x.modifiers y.modifiers
  returnType? : Option.Rel (Identifier.Like v) x.returnType? y.returnType?
  rest : List.Forall₂ (Reading.Like v) x.rest y.rest

theorem like_functionHead (h : List.Forall₂ (Reading.Like v) rs qs) {x? y? : Option Identifier}
    (hType : Option.Rel (Identifier.Like v) x? y?) :
    Like v (FunctionHead.Like v) (functionHead x? rs) (functionHead y? qs) := by
  induction h generalizing x? y? with
  | nil => exact like_pure ⟨.nil, hType, .nil⟩
  | @cons r q _ _ hHead hTail ih =>
    have hToken := hHead.token?
    have hReturn := hHead.branchOf? .returnType
    unfold functionHead
    rw [hHead.isToken, hHead.isAssumed]
    split
    · exact like_pure ⟨.nil, hType, hTail⟩
    · generalize r.token? = t?, q.token? = u? at hToken
      generalize r.branchOf? .returnType = b?, q.branchOf? .returnType = c? at hReturn
      cases hToken with
      | some hToken =>
        exact (ih hType).bind fun _ _ hRest =>
          like_pure ⟨.cons hToken.lexeme hRest.modifiers, hRest.returnType?, hRest.rest⟩
      | none =>
        cases hReturn with
        | none => exact like_throw (.unexpectedTree _ hHead.tree)
        | @some b c hReturn =>
          refine ih ?_
          have hName := hReturn.node? .typeName
          generalize b.node? .typeName = x?, c.node? .typeName = y? at hName
          cases hName with
          | none => exact .none
          | some hName => exact .some hName.identifier

theorem modifiers_like {xs ys : List Identifier} (h : List.Forall₂ (Identifier.Like v) xs ys)
    (hSeen : v.spelling = true) : (xs == ys) = true := by
  induction h with
  | nil => rfl
  | cons h _ ih =>
    rw [List.cons_beq_cons, h.eq hSeen, ih]
    rfl

theorem like_function (h : b.Like v c) : Like v (Statement.Like v) (function b) (function c) := by
  refine (like_functionHead h.parts .none).bind fun x y hHead => ?_
  have hRest := hHead.rest
  generalize x.rest = rs, y.rest = qs at hRest
  cases hRest with
  | nil => exact like_throw (.missing _ h.span)
  | cons hName _ =>
    exact (like_identifier _ hName).bind fun _ _ hName =>
      (like_parameters h).bind fun _ _ hParams => (like_attributes _ h).bind fun _ _ hMap =>
        (like_block? h).bind fun _ _ hBody => like_pure fun hSeen => by
          simp only [Statement.same, modifiers_like hHead.modifiers hSeen,
            sameName?_of_like hHead.returnType? hSeen, hName.eq hSeen,
            sameParameters_of_like hSeen hParams, hMap.same hSeen, sameBody?_of_like hSeen hBody,
            Bool.and_self]

theorem like_leafStatement {l m : Leaf} (h : l.Like v m) :
    Like v (Statement.Like v) (leafStatement l) (leafStatement m) := by
  cases h with
  | matched h => exact like_throw (.unexpectedTree _ (.leaf (.matched h)))
  | skipped h => exact like_throw (.unexpectedTree _ (.leaf (.skipped h)))
  | assumed what => exact like_throw (.refl _)

/-- The statements of nodes whose parts are alike. -/
theorem like_branchStatement (h : b.Like v c) :
    Like v (Statement.Like v) (branchStatement b) (branchStatement c) := by
  have hList := like_statements h.parts
  have hValue := like_valueAfterKeyword h
  unfold branchStatement
  rw [h.rule]
  split
  · exact hList.bind fun _ _ hBody => like_pure (sameStatements_of_like · hBody)
  · exact hList.bind fun _ _ hBody => like_pure (sameStatements_of_like · hBody)
  · exact like_pure fun _ => rfl
  · exact (like_childExpression h 0).bind fun _ _ hExpression => like_pure hExpression
  · exact like_declaration h
  · exact like_branching h
  · exact (like_operandExpression h 1).bind fun _ _ hCondition =>
      (like_operandStatement h 2).bind fun _ _ hBody => like_pure fun hSeen => by
        simp only [Statement.same, hCondition hSeen, hBody hSeen, Bool.and_self]
  · exact like_doLoop h
  · exact like_forLoop h
  · exact like_eachLoop h
  · exact like_select h
  · exact like_pure fun _ => rfl
  · exact like_pure fun _ => rfl
  · exact hValue.bind fun _ _ hValue => like_pure (sameExpression?_of_like hValue)
  · exact hValue.bind fun _ _ hValue => like_pure (sameExpression?_of_like hValue)
  · exact hValue.bind fun _ _ hValue => like_pure (sameExpression?_of_like hValue)
  · exact (like_operandExpression h 1).bind fun _ _ hExpression => like_pure hExpression
  · exact like_tryStatement h
  · exact (like_operand h 1).bind fun _ _ hPath => (like_path _ hPath).bind fun _ _ hPath =>
      like_pure fun hSeen => beq_iff_eq.2 (hPath.spelling hSeen)
  · exact like_component h .component
  · exact like_component h .interface
  · exact like_tag h
  · exact (like_attributes .property h).bind fun _ _ hMap =>
      like_pure (Statement.like_property (by rfl) .none .none hMap _ _)
  · exact like_shortProperty h
  · exact like_function h
  · exact like_throw (.unexpected _ (fun _ => rfl) h.span)

end Build

/-! ## Whole trees -/

/-- The readings of trees that are alike are alike. -/
theorem Tree.Like.reading {t u : Tree} (h : t.Like v u) :
    (Reading.ofTree t).Like v (Reading.ofTree u) := by
  refine Tree.Like.rec_on (motive := fun t u => (Reading.ofTree t).Like v (Reading.ofTree u))
    (fun r cs ds hTrees hAll => ?_) (fun l m hLeaf => ?_) t u h
  · have hParts : List.Forall₂ (Reading.Like v) (Reading.ofTrees cs) (Reading.ofTrees ds) := by
      rw [Reading.ofTrees_eq_map, Reading.ofTrees_eq_map, List.forall₂_map_left_iff,
        List.forall₂_map_right_iff]
      exact hAll
    have hBranch : Branch.Like v ⟨r, .node r cs, Reading.ofTrees cs⟩
        ⟨r, .node r ds, Reading.ofTrees ds⟩ := ⟨rfl, .node r hTrees, hParts⟩
    exact .mk hBranch.tree hParts (Build.like_branchStatement hBranch)
      (Build.like_branchExpression hBranch)
  · exact .mk (.leaf hLeaf) .nil (Build.like_leafStatement hLeaf) (Build.like_leafExpression hLeaf)

namespace Build

theorem like_standalone {t u : Tree} (h : t.Like v u) {rs qs : List Reading}
    (hParts : List.Forall₂ (Reading.Like v) rs qs) :
    Like v (Option.Rel (Statement.Like v)) (standalone t rs) (standalone u qs) := by
  cases hParts with
  | nil => exact like_pure .none
  | cons hHead _ =>
    refine (hHead.expression.orLeaveOut _ h).bind fun _ _ hValue => like_pure ?_
    cases hValue with
    | none => exact .none
    | some hValue => exact .some hValue

theorem like_wholeScript {t u : Tree} {rs qs : List Reading}
    (hParts : List.Forall₂ (Reading.Like v) rs qs) :
    Like v (Option.Rel (Statement.Like v)) (wholeScript t rs) (wholeScript u qs) := by
  refine (like_statements hParts).bind fun _ _ hBody => ?_
  match hBody with
  | .nil => exact like_pure .none
  | .cons hOnly .nil => exact like_pure (.some hOnly)
  | .cons hFirst (.cons hSecond hRest) =>
    exact like_pure (.some fun hSeen =>
      sameStatements_of_like hSeen (.cons hFirst (.cons hSecond hRest)))

theorem like_root {t u : Tree} (h : t.Like v u) :
    Like v (Option.Rel (Statement.Like v)) (root t) (root u) := by
  unfold root
  rw [h.rule?]
  split
  · exact like_pure .none
  · exact like_wholeScript h.reading.parts
  · exact like_standalone h h.reading.parts
  · exact h.reading.statement.orLeaveOut _ h

end Build

/-- Trees that are alike are built to statements that are alike, with findings that are alike. -/
theorem Tree.Like.run {t u : Tree} (h : t.Like v u) {rules : AttributeRules}
    (hAdmits : v.Admits rules) :
    Option.Rel (Statement.Like v) (Build.run t rules).1 (Build.run u rules).1 ∧
      (Build.run t rules).2.Like v (Build.run u rules).2 := by
  have hRoot := Build.like_root h rules .empty .empty hAdmits .empty
  unfold Build.run
  generalize (Build.root t).runOn rules .empty = x, (Build.root u).runOn rules .empty = y at hRoot
  cases hRoot with
  | ok hResult hLog => exact ⟨hResult, hLog⟩
  | error _ hLog => exact ⟨.none, hLog⟩

/-! ## Sources -/

theorem Token.complaints_like {ts us : List Token} (h : List.Forall₂ (Token.Like v) ts us) :
    List.Forall₂ (Diagnostic.Like v) (complaints ts) (complaints us) := by
  induction h with
  | nil => exact .nil
  | @cons t u _ _ hHead _ ih =>
    have hFinding := hHead.complaint?
    unfold complaints at ih ⊢
    rw [List.filterMap_cons, List.filterMap_cons]
    revert hFinding
    generalize t.complaint? = d?, u.complaint? = e?
    intro hFinding
    cases d? <;> cases e? <;> cases hFinding
    · exact ih
    · next hFinding _ => exact .cons hFinding ih

/-- Comments come with no finding. -/
theorem Token.complaints_visible (ts : List Token) :
    complaints (ts.filter (!·.kind.isTrivia)) = complaints ts := by
  unfold complaints
  rw [List.filterMap_filter]
  refine List.filterMap_congr fun t _ => ?_
  unfold complaint?
  by_cases hKind : t.kind = .invalid
  · simp [hKind, TokenKind.isTrivia]
  · simp [hKind]

/-- What two scripts have in common that are alike. -/
structure Script.Like (v : View) (x y : Script) : Prop where
  prediction : x.prediction = y.prediction
  tree : x.tree.Like v y.tree
  root? : Option.Rel (Statement.Like v) x.root? y.root?
  findings : x.findings.Like v y.findings

/-- The visible tokens of a source. -/
def Token.visible (source : String) : List Token :=
  (tokens source).filter (!·.kind.isTrivia)

theorem Token.endAt_like {size size' : Nat} {line line' : LineNumber}
    (hSize : v.places = true → size = size') (hLine : v.places = true → line = line') :
    (endAt size line).Like v (endAt size' line') :=
  ⟨rfl, .refl "", fun hSeen => by rw [endAt, endAt, hSize hSeen], hLine⟩

theorem TokenStream.ofTokens_like {source text : String}
    (h : List.Forall₂ (Token.Like v) (Token.visible source) (Token.visible text)) :
    (ofTokens (Token.tokens source)).Like v (ofTokens (Token.tokens text)) := by
  have hLast := forall₂_getLast? h
  unfold Token.visible at h hLast
  unfold ofTokens
  dsimp only
  revert hLast
  generalize ((Token.tokens source).filter (!·.kind.isTrivia)).getLast? = t?,
    ((Token.tokens text).filter (!·.kind.isTrivia)).getLast? = u?
  intro hLast
  cases hLast with
  | none => exact ⟨.nil, .nil, Token.endAt_like (fun _ => rfl) fun _ => rfl⟩
  | @some t u hLast =>
    simp only [hLast.isEnd]
    split
    · exact ⟨.nil, forall₂_dropLast h, hLast⟩
    · exact ⟨.nil, h, Token.endAt_like (fun hSeen => by rw [hLast.span hSeen]) hLast.line⟩

/-- Sources whose visible tokens are alike have scripts that are alike. -/
theorem Script.ofSource_like {source text : String}
    (h : List.Forall₂ (Token.Like v) (Token.visible source) (Token.visible text))
    (options : ParseOptions) {rules : AttributeRules} (hAdmits : v.Admits rules) :
    (ofSource source options rules).Like v (ofSource text options rules) := by
  obtain ⟨hTree, hFound, hPrediction⟩ := parseStream_like (TokenStream.ofTokens_like h) options
  have hComplaints := Token.complaints_like h
  rw [Token.visible, Token.visible, Token.complaints_visible, Token.complaints_visible]
    at hComplaints
  obtain ⟨hRoot, hBuilt⟩ := Tree.Like.run hTree hAdmits
  have hParsed : (parse source options).findings.Like v (parse text options).findings :=
    Log.Like.locate (List.rel_append hComplaints hFound) source text
  exact ⟨hPrediction, hTree, hRoot, (hParsed.append hBuilt).locate source text⟩

end CfScript
