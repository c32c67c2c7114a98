import CfScript.Proofs.ReadsForms
import CfScript.Proofs.Restated

/-!
# Tokens that are spelled like an expression

Tokens with the lexemes of a plain expression are read as a tree, and the tree is built into an
expression that restates the first. This goes along the expression: each form says how strongly its
tokens hold together, and asks as much of its parts as the places in it need. Parentheses stand where
a part is not strong enough, so every part holds in its place.

## Main results

* `Recovers.atLeast`: a part in its place, in parentheses or not;
* `recovers_binary`, `recovers_ternary`, ...: one lemma for each form;
* `Expression.recovers`: every plain expression is read back.
-/

namespace CfScript

open Layout Token.Inner

/-! ## Spelling -/

/-- Whether the tokens are spelled like the texts. -/
def Spelled (ts : List Token.Inner) (texts : List String) : Prop :=
  List.Forall₂ (fun t text => t.1.Spells text) ts texts

variable {t : Token} {ts us : List Token.Inner} {text : String} {texts more : List String}

theorem Token.Spells.kind_eq {kind : TokenKind} (h : t.Spells text)
    (hKind : Scan.kindOf? text = some kind) : t.kind = kind :=
  Option.some.inj (h.1.symm.trans hKind)

namespace Spelled

theorem cons (h : Spelled ts (text :: texts)) :
    ∃ t us, ts = t :: us ∧ t.1.Spells text ∧ Spelled us texts := by
  obtain ⟨t, us, ht, hus, rfl⟩ := List.forall₂_cons_right_iff.1 h
  exact ⟨t, us, rfl, ht, hus⟩

theorem single (h : Spelled ts [text]) : ∃ t, ts = [t] ∧ t.1.Spells text := by
  obtain ⟨t, us, rfl, ht, hus⟩ := h.cons
  cases hus
  exact ⟨t, rfl, ht⟩

theorem append (h : Spelled ts (texts ++ more)) :
    ∃ us vs, ts = us ++ vs ∧ Spelled us texts ∧ Spelled vs more := by
  induction texts generalizing ts with
  | nil => exact ⟨[], ts, rfl, List.Forall₂.nil, h⟩
  | cons text texts ih =>
    obtain ⟨t, rest, rfl, ht, hRest⟩ := h.cons
    obtain ⟨us, vs, rfl, hus, hvs⟩ := ih hRest
    exact ⟨t :: us, vs, rfl, List.Forall₂.cons ht hus, hvs⟩

/-- Texts between an opening and a closing one. -/
theorem enclosed {opening closing : String} (h : Spelled ts (opening :: texts ++ [closing])) :
    ∃ o us c, ts = o :: (us ++ [c]) ∧ o.1.Spells opening ∧ Spelled us texts ∧ c.1.Spells closing := by
  obtain ⟨o, rest, rfl, ho, hRest⟩ := h.cons
  obtain ⟨us, vs, rfl, hus, hvs⟩ := hRest.append
  obtain ⟨c, rfl, hc⟩ := hvs.single
  exact ⟨o, us, c, rfl, ho, hus, hc⟩

theorem kinds (h : Spelled ts texts) :
    ts.map (·.1.kind) = texts.filterMap Scan.kindOf? := by
  induction h with
  | nil => rfl
  | cons hHead _ ih => rw [List.map_cons, ih, List.filterMap_cons_some hHead.1]

theorem lexemes_eq (h : Spelled ts texts) : ts.map (·.1.lexeme) = texts := by
  induction h with
  | nil => rfl
  | cons hHead _ ih => rw [List.map_cons, ih, hHead.2]

end Spelled

/-! ## A leading word `NOT` -/

/-- Whether the texts begin, and with the word `NOT` only where the steps write it first. -/
def Heads (steps : List Step) (texts : List String) : Prop :=
  ∃ text more, texts = text :: more ∧
    (Scan.kindOf? text = some (.keyword .not) → steps.head? = some (.write UnaryOp.notWord.text))

namespace Heads

variable {a b : List Step} {v w : List String} {e : Expression}

theorem of_ne (h : Scan.kindOf? text ≠ some (.keyword .not)) : Heads a (text :: more) :=
  ⟨text, more, rfl, fun hNot => absurd hNot h⟩

theorem append (h : Heads a v) : Heads (a ++ b) (v ++ w) := by
  obtain ⟨text, more, rfl, hNot⟩ := h
  refine ⟨text, more ++ w, rfl, fun hKind => ?_⟩
  rw [List.head?_append, hNot hKind]
  rfl

theorem atLeast {tight : Bool} (h : Heads (expression tight e) (lexemes tight e)) (least : Nat) :
    Heads (atLeast least tight e (expression · e)) (lexemesAtLeast least tight e (lexemes · e)) := by
  unfold Layout.atLeast lexemesAtLeast
  split
  · exact .of_ne (by decide)
  · exact h

/-- The texts of tokens that do not begin with the word. -/
theorem notHeaded (h : Heads a v) (hts : Spelled ts v)
    (hNot : a.head? ≠ some (.write UnaryOp.notWord.text)) : NotHeaded ts := by
  obtain ⟨text, more, rfl, hHead⟩ := h
  obtain ⟨t, us, rfl, ht, -⟩ := hts.cons
  exact ⟨t, us, rfl, fun hKind => hNot (hHead (ht.1.trans (congrArg some hKind)))⟩

end Heads

/-- A plain expression begins with the word `NOT` only where it is written first. -/
theorem expression_heads (tight : Bool) : (e : Expression) → e.isPlain = true →
    Heads (expression tight e) (lexemes tight e)
  | .identifier id _, h => .of_ne (by rw [beq_iff_eq.1 h]; decide)
  | .string text quote _, h => .of_ne (by rw [kindOf?_stringLexeme h]; decide)
  | .number text _, h => .of_ne (by
    rcases (Bool.or_eq_true _ _).mp h with h | h
    · rw [beq_iff_eq.1 h]
      decide
    · rw [beq_iff_eq.1 h]
      decide)
  | .boolean true _, _ => .of_ne (by decide)
  | .boolean false _, _ => .of_ne (by decide)
  | .null _, _ => .of_ne (by decide)
  | .binary op left right _, h => by
    simp only [Expression.isPlain, Bool.and_eq_true] at h
    exact ((expression_heads tight left h.1.1).atLeast _).append.append
  | .unary .notWord operand _, _ => ⟨_, _, rfl, fun _ => rfl⟩
  | .unary .neg operand _, _ => .of_ne (by decide)
  | .unary .plus operand _, _ => .of_ne (by decide)
  | .unary .not operand _, _ => .of_ne (by decide)
  | .unary .increment operand _, _ => .of_ne (by decide)
  | .unary .decrement operand _, _ => .of_ne (by decide)
  | .postfixOp op operand _, h => ((expression_heads false operand h).atLeast _).append
  | .assignment op target value _, h => by
    simp only [Expression.isPlain, Bool.and_eq_true] at h
    rw [expression, lexemes, List.append_assoc]
    exact ((expression_heads false target h.1).atLeast _).append
  | .ternary condition thenValue elseValue _, h => by
    simp only [Expression.isPlain, Bool.and_eq_true] at h
    simp only [expression, lexemes, List.append_assoc, List.cons_append]
    exact ((expression_heads false condition h.1.1).atLeast _).append
  | .elvis value default _, h => by
    simp only [Expression.isPlain, Bool.and_eq_true] at h
    rw [expression, lexemes, List.append_assoc]
    exact ((expression_heads false value h.1).atLeast _).append
  | .paren inner _, _ => .of_ne (by decide)
  | .call callee args _, h => by
    simp only [Expression.isPlain, Bool.and_eq_true] at h
    rw [expression, lexemes, List.append_assoc]
    exact ((expression_heads false callee h.1).atLeast _).append
  | .member object property _ _, h => by
    simp only [Expression.isPlain, Bool.and_eq_true] at h
    exact ((expression_heads false object h.1).atLeast _).append
  | .index object index _, h => by
    simp only [Expression.isPlain, Bool.and_eq_true] at h
    rw [expression, lexemes, List.append_assoc]
    exact ((expression_heads false object h.1).atLeast _).append
  | .array items _, _ => .of_ne (by decide)
  | .struct entries _, _ => .of_ne (by decide)
  | .new className args _, _ => .of_ne (by decide)

/-! ## Parts in their places -/

/-- Whether tokens that are spelled like the expression are read as a tree that restates it. -/
def Expression.Recovers (e : Expression) : Prop :=
  ∀ tight ts, Spelled ts (lexemes tight e) →
    ∃ T, Holds tight (Strength.ofExpression tight e) ts T ∧ T.Restates e

section

variable {e left right operand target value condition thenValue elseValue default callee object
  place : Expression} {tight : Bool} {least : Nat} {span : Span}

/-- A token that is an operand by itself. -/
theorem holds_leaf {t : Token.Inner} (h : t.1.kind ∈ Tree.operandKinds) :
    Holds tight Strength.primary [t] (.token t.1) := by
  have hKinds : ∀ kind ∈ Tree.operandKinds,
      kind ∉ Grammar.nonStarters ∧ kind ∉ Grammar.unaryOperators := by decide
  obtain ⟨hHead, hSign⟩ := hKinds _ h
  exact .of_applied (leads_leaf h) (.of_single hHead hSign) (by decide)

/-- An opening symbol and what is put together behind it. -/
theorem holds_opened {o : Token.Inner} {T : Tree} {s : Symbol} (ho : o.1.kind = .symbol s)
    (hHead : .symbol s ∉ Grammar.nonStarters ++ Grammar.unaryOperators)
    (h : LeadsApplied (o :: ts) T) : Holds tight (max least Strength.primary) (o :: ts) T := by
  rw [List.mem_append, not_or] at hHead
  have hStarts : Starts tight (max least Strength.primary) (o :: ts) :=
    .of_symbol (by rw [ho]; rfl) (by rw [ho]; exact hHead.1) (by rw [ho]; exact hHead.2)
  exact .of_applied h hStarts ((show Strength.suffixed ≤ Strength.primary by decide).trans
    (le_max_right _ _))

/-- An expression in its place, in parentheses if it is not strong enough. -/
theorem Expression.Recovers.atLeast (h : e.Recovers)
    (hts : Spelled ts (lexemesAtLeast least tight e (lexemes · e))) :
    ∃ T, Holds tight least ts T ∧ T.Restates e := by
  unfold lexemesAtLeast at hts
  split at hts
  · obtain ⟨o, us, c, rfl, ho, hus, hc⟩ := hts.enclosed
    obtain ⟨T, hT, hRestates⟩ := h false us hus
    have hOpening : o.1.kind = .symbol .lParen := ho.kind_eq (by decide)
    have hClosing : c.1.kind = .symbol .rParen := hc.kind_eq (by decide)
    have hHolds : Holds tight (max least Strength.primary) (o :: (us ++ [c])) _ :=
      holds_opened hOpening (by decide) (leads_paren hOpening hClosing (hT.expression rfl))
    exact ⟨_, hHolds.weaken (le_max_left _ _), restates_paren hRestates⟩
  next hLe =>
    obtain ⟨T, hT, hRestates⟩ := h tight ts hts
    exact ⟨T, hT.weaken (Nat.not_lt.1 hLe), hRestates⟩

/-! ## Operators -/

theorem BinaryOp.ofKinds?_kinds (op : BinaryOp) : BinaryOp.ofKinds? op.kinds = some op := by
  cases op <;> decide

theorem recovers_binary {op : BinaryOp} (hLeft : left.Recovers) (hRight : right.Recovers)
    (hArrow : right.isArrow = false)
    (hNot : op = .is → ∀ us, Spelled us (lexemesAtLeast (rightStrength .is right)
      BinaryOp.is.tightens right (lexemes · right)) → NotHeaded us) :
    (Expression.binary op left right span).Recovers := by
  intro tight ts hSpelled
  obtain ⟨_, us, rfl, hFront, hus⟩ := hSpelled.append
  obtain ⟨ts, ops, rfl, hts, hOps⟩ := hFront.append
  obtain ⟨T, hT, hRestatesLeft⟩ := hLeft.atLeast hts
  obtain ⟨U, hU, hRestatesRight⟩ := hRight.atLeast hus
  have hLevel : op.level < 10 := by cases op <;> decide
  have hKinds : ops.map (·.1.kind) = op.kinds := hOps.kinds
  have hComplete : CompleteAt (op.level + 1) us U := by
    refine hU.right op.level hLevel ?_ rfl
    rw [rightStrength, hArrow]
    exact le_rfl
  have hNotHeaded : op = .is → NotHeaded us := by
    rintro rfl
    exact hNot rfl us hus
  have hLeads (hTight : tight = true → Grammar.notLevel < op.level) :=
    leads_binary op (hT.left op.level hLevel le_rfl hTight) hKinds hComplete hNotHeaded
  have hStarts : Starts tight (Strength.binary op) (ts ++ (ops ++ us)) := by
    obtain ⟨kind, kinds, hOp, hKind⟩ := op.kinds_level
    obtain ⟨o, more, rfl, ho, -⟩ := List.map_eq_cons_iff.1 (hKinds.trans hOp)
    refine hT.starts.append (fun hs => ⟨hs, fun hAssign => ?_⟩) hT.starts.notHeaded hT.starts.signFree
    have hReach := reach?_of_level hLevel hKind
    rw [← ho, show o.1.kind = .symbol .assign from hAssign] at hReach
    have hZero : Strength.assignment = Strength.loosestBinary + 2 * op.level := Option.some.inj hReach
    simp only [Strength.assignment, Strength.loosestBinary] at hZero
    omega
  have hTokens : ops.map (fun t => Tree.token t.1) = (ops.map (·.1)).map .token := by
    rw [List.map_map]
    rfl
  have hOf : BinaryOp.ofKinds? ((ops.map (·.1)).map (·.kind)) = some op := by
    rw [List.map_map, show ops.map ((·.kind) ∘ (·.1)) = op.kinds from hKinds, op.ofKinds?_kinds]
  have hSome : ops.map (·.1) ≠ [] := by
    intro hNil
    obtain ⟨kind, kinds, hOp, -⟩ := op.kinds_level
    rw [List.map_eq_nil_iff.1 hNil, hOp] at hKinds
    cases hKinds
  rw [hTokens] at hLeads
  rw [List.append_assoc] at hLeads ⊢
  exact ⟨_, .of_binary hLevel hLeads hStarts, restates_binary hSome hOf hRestatesLeft hRestatesRight⟩

/-- An operator and its operand. A word `NOT` stands first in a tight place or in front of all. -/
theorem starts_prefixed {o : Token.Inner} {strength : Nat} {T : Tree}
    (ho : o.1.kind ∈ Grammar.unaryOperators) (hOperand : Holds true least us T ∨ Holds false least us T)
    (hStrength : strength < Strength.suffixed)
    (hNot : o.1.kind = .keyword .not → tight = true ∨ strength ≤ Strength.leadingNot) :
    Starts tight strength (o :: us) := by
  have hStarters : ∀ kind ∈ Grammar.unaryOperators, kind ∉ Grammar.nonStarters := by decide
  obtain ⟨u, rest, rfl, hHead⟩ : ∃ u rest, us = u :: rest ∧ u.1.kind ∉ Grammar.nonStarters :=
    hOperand.elim (·.starts.head) (·.starts.head)
  refine ⟨⟨o, _, rfl, hStarters _ ho⟩, fun _ _ hAssign => ?_, fun hTight hs => ?_, fun hs => ?_⟩
  · exact hHead ((show u.1.kind = .symbol .assign from hAssign) ▸ by decide)
  · refine ⟨o, _, rfl, fun hWord => ?_⟩
    rcases hNot hWord with hTrue | hLe
    · rw [hTight] at hTrue
      cases hTrue
    · exact absurd hLe (Nat.not_le.2 hs)
  · exact absurd hs (Nat.not_le.2 hStrength)

/-- An operator in front of an operand that holds together in a tight place. -/
theorem holds_prefixed {o : Token.Inner} {T : Tree} (ho : o.1.kind ∈ Grammar.unaryOperators)
    (hOperand : Holds true Strength.prefixed us T) (hNot : o.1.kind = .keyword .not → tight = true) :
    Holds tight Strength.prefixed (o :: us) (.node .unaryExpression [.token o.1, T]) :=
  .of_unary (complete_unary ho (hOperand.unary le_rfl))
    (starts_prefixed ho (.inl hOperand) (by decide) fun h => .inl (hNot h))

/-- An operator that is a symbol, at any place. -/
theorem recovers_sign {op : UnaryOp} (s : Symbol) (hOperand : operand.Recovers)
    (hText : ∀ tight, lexemes tight (.unary op operand span) =
      op.text :: lexemesAtLeast Strength.prefixed true operand (lexemes · operand))
    (hStrength : ∀ tight, Strength.ofExpression tight (.unary op operand span) = Strength.prefixed)
    (hKind : Scan.kindOf? op.text = some (.symbol s)) (hOp : UnaryOp.ofKind? (.symbol s) = some op)
    (hSign : .symbol s ∈ Grammar.unaryOperators) : (Expression.unary op operand span).Recovers := by
  intro tight ts hSpelled
  rw [hText] at hSpelled
  obtain ⟨o, us, rfl, ho, hus⟩ := hSpelled.cons
  obtain ⟨T, hT, hRestates⟩ := hOperand.atLeast hus
  have hSymbol := ho.kind_eq hKind
  have hHolds : Holds tight Strength.prefixed (o :: us) _ :=
    holds_prefixed (hSymbol ▸ hSign) hT fun hWord => nomatch hSymbol.symm.trans hWord
  rw [hStrength]
  exact ⟨_, hHolds, restates_unary (hSymbol ▸ hOp) hRestates⟩

/-- The word `NOT`: in a tight place it takes an operand, and else a whole comparison. -/
theorem recovers_notWord (hOperand : operand.Recovers) :
    (Expression.unary .notWord operand span).Recovers := by
  intro tight ts hSpelled
  obtain ⟨o, us, rfl, ho, hus⟩ := hSpelled.cons
  have hWord : o.1.kind = .keyword .not := ho.kind_eq (by decide)
  have hUnary : o.1.kind ∈ Grammar.unaryOperators := hWord ▸ by decide
  have hOp : UnaryOp.ofKind? o.1.kind = some .notWord := by rw [hWord]; rfl
  cases tight with
  | true =>
    obtain ⟨T, hT, hRestates⟩ := hOperand.atLeast hus
    exact ⟨_, holds_prefixed hUnary hT fun _ => rfl, restates_unary hOp hRestates⟩
  | false =>
    obtain ⟨T, hT, hRestates⟩ := hOperand.atLeast hus
    have hComparison : CompleteAt Grammar.notLevel us T := hT.right 4 (by decide) le_rfl rfl
    have hStarts : Starts false Strength.leadingNot (o :: us) :=
      starts_prefixed hUnary (.inr hT) (by decide) fun _ => .inr le_rfl
    exact ⟨_, .of_leadingNot (complete_not hWord hComparison) hStarts, restates_unary hOp hRestates⟩

/-! ## What is applied to an operand -/

/-- Something that is applied to an operand holds together where the operand does. -/
theorem holds_applied {T U : Tree} (hOperand : Holds false Strength.suffixed ts T)
    (hNext : kindAt us 0 ≠ .symbol .assign) (h : LeadsApplied (ts ++ us) U) :
    Holds tight Strength.suffixed (ts ++ us) U :=
  .of_applied h (hOperand.starts.applied hNext) le_rfl

theorem recovers_postfixed {op : PostfixOp} (hOperand : operand.Recovers) :
    (Expression.postfixOp op operand span).Recovers := by
  intro tight ts hSpelled
  obtain ⟨ts, _, rfl, hts, hRest⟩ := hSpelled.append
  obtain ⟨o, rfl, ho⟩ := hRest.single
  obtain ⟨T, hT, hRestates⟩ := hOperand.atLeast hts
  have hKind : o.1.kind = .symbol .plusPlus ∧ op = .increment ∨
      o.1.kind = .symbol .minusMinus ∧ op = .decrement := by
    cases op with
    | increment => exact .inl ⟨ho.kind_eq (by decide), rfl⟩
    | decrement => exact .inr ⟨ho.kind_eq (by decide), rfl⟩
  have hOp : PostfixOp.ofKind? o.1.kind = some op := by
    rcases hKind with ⟨hKind, rfl⟩ | ⟨hKind, rfl⟩ <;> rw [hKind] <;> rfl
  have hNext : kindAt [o] 0 ≠ .symbol .assign := by
    rcases hKind with ⟨hKind, -⟩ | ⟨hKind, -⟩ <;> simp [hKind]
  exact ⟨_, holds_applied hT hNext (leads_postfixed (hT.applied le_rfl) (hKind.imp And.left And.left)),
    restates_postfixed hOp hRestates⟩

theorem recovers_member {property : Identifier} {safe : Bool} (hObject : object.Recovers)
    (hWord : Scan.isWord property.name = true) :
    (Expression.member object property safe span).Recovers := by
  intro tight ts hSpelled
  obtain ⟨ts, _, rfl, hts, hRest⟩ := hSpelled.append
  obtain ⟨o, _, rfl, ho, hLast⟩ := hRest.cons
  obtain ⟨t, rfl, ht⟩ := hLast.single
  obtain ⟨T, hT, hRestates⟩ := hObject.atLeast hts
  have hDot : o.1.kind = if safe then .symbol .safeDot else .symbol .dot := by
    cases safe with
    | true => exact ho.kind_eq (by decide)
    | false => exact ho.kind_eq (by decide)
  have hEither : o.1.kind = .symbol .dot ∨ o.1.kind = .symbol .safeDot := by
    cases safe with
    | true => exact .inr hDot
    | false => exact .inl hDot
  have hNext : kindAt [o, t] 0 ≠ .symbol .assign := by
    rcases hEither with hKind | hKind <;> simp [hKind]
  have hName : t.1.kind.isWord = true := by
    rw [Scan.isWord, ht.1] at hWord
    simpa using hWord
  exact ⟨_, holds_applied hT hNext (leads_member (hT.applied le_rfl) hEither hName),
    restates_member hRestates hDot hName ht.2⟩

theorem recovers_index (hObject : object.Recovers) (hPlace : place.Recovers) :
    (Expression.index object place span).Recovers := by
  intro tight ts hSpelled
  rw [lexemes, List.append_assoc] at hSpelled
  obtain ⟨ts, _, rfl, hts, hRest⟩ := hSpelled.append
  obtain ⟨o, us, c, rfl, ho, hus, hc⟩ := hRest.enclosed
  obtain ⟨T, hT, hRestates⟩ := hObject.atLeast hts
  obtain ⟨U, hU, hRestates'⟩ := hPlace false us hus
  have hOpening : o.1.kind = .symbol .lBracket := ho.kind_eq (by decide)
  have hClosing : c.1.kind = .symbol .rBracket := hc.kind_eq (by decide)
  exact ⟨_, holds_applied hT (by simp [hOpening])
    (leads_index (hT.applied le_rfl) hOpening hClosing (hU.expression rfl)),
    restates_index hRestates hRestates'⟩

/-! ## What is looser than all operators -/

theorem recovers_assignment {op : AssignOp} (hTarget : target.Recovers) (hValue : value.Recovers) :
    (Expression.assignment op target value span).Recovers := by
  intro tight ts hSpelled
  rw [lexemes] at hSpelled
  obtain ⟨ts, _, rfl, hts, hRest⟩ := hSpelled.append
  obtain ⟨o, us, rfl, ho, hus⟩ := hRest.cons
  obtain ⟨T, hT, hRestates⟩ := hTarget.atLeast hts
  obtain ⟨U, hU, hRestates'⟩ := hValue false us hus
  have hOps : ∀ op : AssignOp, ∃ kind, Scan.kindOf? op.text = some kind ∧
      AssignOp.ofKind? kind = some op ∧ kind.isAssignment = true ∧
        kind.reach? = some Strength.assignment := by
    intro op
    cases op <;> exact ⟨_, rfl, rfl, rfl, rfl⟩
  obtain ⟨kind, hText, hOp, hAssignment, hReach⟩ := hOps op
  obtain rfl := ho.kind_eq hText
  have hComplete := complete_assignment hAssignment hReach (hT.ternary rfl le_rfl) (hU.expression rfl)
  have hStarts : Starts tight Strength.assignment (ts ++ o :: us) :=
    hT.starts.append (fun hs => absurd hs (by decide)) (fun _ hs => absurd hs (by decide))
      fun hs => absurd hs (by decide)
  have hLoose : ¬ Strength.conditional ≤ Strength.assignment := by decide
  exact ⟨_, .of_loose (Nat.zero_le _) hComplete (fun hs => absurd hs hLoose) hStarts,
    restates_assignment hOp hRestates hRestates'⟩

theorem recovers_ternary (hCondition : condition.Recovers) (hThen : thenValue.Recovers)
    (hElse : elseValue.Recovers) :
    (Expression.ternary condition thenValue elseValue span).Recovers := by
  intro tight ts hSpelled
  simp only [lexemes, List.append_assoc, List.cons_append] at hSpelled
  obtain ⟨ts, _, rfl, hts, hRest⟩ := hSpelled.append
  obtain ⟨o, _, rfl, ho, hBranches⟩ := hRest.cons
  obtain ⟨us, _, rfl, hus, hElseValue⟩ := hBranches.append
  obtain ⟨c, vs, rfl, hc, hvs⟩ := hElseValue.cons
  obtain ⟨T, hT, hRestates⟩ := hCondition.atLeast hts
  obtain ⟨U, hU, hRestates'⟩ := hThen.atLeast hus
  obtain ⟨V, hV, hRestates''⟩ := hElse.atLeast hvs
  have hQuestion : o.1.kind = .symbol .question := ho.kind_eq (by decide)
  have hComplete := complete_ternary hQuestion (hc.kind_eq (by decide))
    (hT.left 0 (by decide) le_rfl nofun).complete (hU.ternary rfl le_rfl) (hV.ternary rfl le_rfl)
  have hStarts : Starts tight Strength.conditional (ts ++ o :: (us ++ c :: vs)) :=
    hT.starts.loose (by decide) le_rfl (by simp [hQuestion])
  exact ⟨_, .of_loose le_rfl hComplete.expression (fun _ => hComplete) hStarts,
    restates_ternary hRestates hRestates' hRestates''⟩

theorem recovers_elvis (hValue : value.Recovers) (hDefault : default.Recovers) :
    (Expression.elvis value default span).Recovers := by
  intro tight ts hSpelled
  rw [lexemes] at hSpelled
  obtain ⟨ts, _, rfl, hts, hRest⟩ := hSpelled.append
  obtain ⟨o, us, rfl, ho, hus⟩ := hRest.cons
  obtain ⟨T, hT, hRestates⟩ := hValue.atLeast hts
  obtain ⟨U, hU, hRestates'⟩ := hDefault.atLeast hus
  have hElvis : o.1.kind = .symbol .elvis := ho.kind_eq (by decide)
  have hComplete := complete_elvis hElvis (hT.left 0 (by decide) le_rfl nofun).complete
    (hU.ternary rfl le_rfl)
  have hStarts : Starts tight Strength.conditional (ts ++ o :: us) :=
    hT.starts.loose (by decide) le_rfl (by simp [hElvis])
  exact ⟨_, .of_loose le_rfl hComplete.expression (fun _ => hComplete) hStarts,
    restates_elvis hRestates hRestates'⟩

theorem recovers_paren (h : e.Recovers) : (Expression.paren e span).Recovers := by
  intro tight ts hSpelled
  obtain ⟨o, us, c, rfl, ho, hus, hc⟩ := Spelled.enclosed hSpelled
  obtain ⟨T, hT, hRestates⟩ := h false us hus
  have hOpening : o.1.kind = .symbol .lParen := ho.kind_eq (by decide)
  have hHolds : Holds tight (max 0 Strength.primary) (o :: (us ++ [c])) _ :=
    holds_opened hOpening (by decide)
      (leads_paren hOpening (hc.kind_eq (by decide)) (hT.expression rfl))
  exact ⟨_, hHolds, restates_paren hRestates.paren⟩

/-! ## Lists -/

/-- Whether tokens that are spelled like the texts are read as an item of a list, in a tree that is
right for a part of the program. The list does not close in front of them. -/
def RecoversItem {α : Type} (goal : Goal) (close : Symbol) (Right : Tree → α → Prop)
    (texts : List String) (x : α) : Prop :=
  ∀ ts, Spelled ts texts → ∃ T, ReadsItem goal ts T ∧
    (∃ t us, ts = t :: us ∧ t.1.kind ≠ .symbol close) ∧ Right T x

/-- Items with commas between them. -/
theorem recovers_items {α : Type} {goal : Goal} {close : Symbol} {Right : Tree → α → Prop}
    {part : List String} {parts : List (List String)} {x : α} {xs : List α}
    (hPart : RecoversItem goal close Right part x)
    (h : List.Forall₂ (RecoversItem goal close Right) parts xs)
    (hts : Spelled ts ([","].intercalate (part :: parts))) :
    ∃ items trees, ReadsItems goal ts trees ∧
      (∃ t us, ts = t :: us ∧ t.1.kind ≠ .symbol close) ∧ Separated items trees ∧
        List.Forall₂ Right items (x :: xs) := by
  induction h generalizing part x ts with
  | nil =>
    obtain ⟨T, hItem, hHead, hRight⟩ := hPart ts (by simpa using hts)
    exact ⟨[T], [T], hItem.single, hHead, .single, .cons hRight .nil⟩
  | cons hNext _ ih =>
    rw [List.intercalate_cons_cons, List.append_assoc] at hts
    obtain ⟨us, _, rfl, hus, hRest⟩ := hts.append
    obtain ⟨c, vs, rfl, hc, hvs⟩ := hRest.cons
    obtain ⟨T, hItem, ⟨t, rest, rfl, hHead⟩, hRight⟩ := hPart us hus
    obtain ⟨items, trees, hItems, -, hSeparated, hAll⟩ := ih hNext hvs
    have hComma : c.1.kind = .symbol .comma := hc.kind_eq (by decide)
    exact ⟨T :: items, _, hItem.cons hComma hItems, ⟨t, _, rfl, hHead⟩, .cons hComma hSeparated,
      .cons hRight hAll⟩

/-- A list up to its closing symbol. -/
theorem recovers_closed {α : Type} {goal : Goal} {close : Symbol} {Right : Tree → α → Prop}
    {parts : List (List String)} {xs : List α}
    (h : List.Forall₂ (RecoversItem goal close Right) parts xs)
    (hts : Spelled ts ([","].intercalate parts)) :
    ∃ items trees, ReadsClosed goal close ts trees ∧ Separated items trees ∧
      List.Forall₂ Right items xs := by
  cases h with
  | nil =>
    cases hts
    exact ⟨[], [], .inl ⟨rfl, rfl⟩, .nil, .nil⟩
  | cons hPart hParts =>
    obtain ⟨items, trees, hItems, hHead, hSeparated, hAll⟩ := recovers_items hPart hParts hts
    exact ⟨items, trees, .inr ⟨hHead, hItems⟩, hSeparated, hAll⟩

theorem recovers_element (h : e.Recovers) :
    RecoversItem .elements .rBracket Tree.Restates (lexemes false e) e := by
  intro ts hts
  obtain ⟨T, hT, hRestates⟩ := h false ts hts
  obtain ⟨t, us, rfl, hHead⟩ := hT.starts.head
  have hClose : t.1.kind ≠ .symbol .rBracket := fun hKind => hHead (hKind ▸ by decide)
  exact ⟨T, readsItem_element (hT.expression rfl), ⟨t, us, rfl, hClose⟩, hRestates⟩

/-- An argument without a name: an assignment stands in parentheses. -/
theorem recovers_unnamed (h : value.Recovers) :
    RecoversItem .arguments .rParen Tree.RestatesArgument
      (if value.isAssignment then "(" :: lexemes false value ++ [")"] else lexemes false value)
      ⟨none, value⟩ := by
  have hTexts : (if value.isAssignment then "(" :: lexemes false value ++ [")"]
      else lexemes false value) =
        lexemesAtLeast Strength.conditional false value (lexemes · value) := by
    have hLoose : Strength.ofExpression false value < Strength.conditional ↔
        value.isAssignment = true := by
      cases value with
      | assignment => exact iff_of_true (show Strength.assignment < _ by decide) rfl
      | binary op => exact iff_of_false (by simp [Strength.ofExpression, Strength.binary,
          Strength.loosestBinary, Strength.conditional]) Bool.false_ne_true
      | unary op => cases op <;> exact iff_of_false (Nat.not_lt.2 (Nat.le_of_ble_eq_true rfl)) Bool.false_ne_true
      | function arrow => cases arrow <;> exact iff_of_false (Nat.not_lt.2 (Nat.le_of_ble_eq_true rfl)) Bool.false_ne_true
      | lambda arrow => cases arrow <;> exact iff_of_false (Nat.not_lt.2 (Nat.le_of_ble_eq_true rfl)) Bool.false_ne_true
      | _ => exact iff_of_false (Nat.not_lt.2 (Nat.le_of_ble_eq_true rfl)) Bool.false_ne_true
    simp only [lexemesAtLeast, hLoose]
  intro ts hts
  rw [hTexts] at hts
  obtain ⟨T, hT, hRestates⟩ := h.atLeast hts
  obtain ⟨t, us, rfl, hHead⟩ := hT.starts.head
  have hClose : t.1.kind ≠ .symbol .rParen := fun hKind => hHead (hKind ▸ by decide)
  exact ⟨_, readsItem_argument (hT.expression rfl) hT.starts le_rfl, ⟨t, us, rfl, hClose⟩,
    restatesArgument_unnamed hRestates⟩

theorem recovers_named {name : Identifier} (hWord : Scan.isWord name.name = true) (h : value.Recovers) :
    RecoversItem .arguments .rParen Tree.RestatesArgument
      (name.name :: "=" :: lexemesAtLeast Strength.conditional false value (lexemes · value))
      ⟨some name, value⟩ := by
  intro ts hts
  obtain ⟨t, _, rfl, ht, hRest⟩ := hts.cons
  obtain ⟨o, us, rfl, ho, hus⟩ := hRest.cons
  obtain ⟨T, hT, hRestates⟩ := h.atLeast hus
  have hName : t.1.kind.isWord = true := by
    rw [Scan.isWord, ht.1] at hWord
    simpa using hWord
  have hAssign : o.1.kind = .symbol .assign := ho.kind_eq (by decide)
  have hClose : t.1.kind ≠ .symbol .rParen := fun hKind => by
    rw [hKind] at hName
    cases hName
  exact ⟨_, readsItem_named hName hAssign (hT.ternary rfl le_rfl), ⟨t, _, rfl, hClose⟩,
    restatesArgument_named hName ht.2 hAssign hRestates⟩

/-- A key is one token. -/
theorem lexemes_key {key : Expression} (hKey : key.isPlainKey = true) :
    ∃ text kind, lexemesAtLeast Strength.primary false key (lexemes · key) = [text] ∧
      lexemes false key = [text] ∧ Scan.kindOf? text = some kind ∧
        (kind.isWord = true ∨ kind = .string ∨ kind = .integer) := by
  cases key with
  | identifier id =>
    obtain ⟨kind, hKind, hWord⟩ := (Option.any_eq_true _ _).1 hKey
    exact ⟨id.name, kind, rfl, rfl, hKind, .inl hWord⟩
  | string text quote =>
    exact ⟨_, .string, rfl, rfl, kindOf?_stringLexeme hKey, .inr (.inl rfl)⟩
  | number text => exact ⟨text, .integer, rfl, rfl, beq_iff_eq.1 hKey, .inr (.inr rfl)⟩
  | _ => cases hKey

theorem recovers_entry {key : Expression} {separator : Separator} (hKey : key.isPlainKey = true)
    (h : value.Recovers) :
    RecoversItem .structEntries .rBrace Tree.RestatesEntry
      (lexemesAtLeast Strength.primary false key (lexemes · key) ++
        separator.text :: lexemes false value) ⟨key, separator, value⟩ := by
  intro ts hts
  obtain ⟨text, kind, hPlace, hText, hKind, hKinds⟩ := lexemes_key hKey
  rw [hPlace] at hts
  obtain ⟨t, _, rfl, ht, hRest⟩ := hts.cons
  obtain ⟨o, us, rfl, ho, hus⟩ := hRest.cons
  obtain ⟨T, hT, hRestates⟩ := h false us hus
  have hToken : t.1.kind = kind := ht.kind_eq hKind
  have hClose : t.1.kind ≠ .symbol .rBrace := by
    rw [hToken]
    rintro rfl
    simp [TokenKind.isWord] at hKinds
  have hSeparator : o.1.kind = .symbol .assign ∨ o.1.kind = .symbol .colon := by
    cases separator with
    | colon => exact .inr (ho.kind_eq (by decide))
    | equals => exact .inl (ho.kind_eq (by decide))
  have hLexeme : Scan.kindOf? t.1.lexeme = some t.1.kind := by rw [ht.2, ht.1]
  exact ⟨_, readsItem_entry (hToken ▸ hKinds) hSeparator (hT.expression rfl), ⟨t, _, rfl, hClose⟩,
    restatesEntry hKey hLexeme (by rw [hText, ht.2]) ho.1 hRestates⟩

theorem recovers_array {items : List Expression}
    (h : List.Forall₂ (RecoversItem .elements .rBracket Tree.Restates) (itemLexemes items) items) :
    (Expression.array items span).Recovers := by
  intro tight ts hts
  obtain ⟨o, us, c, rfl, ho, hus, hc⟩ := Spelled.enclosed hts
  obtain ⟨items, trees, hClosed, hSeparated, hAll⟩ := recovers_closed h hus
  have hOpening : o.1.kind = .symbol .lBracket := ho.kind_eq (by decide)
  have hClosing : c.1.kind = .symbol .rBracket := hc.kind_eq (by decide)
  have hHolds : Holds tight (max 0 Strength.primary) (o :: (us ++ [c])) _ :=
    holds_opened hOpening (by decide) (leads_array hOpening hClosing hClosed)
  exact ⟨_, hHolds, restates_array hOpening hClosing hSeparated hAll⟩

theorem recovers_struct {entries : List (StructEntry Expression)}
    (h : List.Forall₂ (RecoversItem .structEntries .rBrace Tree.RestatesEntry)
      (entryLexemes entries) entries) : (Expression.struct entries span).Recovers := by
  intro tight ts hts
  obtain ⟨o, us, c, rfl, ho, hus, hc⟩ := Spelled.enclosed hts
  obtain ⟨items, trees, hClosed, hSeparated, hAll⟩ := recovers_closed h hus
  have hOpening : o.1.kind = .symbol .lBrace := ho.kind_eq (by decide)
  have hHolds : Holds tight (max 0 Strength.primary) (o :: (us ++ [c])) _ :=
    holds_opened hOpening (by decide) (leads_struct hOpening (hc.kind_eq (by decide)) hClosed)
  exact ⟨_, hHolds, restates_struct hSeparated hAll⟩

theorem recovers_call {args : List (Argument Expression)} (hCallee : callee.Recovers)
    (h : List.Forall₂ (RecoversItem .arguments .rParen Tree.RestatesArgument)
      (argumentLexemes args) args) : (Expression.call callee args span).Recovers := by
  intro tight ts hSpelled
  rw [lexemes, List.append_assoc] at hSpelled
  obtain ⟨ts, _, rfl, hts, hRest⟩ := hSpelled.append
  obtain ⟨o, us, c, rfl, ho, hus, hc⟩ := hRest.enclosed
  obtain ⟨T, hT, hRestates⟩ := hCallee.atLeast hts
  obtain ⟨items, trees, hClosed, hSeparated, hAll⟩ := recovers_closed h hus
  have hOpening : o.1.kind = .symbol .lParen := ho.kind_eq (by decide)
  exact ⟨_, holds_applied hT (by simp [hOpening])
    (leads_call (hT.applied le_rfl) hOpening (hc.kind_eq (by decide)) hClosed),
    restates_call hRestates hSeparated hAll⟩

/-- The words of a path with dots between them. -/
theorem dotted_of_spelled {words : List String} (hWords : words.all Scan.isWord = true)
    (hSome : words ≠ []) (hts : Spelled ts (words.intersperse ".")) : Dotted ts := by
  induction words generalizing ts with
  | nil => exact absurd rfl hSome
  | cons word words ih =>
    rw [List.all_cons, Bool.and_eq_true] at hWords
    have hWord {t : Token.Inner} (ht : t.1.Spells word) : t.1.kind.isWord = true := by
      simpa [Scan.isWord, ht.1] using hWords.1
    cases words with
    | nil =>
      obtain ⟨t, rfl, ht⟩ := hts.single
      exact .word (hWord ht)
    | cons next words =>
      obtain ⟨t, _, rfl, ht, hRest⟩ := hts.cons
      obtain ⟨o, us, rfl, ho, hus⟩ := hRest.cons
      exact .cons (hWord ht) (ho.kind_eq (by decide)) (ih hWords.2 (by simp) hus)

/-- The words of a path with dots between them are the path. -/
theorem join_pathWords (path : String) : String.join ((pathWords path).intersperse ".") = path := by
  have hParts (parts : List (List Char)) :
      (String.join ((parts.map String.ofList).intersperse ".")).toList = ['.'].intercalate parts := by
    induction parts with
    | nil => rfl
    | cons part parts ih =>
      cases parts with
      | nil => simp
      | cons next parts =>
        rw [List.intercalate_cons_cons, ← ih]
        simp [String.join_cons]
  have hPath := hParts (path.toList.splitOn '.')
  rw [List.intercalate_splitOn] at hPath
  exact String.toList_inj.1 hPath

theorem recovers_new {className : String} {args : List (Argument Expression)}
    (hPath : (pathWords className).all Scan.isWord = true)
    (h : List.Forall₂ (RecoversItem .arguments .rParen Tree.RestatesArgument)
      (argumentLexemes args) args) : (Expression.new className args span).Recovers := by
  intro tight ts hSpelled
  rw [lexemes, List.append_assoc] at hSpelled
  obtain ⟨_, _, rfl, hFront, hRest⟩ := hSpelled.append
  obtain ⟨t, us, rfl, ht, hus⟩ := hFront.cons
  obtain ⟨o, vs, c, rfl, ho, hvs, hc⟩ := hRest.enclosed
  obtain ⟨items, trees, hClosed, hSeparated, hAll⟩ := recovers_closed h hvs
  have hSome : pathWords className ≠ [] := by simp [pathWords]
  have hDotted : Dotted us := dotted_of_spelled hPath hSome hus
  have hNew : t.1.kind = .keyword .new := ht.kind_eq (by decide)
  have hLeads := leads_new hNew hDotted (ho.kind_eq (by decide)) (hc.kind_eq (by decide)) hClosed
  have hFree : SignFree (t :: (us ++ o :: (vs ++ [c]))) := ⟨t, _, rfl, by rw [hNew]; decide⟩
  have hStarts : Starts tight Strength.primary (t :: (us ++ o :: (vs ++ [c]))) := by
    refine ⟨⟨t, _, rfl, by rw [hNew]; decide⟩, fun _ _ hAssign => ?_, fun _ _ => hFree.notHeaded,
      fun _ => hFree⟩
    obtain ⟨u, ws, rfl, hWord, -⟩ := hDotted.tail (show kindAt [] 0 ≠ .symbol .dot by simp)
    rw [show u.1.kind = .symbol .assign from hAssign] at hWord
    cases hWord
  have hName : String.join ((us.map (·.1)).map (·.lexeme)) = className := by
    rw [List.map_map, show us.map ((·.lexeme) ∘ (·.1)) = _ from hus.lexemes_eq, join_pathWords]
  have hTokens : us.map (fun u => Tree.token u.1) = (us.map (·.1)).map .token := by
    rw [List.map_map]
    rfl
  rw [hTokens] at hLeads
  have hStrong : Strength.suffixed ≤ Strength.primary := by decide
  exact ⟨_, .of_applied hLeads hStarts hStrong, restates_new hName hSeparated hAll⟩

end

/-! ## All plain expressions -/

/-- No function is plain. -/
theorem isArrow_of_isPlain {e : Expression} (h : e.isPlain = true) : e.isArrow = false := by
  cases e <;> first | rfl | cases h

mutual

/-- Tokens that are spelled like a plain expression are read as a tree that restates it. -/
theorem Expression.recovers : (e : Expression) → e.isPlain = true → e.Recovers
  | .identifier id _, h => fun tight ts hts => by
    obtain ⟨t, rfl, ht⟩ := hts.single
    have hKind : t.1.kind = .identifier := ht.kind_eq (beq_iff_eq.1 h)
    exact ⟨_, holds_leaf (by simp [hKind, Tree.operandKinds]), restates_identifier hKind ht.2⟩
  | .string text quote _, h => fun tight ts hts => by
    obtain ⟨t, rfl, ht⟩ := hts.single
    have hKind : t.1.kind = .string := ht.kind_eq (kindOf?_stringLexeme h)
    exact ⟨_, holds_leaf (by simp [hKind, Tree.operandKinds]), restates_string hKind ht.2⟩
  | .number text _, h => fun tight ts hts => by
    obtain ⟨t, rfl, ht⟩ := hts.single
    have hKind : t.1.kind = .integer ∨ t.1.kind = .float := by
      rw [Expression.isPlain, Bool.or_eq_true, beq_iff_eq, beq_iff_eq] at h
      exact h.imp ht.kind_eq ht.kind_eq
    have hOperand : t.1.kind ∈ Tree.operandKinds := by
      rcases hKind with hKind | hKind <;> simp [hKind, Tree.operandKinds]
    exact ⟨_, holds_leaf hOperand, restates_number hKind ht.2⟩
  | .boolean value _, _ => fun tight ts hts => by
    obtain ⟨t, rfl, ht⟩ := hts.single
    have hKind : t.1.kind = if value then .keyword .true_ else .keyword .false_ := by
      cases value with
      | true => exact ht.kind_eq (by decide)
      | false => exact ht.kind_eq (by decide)
    have hOperand : t.1.kind ∈ Tree.operandKinds := by
      rw [hKind]
      cases value <;> decide
    exact ⟨_, holds_leaf hOperand, restates_boolean hKind⟩
  | .null _, _ => fun tight ts hts => by
    obtain ⟨t, rfl, ht⟩ := hts.single
    have hKind : t.1.kind = .keyword .null := ht.kind_eq (by decide)
    exact ⟨_, holds_leaf (by simp [hKind, Tree.operandKinds]), restates_null hKind⟩
  | .binary op left right _, h => by
    simp only [Expression.isPlain, Bool.and_eq_true, Bool.not_eq_true', Bool.and_eq_false_imp] at h
    have hArrow : right.isArrow = false := isArrow_of_isPlain h.1.2
    refine recovers_binary (left.recovers h.1.1) (right.recovers h.1.2) hArrow fun hIs us hus => ?_
    have hStart := h.2 (beq_iff_eq.2 hIs)
    rw [startsWithNot, beq_eq_false_iff_ne] at hStart
    exact ((expression_heads _ right h.1.2).atLeast _).notHeaded hus hStart
  | .unary .notWord operand _, h => recovers_notWord (operand.recovers h)
  | .unary .neg operand _, h =>
    recovers_sign .minus (operand.recovers h) (fun _ => rfl) (fun _ => rfl) (by decide) rfl (by decide)
  | .unary .plus operand _, h =>
    recovers_sign .plus (operand.recovers h) (fun _ => rfl) (fun _ => rfl) (by decide) rfl (by decide)
  | .unary .not operand _, h =>
    recovers_sign .bang (operand.recovers h) (fun _ => rfl) (fun _ => rfl) (by decide) rfl (by decide)
  | .unary .increment operand _, h =>
    recovers_sign .plusPlus (operand.recovers h) (fun _ => rfl) (fun _ => rfl) (by decide) rfl (by decide)
  | .unary .decrement operand _, h =>
    recovers_sign .minusMinus (operand.recovers h) (fun _ => rfl) (fun _ => rfl) (by decide) rfl (by decide)
  | .postfixOp _ operand _, h => recovers_postfixed (operand.recovers h)
  | .assignment _ target value _, h => by
    simp only [Expression.isPlain, Bool.and_eq_true] at h
    exact recovers_assignment (target.recovers h.1) (value.recovers h.2)
  | .ternary condition thenValue elseValue _, h => by
    simp only [Expression.isPlain, Bool.and_eq_true] at h
    exact recovers_ternary (condition.recovers h.1.1) (thenValue.recovers h.1.2)
      (elseValue.recovers h.2)
  | .elvis value default _, h => by
    simp only [Expression.isPlain, Bool.and_eq_true] at h
    exact recovers_elvis (value.recovers h.1) (default.recovers h.2)
  | .paren inner _, h => recovers_paren (inner.recovers h)
  | .call callee args _, h => by
    simp only [Expression.isPlain, Bool.and_eq_true] at h
    exact recovers_call (callee.recovers h.1) (arguments_recover args h.2)
  | .member object _ _ _, h => by
    simp only [Expression.isPlain, Bool.and_eq_true] at h
    exact recovers_member (object.recovers h.1) h.2
  | .index object place _, h => by
    simp only [Expression.isPlain, Bool.and_eq_true] at h
    exact recovers_index (object.recovers h.1) (place.recovers h.2)
  | .array items _, h => recovers_array (expressions_recover items h)
  | .struct entries _, h => recovers_struct (entries_recover entries h)
  | .new _ args _, h => by
    simp only [Expression.isPlain, Bool.and_eq_true] at h
    exact recovers_new h.1 (arguments_recover args h.2)

/-- Tokens that are spelled like plain expressions are read as elements. -/
theorem expressions_recover : (es : List Expression) → plainExpressions es = true →
    List.Forall₂ (RecoversItem .elements .rBracket Tree.Restates) (itemLexemes es) es
  | [], _ => .nil
  | e :: es, h => by
    simp only [plainExpressions, Bool.and_eq_true] at h
    exact .cons (recovers_element (e.recovers h.1)) (expressions_recover es h.2)

/-- Tokens that are spelled like plain arguments are read as arguments. -/
theorem arguments_recover : (args : List (Argument Expression)) → plainArguments args = true →
    List.Forall₂ (RecoversItem .arguments .rParen Tree.RestatesArgument) (argumentLexemes args) args
  | [], _ => .nil
  | ⟨some name, value⟩ :: args, h => by
    simp only [plainArguments, Option.all_some, Bool.and_eq_true] at h
    exact .cons (recovers_named h.1.1 (value.recovers h.1.2)) (arguments_recover args h.2)
  | ⟨none, value⟩ :: args, h => by
    simp only [plainArguments, Option.all_none, Bool.true_and, Bool.and_eq_true] at h
    exact .cons (recovers_unnamed (value.recovers h.1)) (arguments_recover args h.2)

/-- Tokens that are spelled like plain entries of a struct are read as entries. -/
theorem entries_recover : (entries : List (StructEntry Expression)) → plainEntries entries = true →
    List.Forall₂ (RecoversItem .structEntries .rBrace Tree.RestatesEntry) (entryLexemes entries)
      entries
  | [], _ => .nil
  | ⟨_, _, value⟩ :: entries, h => by
    simp only [plainEntries, Bool.and_eq_true] at h
    exact .cons (recovers_entry h.1.1 (value.recovers h.1.2)) (entries_recover entries h.2)

end

end CfScript
