import CfScript.Ast.Equality
import CfScript.Proofs.Places
import CfScript.Proofs.PlainText

/-!
# Programs without parentheses

Parentheses are kept in a program tree because they were written on purpose, and they mean nothing
there: the tree tells by itself what belongs together. So two expressions say the same if they are
equal apart from the parentheses in them, and apart from places.

## Main results

* `Expression.bare`: an expression without the parentheses in it;
* `Expression.same_bare`: plain expressions that restate each other are the same without parentheses.
-/

namespace CfScript

/-! ## Taking parentheses away -/

mutual

/-- The expression without parentheses. -/
def Expression.bare : Expression → Expression
  | .identifier id span => .identifier id span
  | .string text quote span => .string text quote span
  | .number text span => .number text span
  | .boolean value span => .boolean value span
  | .null span => .null span
  | .binary op left right span => .binary op left.bare right.bare span
  | .unary op operand span => .unary op operand.bare span
  | .postfixOp op operand span => .postfixOp op operand.bare span
  | .assignment op target value span => .assignment op target.bare value.bare span
  | .ternary condition thenValue elseValue span =>
    .ternary condition.bare thenValue.bare elseValue.bare span
  | .elvis value default span => .elvis value.bare default.bare span
  | .paren inner _ => inner.bare
  | .call callee args span => .call callee.bare (bareArguments args) span
  | .member object property safe span => .member object.bare property safe span
  | .index object index span => .index object.bare index.bare span
  | .array items span => .array (bareExpressions items) span
  | .struct entries span => .struct (bareEntries entries) span
  | .new className args span => .new className (bareArguments args) span
  | .function arrow params body span =>
    .function arrow (bareParameters params) (bareStatements body) span
  | .lambda arrow params value span => .lambda arrow (bareParameters params) value.bare span

/-- The expressions without parentheses. -/
def bareExpressions : List Expression → List Expression
  | [] => []
  | e :: es => e.bare :: bareExpressions es

/-- The expression without parentheses, if there is one. -/
def bareExpression? : Option Expression → Option Expression
  | none => none
  | some e => some e.bare

/-- The arguments without parentheses. -/
def bareArguments : List (Argument Expression) → List (Argument Expression)
  | [] => []
  | ⟨name?, value⟩ :: args => ⟨name?, value.bare⟩ :: bareArguments args

/-- The struct entries without parentheses. -/
def bareEntries : List (StructEntry Expression) → List (StructEntry Expression)
  | [] => []
  | ⟨key, separator, value⟩ :: entries => ⟨key.bare, separator, value.bare⟩ :: bareEntries entries

/-- The attributes without parentheses. -/
def bareEach : List (Attribute Expression) → List (Attribute Expression)
  | [] => []
  | ⟨name, value⟩ :: rest => ⟨name, value.bare⟩ :: bareEach rest

/-- The map of attributes without parentheses. -/
def bareAttributes : AttributeMap Expression → AttributeMap Expression
  | ⟨entries⟩ => ⟨bareEach entries⟩

/-- The parameters without parentheses. -/
def bareParameters : List (Parameter Expression) → List (Parameter Expression)
  | [] => []
  | ⟨required, type?, name, default?, attributes⟩ :: params =>
    ⟨required, type?, name, bareExpression? default?, bareAttributes attributes⟩ ::
      bareParameters params

/-- The property without parentheses. -/
def bareProperty : Property Expression → Property Expression
  | ⟨form, attributes⟩ => ⟨form, bareAttributes attributes⟩

/-- The statement without parentheses. -/
def Statement.bare : Statement → Statement
  | .script body span => .script (bareStatements body) span
  | .block body span => .block (bareStatements body) span
  | .expression value span => .expression value.bare span
  | .declare name value? span => .declare name (bareExpression? value?) span
  | .branch condition thenBranch elseBranch? span =>
    .branch condition.bare thenBranch.bare (bareStatement? elseBranch?) span
  | .whileLoop condition body span => .whileLoop condition.bare body.bare span
  | .doLoop body condition span => .doLoop body.bare condition.bare span
  | .forLoop init? condition? update? body span =>
    .forLoop (bareStatement? init?) (bareExpression? condition?) (bareExpression? update?) body.bare
      span
  | .eachLoop var target collection body span =>
    .eachLoop var target.bare collection.bare body.bare span
  | .select subject cases default? span =>
    .select subject.bare (bareCases cases) (bareBody? default?) span
  | .breakLoop span => .breakLoop span
  | .continueLoop span => .continueLoop span
  | .returnValue value? span => .returnValue (bareExpression? value?) span
  | .throwValue value? span => .throwValue (bareExpression? value?) span
  | .abort value? span => .abort (bareExpression? value?) span
  | .includeFile value span => .includeFile value.bare span
  | .importPath path span => .importPath path span
  | .tryCatch body catches finally? span =>
    .tryCatch (bareStatements body) (bareCatches catches) (bareBody? finally?) span
  | .function modifiers returnType? name params attributes body? span =>
    .function modifiers returnType? name (bareParameters params) (bareAttributes attributes)
      (bareBody? body?) span
  | .component kind attributes body span =>
    .component kind (bareAttributes attributes) (bareStatements body) span
  | .property declaration span => .property (bareProperty declaration) span
  | .tag kind attributes body? span =>
    .tag kind (bareAttributes attributes) (bareBody? body?) span

/-- The statements without parentheses. -/
def bareStatements : List Statement → List Statement
  | [] => []
  | s :: ss => s.bare :: bareStatements ss

/-- The statement without parentheses, if there is one. -/
def bareStatement? : Option Statement → Option Statement
  | none => none
  | some s => some s.bare

/-- The statements of a body without parentheses, if there is one. -/
def bareBody? : Option (List Statement) → Option (List Statement)
  | none => none
  | some body => some (bareStatements body)

/-- The cases of a `switch` without parentheses. -/
def bareCases : List (SwitchCase Expression Statement) → List (SwitchCase Expression Statement)
  | [] => []
  | ⟨value, body⟩ :: cases => ⟨value.bare, bareStatements body⟩ :: bareCases cases

/-- The `catch` clauses without parentheses. -/
def bareCatches : List (CatchClause Statement) → List (CatchClause Statement)
  | [] => []
  | ⟨type?, name, body⟩ :: catches => ⟨type?, name, bareStatements body⟩ :: bareCatches catches

end

/-! ## Expressions that restate each other -/

/-- Whether the expressions are equal without parentheses and places. -/
def Expression.Restates (e f : Expression) : Prop := e.bare.unplaced = f.bare.unplaced

/-- Whether the arguments have one name and their values restate each other. -/
structure Argument.Restates (a b : Argument Expression) : Prop where
  name : a.name?.map (·.unplaced) = b.name?.map (·.unplaced)
  value : a.value.Restates b.value

/-- Whether the entries are equal up to places but for parentheses in their values. -/
structure StructEntry.Restates (a b : StructEntry Expression) : Prop where
  key : a.key.Restates b.key
  separator : a.separator = b.separator
  value : a.value.Restates b.value

theorem unplaced_bareExpressions {es fs : List Expression}
    (h : List.Forall₂ Expression.Restates es fs) :
    unplacedExpressions (bareExpressions es) = unplacedExpressions (bareExpressions fs) := by
  induction h with
  | nil => rfl
  | cons hHead _ ih =>
    rw [bareExpressions, bareExpressions, unplacedExpressions, unplacedExpressions, hHead, ih]

theorem unplaced_bareArguments {as bs : List (Argument Expression)}
    (h : List.Forall₂ Argument.Restates as bs) :
    unplacedArguments (bareArguments as) = unplacedArguments (bareArguments bs) := by
  induction h with
  | nil => rfl
  | cons hHead _ ih =>
    rw [bareArguments, bareArguments, unplacedArguments, unplacedArguments, hHead.name, hHead.value,
      ih]

theorem unplaced_bareEntries {as bs : List (StructEntry Expression)}
    (h : List.Forall₂ StructEntry.Restates as bs) :
    unplacedEntries (bareEntries as) = unplacedEntries (bareEntries bs) := by
  induction h with
  | nil => rfl
  | cons hHead _ ih =>
    rw [bareEntries, bareEntries, unplacedEntries, unplacedEntries, hHead.key, hHead.separator,
      hHead.value, ih]

theorem Identifier.beq_of_unplaced {a b : Identifier} (h : a.unplaced = b.unplaced) :
    (a == b) = true := by
  have hName : a.name = b.name := (Identifier.mk.inj h).1
  simpa [BEq.beq] using hName

theorem sameName?_of_unplaced {a? b? : Option Identifier}
    (h : a?.map (·.unplaced) = b?.map (·.unplaced)) : sameName? a? b? = true := by
  cases a? <;> cases b? <;> simp_all [sameName?, Identifier.beq_of_unplaced]

open Expression

/-- What is equal up to places to the key of an entry is the same. -/
theorem Expression.same_bareKey {key f : Expression} (h : key.isPlainKey = true)
    (hf : f.unplaced = key.bare.unplaced) : f.same key.bare = true := by
  cases key with
  | identifier =>
    cases f with
    | identifier =>
      simp only [bare, unplaced, identifier.injEq] at hf
      exact Identifier.beq_of_unplaced hf.1
    | _ => cases hf
  | string =>
    cases f with
    | string => simp_all [bare, unplaced, same]
    | _ => cases hf
  | number =>
    cases f with
    | number => simp_all [bare, unplaced, same]
    | _ => cases hf
  | _ => cases h

mutual

/-- What is equal up to places to a plain expression without parentheses is the same. -/
theorem Expression.same_bare : (e : Expression) → e.isPlain = true → ∀ f : Expression,
    f.unplaced = e.bare.unplaced → f.same e.bare = true
  | .identifier _ _, _, f, hf => by
    cases f with
    | identifier =>
      simp only [bare, unplaced, identifier.injEq] at hf
      exact Identifier.beq_of_unplaced hf.1
    | _ => cases hf
  | .string _ _ _, _, f, hf => by
    cases f with
    | string => simp_all [bare, unplaced, same]
    | _ => cases hf
  | .number _ _, _, f, hf => by
    cases f with
    | number => simp_all [bare, unplaced, same]
    | _ => cases hf
  | .boolean _ _, _, f, hf => by
    cases f with
    | boolean => simp_all [bare, unplaced, same]
    | _ => cases hf
  | .null _, _, f, hf => by
    cases f with
    | null => rfl
    | _ => cases hf
  | .binary _ left right _, h, f, hf => by
    simp only [isPlain, Bool.and_eq_true] at h
    cases f with
    | binary =>
      simp only [bare, unplaced, binary.injEq] at hf
      simp only [bare, same, Bool.and_eq_true, beq_iff_eq]
      exact ⟨⟨hf.1, left.same_bare h.1.1 _ hf.2.1⟩, right.same_bare h.1.2 _ hf.2.2.1⟩
    | _ => cases hf
  | .unary _ operand _, h, f, hf => by
    cases f with
    | unary =>
      simp only [bare, unplaced, unary.injEq] at hf
      simp only [bare, same, Bool.and_eq_true, beq_iff_eq]
      exact ⟨hf.1, operand.same_bare h _ hf.2.1⟩
    | _ => cases hf
  | .postfixOp _ operand _, h, f, hf => by
    cases f with
    | postfixOp =>
      simp only [bare, unplaced, postfixOp.injEq] at hf
      simp only [bare, same, Bool.and_eq_true, beq_iff_eq]
      exact ⟨hf.1, operand.same_bare h _ hf.2.1⟩
    | _ => cases hf
  | .assignment _ target value _, h, f, hf => by
    simp only [isPlain, Bool.and_eq_true] at h
    cases f with
    | assignment =>
      simp only [bare, unplaced, assignment.injEq] at hf
      simp only [bare, same, Bool.and_eq_true, beq_iff_eq]
      exact ⟨⟨hf.1, target.same_bare h.1 _ hf.2.1⟩, value.same_bare h.2 _ hf.2.2.1⟩
    | _ => cases hf
  | .ternary condition thenValue elseValue _, h, f, hf => by
    simp only [isPlain, Bool.and_eq_true] at h
    cases f with
    | ternary =>
      simp only [bare, unplaced, ternary.injEq] at hf
      simp only [bare, same, Bool.and_eq_true]
      exact ⟨⟨condition.same_bare h.1.1 _ hf.1, thenValue.same_bare h.1.2 _ hf.2.1⟩,
        elseValue.same_bare h.2 _ hf.2.2.1⟩
    | _ => cases hf
  | .elvis value default _, h, f, hf => by
    simp only [isPlain, Bool.and_eq_true] at h
    cases f with
    | elvis =>
      simp only [bare, unplaced, elvis.injEq] at hf
      simp only [bare, same, Bool.and_eq_true]
      exact ⟨value.same_bare h.1 _ hf.1, default.same_bare h.2 _ hf.2.1⟩
    | _ => cases hf
  | .paren inner _, h, f, hf => inner.same_bare h f hf
  | .call callee args _, h, f, hf => by
    simp only [isPlain, Bool.and_eq_true] at h
    cases f with
    | call =>
      simp only [bare, unplaced, call.injEq] at hf
      simp only [bare, same, Bool.and_eq_true]
      exact ⟨callee.same_bare h.1 _ hf.1, sameArguments_bare args h.2 _ hf.2.1⟩
    | _ => cases hf
  | .member object property _ _, h, f, hf => by
    simp only [isPlain, Bool.and_eq_true] at h
    cases f with
    | member =>
      simp only [bare, unplaced, member.injEq] at hf
      simp only [bare, same, Bool.and_eq_true, beq_iff_eq]
      exact ⟨⟨object.same_bare h.1 _ hf.1, Identifier.beq_of_unplaced hf.2.1⟩, hf.2.2.1⟩
    | _ => cases hf
  | .index object place _, h, f, hf => by
    simp only [isPlain, Bool.and_eq_true] at h
    cases f with
    | index =>
      simp only [bare, unplaced, index.injEq] at hf
      simp only [bare, same, Bool.and_eq_true]
      exact ⟨object.same_bare h.1 _ hf.1, place.same_bare h.2 _ hf.2.1⟩
    | _ => cases hf
  | .array items _, h, f, hf => by
    cases f with
    | array =>
      simp only [bare, unplaced, array.injEq] at hf
      exact sameExpressions_bare items h _ hf.1
    | _ => cases hf
  | .struct entries _, h, f, hf => by
    cases f with
    | struct =>
      simp only [bare, unplaced, struct.injEq] at hf
      exact sameEntries_bare entries h _ hf.1
    | _ => cases hf
  | .new _ args _, h, f, hf => by
    simp only [isPlain, Bool.and_eq_true] at h
    cases f with
    | new =>
      simp only [bare, unplaced, new.injEq] at hf
      simp only [bare, same, Bool.and_eq_true, beq_iff_eq]
      exact ⟨hf.1, sameArguments_bare args h.2 _ hf.2.1⟩
    | _ => cases hf

/-- What is equal up to places to plain expressions without parentheses is the same. -/
theorem sameExpressions_bare : (es : List Expression) → plainExpressions es = true →
    ∀ fs : List Expression, unplacedExpressions fs = unplacedExpressions (bareExpressions es) →
      sameExpressions fs (bareExpressions es) = true
  | [], _, [], _ => rfl
  | e :: es, h, f :: fs, hf => by
    simp only [plainExpressions, Bool.and_eq_true] at h
    simp only [bareExpressions, unplacedExpressions, List.cons.injEq] at hf
    simp only [bareExpressions, sameExpressions, Bool.and_eq_true]
    exact ⟨e.same_bare h.1 f hf.1, sameExpressions_bare es h.2 fs hf.2⟩

/-- What is equal up to places to plain arguments without parentheses is the same. -/
theorem sameArguments_bare : (args : List (Argument Expression)) → plainArguments args = true →
    ∀ others : List (Argument Expression),
      unplacedArguments others = unplacedArguments (bareArguments args) →
        sameArguments others (bareArguments args) = true
  | [], _, [], _ => rfl
  | ⟨_, value⟩ :: args, h, ⟨_, other⟩ :: others, hf => by
    simp only [plainArguments, Bool.and_eq_true] at h
    simp only [bareArguments, unplacedArguments, List.cons.injEq, Argument.mk.injEq] at hf
    simp only [bareArguments, sameArguments, Bool.and_eq_true]
    exact ⟨⟨sameName?_of_unplaced hf.1.1, value.same_bare h.1.2 other hf.1.2⟩,
      sameArguments_bare args h.2 others hf.2⟩

/-- What is equal up to places to plain struct entries without parentheses is the same. -/
theorem sameEntries_bare : (entries : List (StructEntry Expression)) →
    plainEntries entries = true → ∀ others : List (StructEntry Expression),
      unplacedEntries others = unplacedEntries (bareEntries entries) →
        sameEntries others (bareEntries entries) = true
  | [], _, [], _ => rfl
  | ⟨key, _, value⟩ :: entries, h, ⟨key', _, value'⟩ :: others, hf => by
    simp only [plainEntries, Bool.and_eq_true] at h
    simp only [bareEntries, unplacedEntries, List.cons.injEq, StructEntry.mk.injEq] at hf
    simp only [bareEntries, sameEntries, Bool.and_eq_true, beq_iff_eq]
    exact ⟨⟨⟨same_bareKey h.1.1 hf.1.1, hf.1.2.1⟩, value.same_bare h.1.2 value' hf.1.2.2⟩,
      sameEntries_bare entries h.2 others hf.2⟩

end

end CfScript
