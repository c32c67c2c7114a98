import CfScript.Proofs.ControlText
import CfScript.Proofs.Parens

/-!
# Branches without braces

Where a `then` branch ends with an open `if` and an `else` comes behind it, it is printed in braces, so
it is read back as a block of one statement. Such a block says what the statement in it says. Without
these blocks, without parentheses and without places two statements say the same if they are equal.

## Main results

* `Statement.unwrapped`: a statement with no `then` branch that is a block of one statement;
* `Statement.Restates`: statements that say the same;
* `RestatesThen.braced`: braces around an open `then` branch make no difference;
* `Statement.same_bare`: control flow that restates something is the same as it.
-/

namespace CfScript

open Layout

/-! ## Taking braces away -/

/-- The only statement of a block, or the statement itself. -/
def Statement.sole : Statement → Statement
  | .block [s] _ => s
  | s => s

mutual

/-- The statement with every `then` branch that is a block of one statement replaced by that statement.
Functions inside expressions are left alone. -/
def Statement.unwrapped : Statement → Statement
  | .script body span => .script (unwrappedEach body) span
  | .block body span => .block (unwrappedEach body) span
  | .branch condition thenBranch elseBranch? span =>
    .branch condition thenBranch.unwrapped.sole (unwrapped? elseBranch?) span
  | .whileLoop condition body span => .whileLoop condition body.unwrapped span
  | .doLoop body condition span => .doLoop body.unwrapped condition span
  | .forLoop init? condition? update? body span =>
    .forLoop init? condition? update? body.unwrapped span
  | .eachLoop var target collection body span =>
    .eachLoop var target collection body.unwrapped span
  | .select subject cases default? span =>
    .select subject (unwrappedCases cases) (unwrappedBody? default?) span
  | .tryCatch body catches finally? span =>
    .tryCatch (unwrappedEach body) (unwrappedCatches catches) (unwrappedBody? finally?) span
  | .function modifiers returnType? name params attributes body? span =>
    .function modifiers returnType? name params attributes (unwrappedBody? body?) span
  | .component kind attributes body span => .component kind attributes (unwrappedEach body) span
  | .tag kind attributes body? span => .tag kind attributes (unwrappedBody? body?) span
  | s => s

/-- The statements without braces around `then` branches. -/
def unwrappedEach : List Statement → List Statement
  | [] => []
  | s :: ss => s.unwrapped :: unwrappedEach ss

/-- The statement without braces around `then` branches, if there is one. -/
def unwrapped? : Option Statement → Option Statement
  | none => none
  | some s => some s.unwrapped

/-- The statements of a body without braces around `then` branches, if there is one. -/
def unwrappedBody? : Option (List Statement) → Option (List Statement)
  | none => none
  | some body => some (unwrappedEach body)

/-- The cases of a `switch` without braces around `then` branches. -/
def unwrappedCases :
    List (SwitchCase Expression Statement) → List (SwitchCase Expression Statement)
  | [] => []
  | ⟨value, body⟩ :: cases => ⟨value, unwrappedEach body⟩ :: unwrappedCases cases

/-- The `catch` clauses without braces around `then` branches. -/
def unwrappedCatches : List (CatchClause Statement) → List (CatchClause Statement)
  | [] => []
  | ⟨type?, name, body⟩ :: catches => ⟨type?, name, unwrappedEach body⟩ :: unwrappedCatches catches

end

namespace Statement

variable {s t a b : Statement} {as bs : List Statement} {c d : Expression} {span span' : Span}

theorem sole_bare (s : Statement) : s.sole.bare = s.bare.sole := by
  cases s with
  | block body span =>
    match body with
    | [] => rfl
    | [_] => rfl
    | _ :: _ :: _ => rfl
  | _ => rfl

theorem sole_unplaced (s : Statement) : s.sole.unplaced = s.unplaced.sole := by
  cases s with
  | block body span =>
    match body with
    | [] => rfl
    | [_] => rfl
    | _ :: _ :: _ => rfl
  | _ => rfl

/-- Only a statement that is no block can take an `else` behind it. -/
theorem sole_unwrapped_of_open (h : endsWithOpenIf s = true) : s.unwrapped.sole = s.unwrapped := by
  cases s <;> first | rfl | cases h

/-! ## Statements that restate each other -/

/-- Whether the statements are equal without braces around `then` branches, parentheses and places. -/
def Restates (a b : Statement) : Prop := a.unwrapped.bare.unplaced = b.unwrapped.bare.unplaced

/-- Whether the statements restate each other as `then` branches, in braces or not. -/
def RestatesThen (a b : Statement) : Prop :=
  a.unwrapped.sole.bare.unplaced = b.unwrapped.sole.bare.unplaced

theorem Restates.restatesThen (h : a.Restates b) : a.RestatesThen b := by
  rw [RestatesThen, sole_bare, sole_bare, sole_unplaced, sole_unplaced, show _ = _ from h]

theorem RestatesThen.braced (h : a.Restates b) (hOpen : endsWithOpenIf b = true) (span : Span) :
    (block [a] span).RestatesThen b := by
  rw [RestatesThen, sole_unwrapped_of_open hOpen]
  exact h

theorem restates_block (h : List.Forall₂ Restates as bs) :
    (block as span).Restates (block bs span') := by
  have hEach : unplacedStatements (bareStatements (unwrappedEach as)) =
      unplacedStatements (bareStatements (unwrappedEach bs)) := by
    induction h with
    | nil => rfl
    | cons hHead _ ih =>
      simp only [unwrappedEach, bareStatements, unplacedStatements, ih, show _ = _ from hHead]
  simp only [Restates, unwrapped, bare, unplaced, hEach]

theorem restates_branch (hCondition : c.Restates d) (hThen : s.RestatesThen t) :
    (branch c s none span).Restates (branch d t none span') := by
  simp only [Restates, unwrapped, unwrapped?, bare, bareStatement?, unplaced, unplacedStatement?,
    show _ = _ from hCondition, show _ = _ from hThen]

theorem restates_branch_else (hCondition : c.Restates d) (hThen : s.RestatesThen t)
    (hElse : a.Restates b) :
    (branch c s (some a) span).Restates (branch d t (some b) span') := by
  simp only [Restates, unwrapped, unwrapped?, bare, bareStatement?, unplaced, unplacedStatement?,
    show _ = _ from hCondition, show _ = _ from hThen, show _ = _ from hElse]

theorem restates_whileLoop (hCondition : c.Restates d) (hBody : a.Restates b) :
    (whileLoop c a span).Restates (whileLoop d b span') := by
  simp only [Restates, unwrapped, bare, unplaced, show _ = _ from hCondition, show _ = _ from hBody]

theorem restates_doLoop (hBody : a.Restates b) (hCondition : c.Restates d) :
    (doLoop a c span).Restates (doLoop b d span') := by
  simp only [Restates, unwrapped, bare, unplaced, show _ = _ from hCondition, show _ = _ from hBody]

theorem restates_forLoop {init? start? : Option Statement} {c? d? u? v? : Option Expression}
    (hStart : unplacedStatement? (bareStatement? init?) = unplacedStatement? (bareStatement? start?))
    (hTest : unplacedExpression? (bareExpression? c?) = unplacedExpression? (bareExpression? d?))
    (hUpdate : unplacedExpression? (bareExpression? u?) = unplacedExpression? (bareExpression? v?))
    (hBody : a.Restates b) :
    (forLoop init? c? u? a span).Restates (forLoop start? d? v? b span') := by
  simp only [Restates, unwrapped, bare, unplaced, hStart, hTest, hUpdate, show _ = _ from hBody]

theorem restates_eachLoop {e f : Expression} (var : Bool) (hTarget : e.Restates f)
    (hCollection : c.Restates d) (hBody : a.Restates b) :
    (eachLoop var e c a span).Restates (eachLoop var f d b span') := by
  simp only [Restates, unwrapped, bare, unplaced, show _ = _ from hTarget,
    show _ = _ from hCollection, show _ = _ from hBody]

/-! ## Control flow without braces -/

theorem isControl_sole (h : s.isControl = true) : s.sole.isControl = true := by
  cases s with
  | block body span =>
    match body with
    | [] => rfl
    | [t] =>
      simp only [isControl, controlStatements, Bool.and_eq_true] at h
      exact h.1
    | _ :: _ :: _ => exact h
  | _ => exact h

end Statement

open Statement

mutual

/-- Without braces around `then` branches control flow is control flow. -/
theorem Statement.isControl_unwrapped : (s : Statement) → s.isControl = true →
    s.unwrapped.isControl = true
  | .block body _, h => controlStatements_unwrapped body h
  | .branch condition thenBranch none _, h => by
    simp only [isControl, Bool.and_eq_true] at h
    simp only [unwrapped, unwrapped?, isControl, Bool.and_eq_true]
    exact ⟨h.1, isControl_sole (thenBranch.isControl_unwrapped h.2)⟩
  | .branch condition thenBranch (some elseBranch) _, h => by
    simp only [isControl, Bool.and_eq_true] at h
    simp only [unwrapped, unwrapped?, isControl, Bool.and_eq_true]
    exact ⟨⟨h.1.1, isControl_sole (thenBranch.isControl_unwrapped h.1.2)⟩,
      elseBranch.isControl_unwrapped h.2⟩
  | .whileLoop condition body _, h => by
    simp only [isControl, Bool.and_eq_true] at h
    simp only [unwrapped, isControl, Bool.and_eq_true]
    exact ⟨h.1, body.isControl_unwrapped h.2⟩
  | .doLoop body condition _, h => by
    simp only [isControl, Bool.and_eq_true] at h
    simp only [unwrapped, isControl, Bool.and_eq_true]
    exact ⟨body.isControl_unwrapped h.1, h.2⟩
  | .forLoop init? condition? update? body _, h => by
    simp only [isControl, Bool.and_eq_true] at h
    simp only [unwrapped, isControl, Bool.and_eq_true]
    exact ⟨h.1, body.isControl_unwrapped h.2⟩
  | .eachLoop _ (.identifier _ _) collection body _, h => by
    simp only [isControl, Bool.and_eq_true] at h
    simp only [unwrapped, isControl, Bool.and_eq_true]
    exact ⟨h.1, body.isControl_unwrapped h.2⟩
  | .breakLoop _, _ => rfl
  | .continueLoop _, _ => rfl
  | .returnValue none _, _ => rfl

theorem controlStatements_unwrapped : (ss : List Statement) → controlStatements ss = true →
    controlStatements (unwrappedEach ss) = true
  | [], _ => rfl
  | s :: ss, h => by
    simp only [controlStatements, Bool.and_eq_true] at h
    simp only [unwrappedEach, controlStatements, Bool.and_eq_true]
    exact ⟨s.isControl_unwrapped h.1, controlStatements_unwrapped ss h.2⟩

end

/-! ## Control flow that is the same -/

theorem sameExpression?_bare {e? f? : Option Expression} (h : e?.all (·.isPlain) = true)
    (hf : unplacedExpression? f? = unplacedExpression? (bareExpression? e?)) :
    sameExpression? f? (bareExpression? e?) = true := by
  cases e? with
  | none =>
    cases f? with
    | none => rfl
    | some f => cases hf
  | some e =>
    cases f? with
    | none => cases hf
    | some f => exact e.same_bare h f (Option.some.inj hf)

/-- What a loop starts with. -/
theorem sameStatement?_bare {s? f? : Option Statement} (h : s?.all (·.isPlainDeclaration) = true)
    (hf : unplacedStatement? f? = unplacedStatement? (bareStatement? s?)) :
    sameStatement? f? (bareStatement? s?) = true := by
  match s?, f?, h with
  | none, none, _ => rfl
  | none, some f, _ => cases hf
  | some s, none, _ => cases hf
  | some (.declare name value? span), some f, h =>
    simp only [Option.all_some, Statement.isPlainDeclaration, Bool.and_eq_true] at h
    have hSome : f.unplaced = (Statement.declare name value? span).bare.unplaced := Option.some.inj hf
    cases f with
    | declare name' value' =>
      simp only [Statement.bare, Statement.unplaced, Statement.declare.injEq] at hSome
      simp only [bareStatement?, Statement.bare, sameStatement?, Statement.same, Bool.and_eq_true]
      exact ⟨Identifier.beq_of_unplaced hSome.1, sameExpression?_bare h.2 hSome.2.1⟩
    | _ => cases hSome

mutual

/-- What is equal up to places to control flow without parentheses is the same. -/
theorem Statement.same_bare : (s : Statement) → s.isControl = true → ∀ f : Statement,
    f.unplaced = s.bare.unplaced → f.same s.bare = true
  | .block body _, h, f, hf => by
    cases f with
    | block =>
      simp only [bare, unplaced, block.injEq] at hf
      exact sameStatements_bare body h _ hf.1
    | _ => cases hf
  | .branch condition thenBranch none _, h, f, hf => by
    simp only [isControl, Bool.and_eq_true] at h
    cases f with
    | branch condition' thenBranch' elseBranch?' =>
      simp only [bare, bareStatement?, unplaced, branch.injEq] at hf
      simp only [bare, bareStatement?, same, Bool.and_eq_true]
      refine ⟨⟨condition.same_bare h.1 _ hf.1, thenBranch.same_bare h.2 _ hf.2.1⟩, ?_⟩
      cases elseBranch?' with
      | none => rfl
      | some s => cases hf.2.2.1
    | _ => cases hf
  | .branch condition thenBranch (some elseBranch) _, h, f, hf => by
    simp only [isControl, Bool.and_eq_true] at h
    cases f with
    | branch condition' thenBranch' elseBranch?' =>
      simp only [bare, bareStatement?, unplaced, branch.injEq] at hf
      simp only [bare, bareStatement?, same, Bool.and_eq_true]
      refine ⟨⟨condition.same_bare h.1.1 _ hf.1, thenBranch.same_bare h.1.2 _ hf.2.1⟩, ?_⟩
      cases elseBranch?' with
      | none => cases hf.2.2.1
      | some s => exact elseBranch.same_bare h.2 s (Option.some.inj hf.2.2.1)
    | _ => cases hf
  | .whileLoop condition body _, h, f, hf => by
    simp only [isControl, Bool.and_eq_true] at h
    cases f with
    | whileLoop =>
      simp only [bare, unplaced, whileLoop.injEq] at hf
      simp only [bare, same, Bool.and_eq_true]
      exact ⟨condition.same_bare h.1 _ hf.1, body.same_bare h.2 _ hf.2.1⟩
    | _ => cases hf
  | .doLoop body condition _, h, f, hf => by
    simp only [isControl, Bool.and_eq_true] at h
    cases f with
    | doLoop =>
      simp only [bare, unplaced, doLoop.injEq] at hf
      simp only [bare, same, Bool.and_eq_true]
      exact ⟨body.same_bare h.1 _ hf.1, condition.same_bare h.2 _ hf.2.1⟩
    | _ => cases hf
  | .forLoop init? condition? update? body _, h, f, hf => by
    simp only [isControl, Bool.and_eq_true] at h
    cases f with
    | forLoop =>
      simp only [bare, unplaced, forLoop.injEq] at hf
      simp only [bare, same, Bool.and_eq_true]
      exact ⟨⟨⟨sameStatement?_bare h.1.1.1 hf.1, sameExpression?_bare h.1.1.2 hf.2.1⟩,
        sameExpression?_bare h.1.2 hf.2.2.1⟩, body.same_bare h.2 _ hf.2.2.2.1⟩
    | _ => cases hf
  | .eachLoop var (.identifier id span) collection body _, h, f, hf => by
    simp only [isControl, Bool.and_eq_true] at h
    cases f with
    | eachLoop =>
      simp only [bare, unplaced, eachLoop.injEq] at hf
      simp only [bare, same, Bool.and_eq_true, beq_iff_eq]
      have hTarget := (Expression.identifier id span).same_bare h.1.1 _ hf.2.1
      exact ⟨⟨⟨hf.1, hTarget⟩, collection.same_bare h.1.2 _ hf.2.2.1⟩, body.same_bare h.2 _ hf.2.2.2.1⟩
    | _ => cases hf
  | .breakLoop _, _, f, hf => by
    cases f with
    | breakLoop => rfl
    | _ => cases hf
  | .continueLoop _, _, f, hf => by
    cases f with
    | continueLoop => rfl
    | _ => cases hf
  | .returnValue none _, _, f, hf => by
    cases f with
    | returnValue value? =>
      simp only [bare, bareExpression?, unplaced, returnValue.injEq] at hf
      have hValue : sameExpression? value? (bareExpression? none) = true :=
        sameExpression?_bare rfl hf.1
      exact hValue
    | _ => cases hf

/-- What is equal up to places to statements of control flow without parentheses is the same. -/
theorem sameStatements_bare : (ss : List Statement) → controlStatements ss = true →
    ∀ fs : List Statement, unplacedStatements fs = unplacedStatements (bareStatements ss) →
      sameStatements fs (bareStatements ss) = true
  | [], _, [], _ => rfl
  | s :: ss, h, f :: fs, hf => by
    simp only [controlStatements, Bool.and_eq_true] at h
    simp only [bareStatements, unplacedStatements, List.cons.injEq] at hf
    simp only [bareStatements, sameStatements, Bool.and_eq_true]
    exact ⟨s.same_bare h.1 f hf.1, sameStatements_bare ss h.2 fs hf.2⟩

end

/-- Control flow that restates other control flow is the same but for braces around `then` branches and
parentheses. -/
theorem Statement.Restates.same {s t : Statement} (h : t.Restates s) (hControl : s.isControl = true) :
    (t.unwrapped.bare == s.unwrapped.bare) = true :=
  s.unwrapped.same_bare (s.isControl_unwrapped hControl) t.unwrapped.bare h

end CfScript
