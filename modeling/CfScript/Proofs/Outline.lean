import CfScript.Build.Script
import CfScript.Proofs.Form
import Mathlib.Data.List.Forall2

/-!
# The statements that stand in lists

Statements stand in the lists of scripts, blocks and clauses, in the parse tree as well as in the
program tree. An outline says of such a statement what it is, where it stands and which lists of
statements stand in it. What a tree *holds* are the lists of outlines in it, in order, wherever they
stand: in a block, in the branch of a statement, or in the body of a function in an expression.

Not all that a parse tree holds has a place in a program tree. A `switch` has one list for its default,
and a name has one value among the attributes of a list. What is `kept` of the parts of a node are
the first default clause, behind the cases, and for each attribute the value that was given last, at
the place of the first.

## Main results

* `Tree.held`, `Expression.held`, `Statement.held`: what parse trees and program trees hold;
* `Tree.kept`: what is kept of the parts of a node;
* `AttributeMap.agree_insert`: attributes of program trees and of parse trees are gathered alike.
-/

namespace CfScript

/-- A statement in a list: its rule, where it stands, and the lists of statements in it. -/
inductive Outline where
  | mk (rule : Rule) (span : Span) (lists : List (List Outline))

namespace Outline

mutual

/-- The number of statements in lists: the statement itself, and those in it. -/
def count : Outline → Nat
  | mk _ _ lists => 1 + countLists lists

/-- The number of statements in lists of statements. -/
def countLists : List (List Outline) → Nat
  | [] => 0
  | os :: lists => countAll os + countLists lists

/-- The number of statements in a list. -/
def countAll : List Outline → Nat
  | [] => 0
  | o :: os => o.count + countAll os

end

end Outline

/-! ## Parse trees -/

/-- A part of a parse tree, and the lists of statements in it. -/
structure Piece where
  tree : Tree
  held : List (List Outline)

/-- The outline of a part that is a statement of a list. Empty statements are none. -/
def Piece.outline? (p : Piece) : Option Outline :=
  p.tree.rule?.bind fun rule =>
    if rule.isStatement && rule != .emptyStatement then some (.mk rule p.tree.span p.held) else none

namespace Rule

/-- Whether the statements under a node of the rule stand in a list. -/
def holdsList : Rule → Bool
  | scriptBlock | block | caseClause | defaultClause => true
  | _ => false

/-- Whether attributes stand under a node of the rule. -/
def hasAttributes : Rule → Bool
  | functionDeclaration | componentDeclaration | interfaceDeclaration | propertyFull
  | propertyShorthand | tagStatement | parameter => true
  | _ => false

/-- The lists of statements in a node of the rule. An empty statement that stands alone is an empty
block. -/
def held (rule : Rule) (ps : List Piece) : List (List Outline) :=
  if rule = emptyStatement then [[]]
  else if rule.holdsList then
    (ps.filter (!·.tree.isStatement)).flatMap (·.held) ++ [ps.filterMap (·.outline?)]
  else ps.flatMap (·.held)

/-- The attribute that a part is. -/
def attribute? (p : Piece) : Option (Attribute Piece) :=
  if p.tree.isNode .attribute then
    (p.tree.children.head?.bind (·.token?)).map fun t => ⟨Build.wordIdentifier t, p⟩
  else none

/-- What is kept of the parts of a node. -/
def kept (rule : Rule) (ps : List Piece) : List Piece :=
  if rule = switchStatement then
    ps.filter (!·.tree.isNode .defaultClause) ++ (ps.find? (·.tree.isNode .defaultClause)).toList
  else if rule.hasAttributes then
    ps.filter (fun p => !p.tree.isNode .attribute && !p.tree.isNode .block) ++
      (AttributeMap.ofList (ps.filterMap attribute?)).values ++ ps.filter (·.tree.isNode .block)
  else ps

end Rule

namespace Tree

mutual

/-- The lists of statements in a tree, where `pick` tells what to look at of the parts of a node. -/
def held (pick : Rule → List Piece → List Piece) : Tree → List (List Outline)
  | leaf _ => []
  | node rule cs => rule.held (pick rule (pieces pick cs))

/-- Parts of a tree with the lists of statements in them. -/
def pieces (pick : Rule → List Piece → List Piece) : List Tree → List Piece
  | [] => []
  | t :: ts => ⟨t, t.held pick⟩ :: pieces pick ts

end

/-- All lists of statements in a tree. -/
def all (_ : Rule) (ps : List Piece) : List Piece := ps

/-- The lists of statements in a tree that have a place in a program tree. -/
def kept (t : Tree) : List (List Outline) := t.held Rule.kept

theorem pieces_eq_map (pick : Rule → List Piece → List Piece) (ts : List Tree) :
    pieces pick ts = ts.map fun t => ⟨t, t.held pick⟩ := by
  induction ts with
  | nil => rfl
  | cons t ts ih => rw [pieces, ih, List.map_cons]

end Tree

/-! ## Program trees -/

/-- The rule that a statement is built from; an empty statement gives an empty block. -/
def Statement.rule : Statement → Rule
  | script .. => .scriptBlock
  | block .. => .block
  | expression .. => .expressionStatement
  | declare .. => .varStatement
  | branch .. => .ifStatement
  | whileLoop .. => .whileStatement
  | doLoop .. => .doWhileStatement
  | forLoop .. => .forStatement
  | eachLoop .. => .forInStatement
  | select .. => .switchStatement
  | breakLoop _ => .breakStatement
  | continueLoop _ => .continueStatement
  | returnValue .. => .returnStatement
  | throwValue .. => .throwStatement
  | abort .. => .abortStatement
  | includeFile .. => .includeStatement
  | importPath .. => .importStatement
  | tryCatch .. => .tryStatement
  | function .. => .functionDeclaration
  | component .component .. => .componentDeclaration
  | component .interface .. => .interfaceDeclaration
  | property ⟨.long _ _, _⟩ _ => .propertyFull
  | property ⟨.short _ _, _⟩ _ => .propertyShorthand
  | tag .. => .tagStatement

mutual

/-- The lists of statements in an expression. -/
def Expression.held : Expression → List (List Outline)
  | .binary _ left right _ => left.held ++ right.held
  | .unary _ operand _ => operand.held
  | .postfixOp _ operand _ => operand.held
  | .assignment _ target value _ => target.held ++ value.held
  | .ternary condition thenValue elseValue _ => condition.held ++ thenValue.held ++ elseValue.held
  | .elvis value default _ => value.held ++ default.held
  | .paren inner _ => inner.held
  | .call callee args _ => callee.held ++ heldArguments args
  | .member object _ _ _ => object.held
  | .index object index _ => object.held ++ index.held
  | .array items _ => heldExpressions items
  | .struct entries _ => heldEntries entries
  | .new _ args _ => heldArguments args
  | .function _ params body _ => heldParameters params ++ [outlines body]
  | .lambda _ params value _ => heldParameters params ++ value.held
  | .identifier _ _ | .string _ _ _ | .number _ _ | .boolean _ _ | .null _ => []

/-- The lists of statements in expressions. -/
def heldExpressions : List Expression → List (List Outline)
  | [] => []
  | e :: es => e.held ++ heldExpressions es

/-- The lists of statements in an expression, if there is one. -/
def heldExpression? : Option Expression → List (List Outline)
  | none => []
  | some e => e.held

/-- The lists of statements in arguments. -/
def heldArguments : List (Argument Expression) → List (List Outline)
  | [] => []
  | ⟨_, value⟩ :: args => value.held ++ heldArguments args

/-- The lists of statements in the entries of a struct. -/
def heldEntries : List (StructEntry Expression) → List (List Outline)
  | [] => []
  | ⟨key, _, value⟩ :: entries => key.held ++ value.held ++ heldEntries entries

/-- The lists of statements in attributes. -/
def heldEach : List (Attribute Expression) → List (List Outline)
  | [] => []
  | ⟨_, value⟩ :: rest => value.held ++ heldEach rest

/-- The lists of statements in a map of attributes. -/
def heldAttributes : AttributeMap Expression → List (List Outline)
  | ⟨entries⟩ => heldEach entries

/-- The lists of statements in parameters. -/
def heldParameters : List (Parameter Expression) → List (List Outline)
  | [] => []
  | ⟨_, _, _, default?, attributes⟩ :: params =>
    heldExpression? default? ++ heldAttributes attributes ++ heldParameters params

/-- The lists of statements in a property. -/
def heldProperty : Property Expression → List (List Outline)
  | ⟨_, attributes⟩ => heldAttributes attributes

/-- The lists of statements in a statement. -/
def Statement.held : Statement → List (List Outline)
  | .script body _ => [outlines body]
  | .block body _ => [outlines body]
  | .expression value _ => value.held
  | .declare _ value? _ => heldExpression? value?
  | .branch condition thenBranch elseBranch? _ =>
    condition.held ++ thenBranch.held ++ heldStatement? elseBranch?
  | .whileLoop condition body _ => condition.held ++ body.held
  | .doLoop body condition _ => body.held ++ condition.held
  | .forLoop init? condition? update? body _ =>
    heldStatement? init? ++ heldExpression? condition? ++ heldExpression? update? ++ body.held
  | .eachLoop _ target collection body _ => target.held ++ collection.held ++ body.held
  | .select subject cases default? _ => subject.held ++ heldCases cases ++ heldBody? default?
  | .returnValue value? _ => heldExpression? value?
  | .throwValue value? _ => heldExpression? value?
  | .abort value? _ => heldExpression? value?
  | .includeFile value _ => value.held
  | .tryCatch body catches finally? _ => [outlines body] ++ heldCatches catches ++ heldBody? finally?
  | .function _ _ _ params attributes body? _ =>
    heldParameters params ++ heldAttributes attributes ++ heldBody? body?
  | .component _ attributes body _ => heldAttributes attributes ++ [outlines body]
  | .property declaration _ => heldProperty declaration
  | .tag _ attributes body? _ => heldAttributes attributes ++ heldBody? body?
  | .breakLoop _ | .continueLoop _ | .importPath _ _ => []

/-- The lists of statements in a statement, if there is one. -/
def heldStatement? : Option Statement → List (List Outline)
  | none => []
  | some s => s.held

/-- The outlines of the statements of a list. -/
def outlines : List Statement → List Outline
  | [] => []
  | s :: ss => .mk s.rule s.span s.held :: outlines ss

/-- The list of statements in a body, if there is one. -/
def heldBody? : Option (List Statement) → List (List Outline)
  | none => []
  | some body => [outlines body]

/-- The lists of statements in the cases of a `switch`. -/
def heldCases : List (SwitchCase Expression Statement) → List (List Outline)
  | [] => []
  | ⟨value, body⟩ :: cases => value.held ++ [outlines body] ++ heldCases cases

/-- The lists of statements in `catch` clauses. -/
def heldCatches : List (CatchClause Statement) → List (List Outline)
  | [] => []
  | ⟨_, _, body⟩ :: catches => [outlines body] ++ heldCatches catches

end

theorem Statement.held_property (declaration : Property Expression) (span : Span) :
    (Statement.property declaration span).held = heldAttributes declaration.attributes := by
  obtain ⟨form, attributes⟩ := declaration
  rw [Statement.held, heldProperty]

/-! ## Attributes -/

namespace AttributeMap

variable {α β : Type} {R : α → β → Prop}

/-- Whether two maps have the same names, in the same order, with values that are related. -/
def Agree (R : α → β → Prop) (m : AttributeMap α) (n : AttributeMap β) : Prop :=
  List.Forall₂ (fun a b => a.name = b.name ∧ R a.value b.value) m.entries n.entries

theorem agree_empty : Agree R empty empty := List.Forall₂.nil

theorem Agree.find? {m : AttributeMap α} {n : AttributeMap β} (h : Agree R m n) (name : String) :
    (m.get? name).isSome = (n.get? name).isSome := by
  obtain ⟨as⟩ := m
  obtain ⟨bs⟩ := n
  simp only [get?_isSome, contains]
  simp only [Agree] at h
  induction h with
  | nil => rfl
  | cons hab _ ih => simp [hab.1, ih]

theorem agree_replaceIn {as : List (Attribute α)} {bs : List (Attribute β)} {a : α} {b : β}
    (h : List.Forall₂ (fun a b => a.name = b.name ∧ R a.value b.value) as bs) (name : String)
    (hab : R a b) :
    List.Forall₂ (fun a b => a.name = b.name ∧ R a.value b.value) (replaceIn name a as)
      (replaceIn name b bs) := by
  induction h with
  | nil => exact .nil
  | cons hHead hTail ih =>
    simp only [replaceIn, hHead.1]
    split
    · exact .cons ⟨rfl, hab⟩ hTail
    · exact .cons hHead ih

/-- Related values under one name keep the maps in agreement, and replace a value in both or in
neither. -/
theorem agree_insert {m : AttributeMap α} {n : AttributeMap β} {a : α} {b : β} (h : Agree R m n)
    (name : Identifier) (hab : R a b) : Agree R (m.insert name a).2 (n.insert name b).2 := by
  have hFind := h.find? name.name
  unfold insert
  cases hm : m.get? name.name with
  | none =>
    cases hn : n.get? name.name with
    | none => exact List.rel_append h (.cons ⟨rfl, hab⟩ .nil)
    | some old => simp [hm, hn] at hFind
  | some old =>
    cases hn : n.get? name.name with
    | none => simp [hm, hn] at hFind
    | some old => exact agree_replaceIn h name.name hab

end AttributeMap

/-- Attributes whose values hold what the parts hold, hold what the parts hold. -/
theorem heldAttributes_of_agree {map : AttributeMap Expression} {pieces : AttributeMap Piece}
    (h : map.Agree (fun e p => e.held = p.held) pieces) :
    heldAttributes map = pieces.values.flatMap (·.held) := by
  obtain ⟨as⟩ := map
  obtain ⟨ps⟩ := pieces
  simp only [AttributeMap.Agree] at h
  simp only [heldAttributes, AttributeMap.values]
  induction h with
  | nil => rfl
  | cons hHead _ ih => simp [heldEach, hHead.2, ih]

end CfScript
