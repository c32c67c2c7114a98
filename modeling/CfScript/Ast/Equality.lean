import CfScript.Ast.Basic

/-!
# When two program trees are the same

Two trees are the same when they mean the same as written: their spans play no part, and neither does
the order of attributes or the letter case of their names. Everything else is compared, parentheses
and the quotes of strings included.

The comparison follows the tree on its left; `same` is stated for each kind of part. So a value of an
attribute stays on the left of the value that the other map has for it, where a comparison that looks the
name up first has the other value there. For maps that the operations made the two orders agree
(`AttributeMap.same_iff_get?`).

## Main results

* `Property.same_iff`: properties are the same when their forms, names, types and attributes are.
-/

namespace CfScript

/-- Whether one identifier or none stands on both sides. -/
def sameName? : Option Identifier → Option Identifier → Bool
  | none, none => true
  | some a, some b => a == b
  | _, _ => false

mutual

/-- Whether two expressions are the same. -/
def Expression.same : Expression → Expression → Bool
  | .identifier a _, e => match e with
    | .identifier b _ => a == b
    | _ => false
  | .string text quote _, e => match e with
    | .string text' quote' _ => text == text' && quote == quote'
    | _ => false
  | .number text _, e => match e with
    | .number text' _ => text == text'
    | _ => false
  | .boolean value _, e => match e with
    | .boolean value' _ => value == value'
    | _ => false
  | .null _, e => match e with
    | .null _ => true
    | _ => false
  | .binary op left right _, e => match e with
    | .binary op' left' right' _ => op == op' && left.same left' && right.same right'
    | _ => false
  | .unary op operand _, e => match e with
    | .unary op' operand' _ => op == op' && operand.same operand'
    | _ => false
  | .postfixOp op operand _, e => match e with
    | .postfixOp op' operand' _ => op == op' && operand.same operand'
    | _ => false
  | .assignment op target value _, e => match e with
    | .assignment op' target' value' _ => op == op' && target.same target' && value.same value'
    | _ => false
  | .ternary condition thenValue elseValue _, e => match e with
    | .ternary condition' thenValue' elseValue' _ =>
      condition.same condition' && thenValue.same thenValue' && elseValue.same elseValue'
    | _ => false
  | .elvis value default _, e => match e with
    | .elvis value' default' _ => value.same value' && default.same default'
    | _ => false
  | .paren inner _, e => match e with
    | .paren inner' _ => inner.same inner'
    | _ => false
  | .call callee args _, e => match e with
    | .call callee' args' _ => callee.same callee' && sameArguments args args'
    | _ => false
  | .member object property safe _, e => match e with
    | .member object' property' safe' _ =>
      object.same object' && property == property' && safe == safe'
    | _ => false
  | .index object index _, e => match e with
    | .index object' index' _ => object.same object' && index.same index'
    | _ => false
  | .array items _, e => match e with
    | .array items' _ => sameExpressions items items'
    | _ => false
  | .struct entries _, e => match e with
    | .struct entries' _ => sameEntries entries entries'
    | _ => false
  | .new className args _, e => match e with
    | .new className' args' _ => className == className' && sameArguments args args'
    | _ => false
  | .function arrow params body _, e => match e with
    | .function arrow' params' body' _ =>
      arrow == arrow' && sameParameters params params' && sameStatements body body'
    | _ => false
  | .lambda arrow params value _, e => match e with
    | .lambda arrow' params' value' _ =>
      arrow == arrow' && sameParameters params params' && value.same value'
    | _ => false
termination_by structural left => left

/-- Whether two lists of expressions are the same. -/
def sameExpressions : List Expression → List Expression → Bool
  | [], others => others.isEmpty
  | e :: es, others => match others with
    | [] => false
    | e' :: es' => e.same e' && sameExpressions es es'
termination_by structural left => left

/-- Whether two lists of arguments are the same. -/
def sameArguments : List (Argument Expression) → List (Argument Expression) → Bool
  | [], others => others.isEmpty
  | ⟨name?, value⟩ :: args, others => match others with
    | [] => false
    | arg :: args' =>
      sameName? name? arg.name? && value.same arg.value && sameArguments args args'
termination_by structural left => left

/-- Whether two lists of struct entries are the same. -/
def sameEntries : List (StructEntry Expression) → List (StructEntry Expression) → Bool
  | [], others => others.isEmpty
  | ⟨key, separator, value⟩ :: entries, others => match others with
    | [] => false
    | entry :: entries' =>
      key.same entry.key && separator == entry.separator && value.same entry.value &&
        sameEntries entries entries'
termination_by structural left => left

/-- Whether every attribute has the same value in the map. -/
def attributesIn : List (Attribute Expression) → AttributeMap Expression → Bool
  | [], _ => true
  | ⟨name, value⟩ :: rest, map =>
    (match map.get? name.name with
      | some value' => value.same value'
      | none => false) && attributesIn rest map
termination_by structural left => left

/-- Whether two attribute maps are the same: equally many attributes, with the same values. -/
def AttributeMap.same : AttributeMap Expression → AttributeMap Expression → Bool
  | ⟨entries⟩, map => entries.length == map.size && attributesIn entries map
termination_by structural left => left

/-- Whether two lists of parameters are the same. -/
def sameParameters : List (Parameter Expression) → List (Parameter Expression) → Bool
  | [], others => others.isEmpty
  | ⟨required, type?, name, default?, attributes⟩ :: params, others => match others with
    | [] => false
    | param :: params' =>
      required == param.required && sameName? type? param.type? && name == param.name &&
        sameExpression? default? param.default? && attributes.same param.attributes &&
        sameParameters params params'
termination_by structural left => left

/-- Whether the same expression or none stands on both sides. -/
def sameExpression? : Option Expression → Option Expression → Bool
  | none, e? => e?.isNone
  | some e, e? => match e? with
    | none => false
    | some e' => e.same e'
termination_by structural left => left

/-- Whether two properties are the same. -/
def Property.same : Property Expression → Property Expression → Bool
  | ⟨form, attributes⟩, p =>
    let left : Property Expression := ⟨form, {}⟩
    left.isShort == p.isShort && sameName? left.name? p.name? && sameName? left.type? p.type? &&
      attributes.same p.attributes
termination_by structural left => left

/-- Whether two statements are the same. -/
def Statement.same : Statement → Statement → Bool
  | .script body _, s => match s with
    | .script body' _ => sameStatements body body'
    | _ => false
  | .block body _, s => match s with
    | .block body' _ => sameStatements body body'
    | _ => false
  | .expression value _, s => match s with
    | .expression value' _ => value.same value'
    | _ => false
  | .declare name value? _, s => match s with
    | .declare name' value?' _ => name == name' && sameExpression? value? value?'
    | _ => false
  | .branch condition thenBranch elseBranch? _, s => match s with
    | .branch condition' thenBranch' elseBranch?' _ =>
      condition.same condition' && thenBranch.same thenBranch' &&
        sameStatement? elseBranch? elseBranch?'
    | _ => false
  | .whileLoop condition body _, s => match s with
    | .whileLoop condition' body' _ => condition.same condition' && body.same body'
    | _ => false
  | .doLoop body condition _, s => match s with
    | .doLoop body' condition' _ => body.same body' && condition.same condition'
    | _ => false
  | .forLoop init? condition? update? body _, s => match s with
    | .forLoop init?' condition?' update?' body' _ =>
      sameStatement? init? init?' && sameExpression? condition? condition?' &&
        sameExpression? update? update?' && body.same body'
    | _ => false
  | .eachLoop var target collection body _, s => match s with
    | .eachLoop var' target' collection' body' _ =>
      var == var' && target.same target' && collection.same collection' && body.same body'
    | _ => false
  | .select subject cases default? _, s => match s with
    | .select subject' cases' default?' _ =>
      subject.same subject' && sameCases cases cases' && sameBody? default? default?'
    | _ => false
  | .breakLoop _, s => match s with
    | .breakLoop _ => true
    | _ => false
  | .continueLoop _, s => match s with
    | .continueLoop _ => true
    | _ => false
  | .returnValue value? _, s => match s with
    | .returnValue value?' _ => sameExpression? value? value?'
    | _ => false
  | .throwValue value? _, s => match s with
    | .throwValue value?' _ => sameExpression? value? value?'
    | _ => false
  | .abort value? _, s => match s with
    | .abort value?' _ => sameExpression? value? value?'
    | _ => false
  | .includeFile value _, s => match s with
    | .includeFile value' _ => value.same value'
    | _ => false
  | .importPath path _, s => match s with
    | .importPath path' _ => path == path'
    | _ => false
  | .tryCatch body catches finally? _, s => match s with
    | .tryCatch body' catches' finally?' _ =>
      sameStatements body body' && sameCatches catches catches' && sameBody? finally? finally?'
    | _ => false
  | .function modifiers returnType? name params attributes body? _, s => match s with
    | .function modifiers' returnType?' name' params' attributes' body?' _ =>
      modifiers == modifiers' && sameName? returnType? returnType?' && name == name' &&
        sameParameters params params' && attributes.same attributes' && sameBody? body? body?'
    | _ => false
  | .component kind attributes body _, s => match s with
    | .component kind' attributes' body' _ =>
      kind == kind' && attributes.same attributes' && sameStatements body body'
    | _ => false
  | .property declaration _, s => match s with
    | .property declaration' _ => declaration.same declaration'
    | _ => false
  | .tag kind attributes body? _, s => match s with
    | .tag kind' attributes' body?' _ =>
      kind == kind' && attributes.same attributes' && sameBody? body? body?'
    | _ => false
termination_by structural left => left

/-- Whether two lists of statements are the same. -/
def sameStatements : List Statement → List Statement → Bool
  | [], others => others.isEmpty
  | s :: ss, others => match others with
    | [] => false
    | s' :: ss' => s.same s' && sameStatements ss ss'
termination_by structural left => left

/-- Whether the same statement or none stands on both sides. -/
def sameStatement? : Option Statement → Option Statement → Bool
  | none, s? => s?.isNone
  | some s, s? => match s? with
    | none => false
    | some s' => s.same s'
termination_by structural left => left

/-- Whether the same list of statements or none stands on both sides. -/
def sameBody? : Option (List Statement) → Option (List Statement) → Bool
  | none, body? => body?.isNone
  | some body, body? => match body? with
    | none => false
    | some body' => sameStatements body body'
termination_by structural left => left

/-- Whether two lists of cases are the same. -/
def sameCases : List (SwitchCase Expression Statement) → List (SwitchCase Expression Statement) →
    Bool
  | [], others => others.isEmpty
  | ⟨value, body⟩ :: cases, others => match others with
    | [] => false
    | c :: cases' =>
      value.same c.value && sameStatements body c.body && sameCases cases cases'
termination_by structural left => left

/-- Whether two lists of `catch` clauses are the same. -/
def sameCatches : List (CatchClause Statement) → List (CatchClause Statement) → Bool
  | [], others => others.isEmpty
  | ⟨type?, name, body⟩ :: catches, others => match others with
    | [] => false
    | c :: catches' =>
      type? == c.type? && name == c.name && sameStatements body c.body &&
        sameCatches catches catches'
termination_by structural left => left

end

instance : BEq Expression := ⟨Expression.same⟩

instance : BEq Statement := ⟨Statement.same⟩

instance : BEq (AttributeMap Expression) := ⟨AttributeMap.same⟩

theorem Property.same_iff (p q : Property Expression) :
    p.same q = true ↔ p.isShort = q.isShort ∧ sameName? p.name? q.name? = true ∧
      sameName? p.type? q.type? = true ∧ p.attributes.same q.attributes = true := by
  obtain ⟨form, attributes⟩ := p
  simp only [Property.same, Bool.and_eq_true, beq_iff_eq, and_assoc]
  exact Iff.rfl

end CfScript
