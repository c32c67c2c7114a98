import CfScript.Layout.Text

/-!
# Programs without places

A place says where a node or a name stands and nothing about what it means. So what is printed of a
program tree does not depend on its places, and two trees that are equal without them have one text.

## Main results

* `Statement.unplaced`: a program tree without places;
* `scriptText_unplaced`: the text of a program tree without places is the text of the tree.
-/

namespace CfScript

/-! ## Taking places away -/

/-- The identifier without its place. -/
def Identifier.unplaced (id : Identifier) : Identifier := ⟨id.name, .dummy⟩

/-- The form of a property without places. -/
def PropertyForm.unplaced : PropertyForm → PropertyForm
  | long name? type? => .long (name?.map (·.unplaced)) (type?.map (·.unplaced))
  | short name type? => .short name.unplaced (type?.map (·.unplaced))

mutual

/-- The expression without places. -/
def Expression.unplaced : Expression → Expression
  | .identifier id _ => .identifier id.unplaced .dummy
  | .string text quote _ => .string text quote .dummy
  | .number text _ => .number text .dummy
  | .boolean value _ => .boolean value .dummy
  | .null _ => .null .dummy
  | .binary op left right _ => .binary op left.unplaced right.unplaced .dummy
  | .unary op operand _ => .unary op operand.unplaced .dummy
  | .postfixOp op operand _ => .postfixOp op operand.unplaced .dummy
  | .assignment op target value _ => .assignment op target.unplaced value.unplaced .dummy
  | .ternary condition thenValue elseValue _ =>
    .ternary condition.unplaced thenValue.unplaced elseValue.unplaced .dummy
  | .elvis value default _ => .elvis value.unplaced default.unplaced .dummy
  | .paren inner _ => .paren inner.unplaced .dummy
  | .call callee args _ => .call callee.unplaced (unplacedArguments args) .dummy
  | .member object property safe _ => .member object.unplaced property.unplaced safe .dummy
  | .index object index _ => .index object.unplaced index.unplaced .dummy
  | .array items _ => .array (unplacedExpressions items) .dummy
  | .struct entries _ => .struct (unplacedEntries entries) .dummy
  | .new className args _ => .new className (unplacedArguments args) .dummy
  | .function arrow params body _ =>
    .function arrow (unplacedParameters params) (unplacedStatements body) .dummy
  | .lambda arrow params value _ => .lambda arrow (unplacedParameters params) value.unplaced .dummy

/-- The expressions without places. -/
def unplacedExpressions : List Expression → List Expression
  | [] => []
  | e :: es => e.unplaced :: unplacedExpressions es

/-- The expression without places, if there is one. -/
def unplacedExpression? : Option Expression → Option Expression
  | none => none
  | some e => some e.unplaced

/-- The arguments without places. -/
def unplacedArguments : List (Argument Expression) → List (Argument Expression)
  | [] => []
  | ⟨name?, value⟩ :: args => ⟨name?.map (·.unplaced), value.unplaced⟩ :: unplacedArguments args

/-- The struct entries without places. -/
def unplacedEntries : List (StructEntry Expression) → List (StructEntry Expression)
  | [] => []
  | ⟨key, separator, value⟩ :: entries =>
    ⟨key.unplaced, separator, value.unplaced⟩ :: unplacedEntries entries

/-- The attributes without places. -/
def unplacedEach : List (Attribute Expression) → List (Attribute Expression)
  | [] => []
  | ⟨name, value⟩ :: rest => ⟨name.unplaced, value.unplaced⟩ :: unplacedEach rest

/-- The map of attributes without places. -/
def unplacedAttributes : AttributeMap Expression → AttributeMap Expression
  | ⟨entries⟩ => ⟨unplacedEach entries⟩

/-- The parameters without places. -/
def unplacedParameters : List (Parameter Expression) → List (Parameter Expression)
  | [] => []
  | ⟨required, type?, name, default?, attributes⟩ :: params =>
    ⟨required, type?.map (·.unplaced), name.unplaced, unplacedExpression? default?,
      unplacedAttributes attributes⟩ :: unplacedParameters params

/-- The property without places. -/
def unplacedProperty : Property Expression → Property Expression
  | ⟨form, attributes⟩ => ⟨form.unplaced, unplacedAttributes attributes⟩

/-- The statement without places. -/
def Statement.unplaced : Statement → Statement
  | .script body _ => .script (unplacedStatements body) .dummy
  | .block body _ => .block (unplacedStatements body) .dummy
  | .expression value _ => .expression value.unplaced .dummy
  | .declare name value? _ => .declare name.unplaced (unplacedExpression? value?) .dummy
  | .branch condition thenBranch elseBranch? _ =>
    .branch condition.unplaced thenBranch.unplaced (unplacedStatement? elseBranch?) .dummy
  | .whileLoop condition body _ => .whileLoop condition.unplaced body.unplaced .dummy
  | .doLoop body condition _ => .doLoop body.unplaced condition.unplaced .dummy
  | .forLoop init? condition? update? body _ =>
    .forLoop (unplacedStatement? init?) (unplacedExpression? condition?)
      (unplacedExpression? update?) body.unplaced .dummy
  | .eachLoop var target collection body _ =>
    .eachLoop var target.unplaced collection.unplaced body.unplaced .dummy
  | .select subject cases default? _ =>
    .select subject.unplaced (unplacedCases cases) (unplacedBody? default?) .dummy
  | .breakLoop _ => .breakLoop .dummy
  | .continueLoop _ => .continueLoop .dummy
  | .returnValue value? _ => .returnValue (unplacedExpression? value?) .dummy
  | .throwValue value? _ => .throwValue (unplacedExpression? value?) .dummy
  | .abort value? _ => .abort (unplacedExpression? value?) .dummy
  | .includeFile value _ => .includeFile value.unplaced .dummy
  | .importPath path _ => .importPath path .dummy
  | .tryCatch body catches finally? _ =>
    .tryCatch (unplacedStatements body) (unplacedCatches catches) (unplacedBody? finally?) .dummy
  | .function modifiers returnType? name params attributes body? _ =>
    .function (modifiers.map (·.unplaced)) (returnType?.map (·.unplaced)) name.unplaced
      (unplacedParameters params) (unplacedAttributes attributes) (unplacedBody? body?) .dummy
  | .component kind attributes body _ =>
    .component kind (unplacedAttributes attributes) (unplacedStatements body) .dummy
  | .property declaration _ => .property (unplacedProperty declaration) .dummy
  | .tag kind attributes body? _ =>
    .tag kind (unplacedAttributes attributes) (unplacedBody? body?) .dummy

/-- The statements without places. -/
def unplacedStatements : List Statement → List Statement
  | [] => []
  | s :: ss => s.unplaced :: unplacedStatements ss

/-- The statement without places, if there is one. -/
def unplacedStatement? : Option Statement → Option Statement
  | none => none
  | some s => some s.unplaced

/-- The statements of a body without places, if there is one. -/
def unplacedBody? : Option (List Statement) → Option (List Statement)
  | none => none
  | some body => some (unplacedStatements body)

/-- The cases of a `switch` without places. -/
def unplacedCases : List (SwitchCase Expression Statement) → List (SwitchCase Expression Statement)
  | [] => []
  | ⟨value, body⟩ :: cases => ⟨value.unplaced, unplacedStatements body⟩ :: unplacedCases cases

/-- The `catch` clauses without places. -/
def unplacedCatches : List (CatchClause Statement) → List (CatchClause Statement)
  | [] => []
  | ⟨type?, name, body⟩ :: catches =>
    ⟨type?, name.unplaced, unplacedStatements body⟩ :: unplacedCatches catches

end

/-! ## Attributes -/

/-- The attribute without the place of its name. -/
def Attribute.unplaced {α : Type} (a : Attribute α) : Attribute α := ⟨a.name.unplaced, a.value⟩

namespace AttributeMap

variable {α : Type}

/-- The map without the places of its names. -/
def unplaced (map : AttributeMap α) : AttributeMap α := ⟨map.entries.map (·.unplaced)⟩

theorem entries_unplaced (map : AttributeMap α) :
    map.unplaced.entries = map.entries.map (·.unplaced) := rfl

theorem isNamed_unplaced (id : Identifier) (name : String) :
    id.unplaced.isNamed name = id.isNamed name := rfl

theorem find?_unplaced (map : AttributeMap α) (name : String) :
    map.unplaced.find? name = (map.find? name).map (·.unplaced) := by
  rw [find?, unplaced, List.find?_map]
  rfl

theorem unknown_unplaced (map : AttributeMap α) (known : List String) :
    map.unplaced.unknown known = (map.unknown known).map (·.unplaced) := by
  rw [unknown, unplaced, List.filter_map]
  rfl

theorem ordered_unplaced (map : AttributeMap α) (known : List String) :
    map.unplaced.ordered known = (map.ordered known).map (·.unplaced) := by
  simp only [ordered, unknown_unplaced, List.map_append, List.map_filterMap]
  congr 2
  funext name
  exact map.find?_unplaced name

theorem replaceIn_unplaced (name : String) (value : α) (as : List (Attribute α)) :
    replaceIn name value (as.map (·.unplaced)) = (replaceIn name value as).map (·.unplaced) := by
  induction as with
  | nil => rfl
  | cons a as ih =>
    rw [List.map_cons, replaceIn, replaceIn, ih]
    split <;> split <;> simp_all [Attribute.unplaced, isNamed_unplaced]

theorem insert_unplaced (map : AttributeMap α) (name : Identifier) (value : α) :
    (map.unplaced.insert name.unplaced value).2 = (map.insert name value).2.unplaced := by
  have hGet : map.unplaced.get? name.name = map.get? name.name := by
    rw [get?, find?_unplaced, Option.map_map]
    rfl
  rw [insert, insert, show name.unplaced.name = name.name from rfl, hGet]
  cases map.get? name.name with
  | some old => exact congrArg mk (replaceIn_unplaced name.name value map.entries)
  | none => simp [unplaced, Attribute.unplaced]

theorem insertAll_unplaced (map : AttributeMap α) (as : List (Attribute α)) :
    map.unplaced.insertAll (as.map (·.unplaced)) = (map.insertAll as).unplaced := by
  induction as generalizing map with
  | nil => rfl
  | cons a as ih =>
    have hStep := map.insert_unplaced a.name a.value
    rw [List.map_cons, insertAll, List.foldl_cons, ← insertAll]
    rw [show (map.unplaced.insert a.unplaced.name a.unplaced.value).2 = _ from hStep, ih]
    rfl

theorem ofList_unplaced (as : List (Attribute α)) :
    ofList (as.map (·.unplaced)) = (ofList as).unplaced := insertAll_unplaced empty as

end AttributeMap

namespace Layout

/-! ## What layout asks of a node -/

@[simp] theorem ofExpression_unplaced (tight : Bool) (e : Expression) :
    Strength.ofExpression tight e.unplaced = Strength.ofExpression tight e := by
  cases e with
  | unary op operand span => cases op <;> rfl
  | _ => rfl

@[simp] theorem isArrow_unplaced (e : Expression) : e.unplaced.isArrow = e.isArrow := by
  cases e <;> rfl

@[simp] theorem isStruct_unplaced (e : Expression) : e.unplaced.isStruct = e.isStruct := by
  cases e <;> rfl

@[simp] theorem isAssignment_unplaced (e : Expression) :
    e.unplaced.isAssignment = e.isAssignment := by
  cases e <;> rfl

@[simp] theorem startsWithSign_unplaced (e : Expression) :
    startsWithSign e.unplaced = startsWithSign e := by
  cases e <;> rfl

@[simp] theorem rightStrength_unplaced (op : BinaryOp) (right : Expression) :
    rightStrength op right.unplaced = rightStrength op right := by
  rw [rightStrength, rightStrength, isArrow_unplaced]

@[simp] theorem isSome_unplacedBody? (body? : Option (List Statement)) :
    (unplacedBody? body?).isSome = body?.isSome := by
  cases body? <;> rfl

@[simp] theorem isCompound_unplaced (s : Statement) : isCompound s.unplaced = isCompound s := by
  cases s with
  | function _ _ _ _ _ body? => exact isSome_unplacedBody? body?
  | tag _ _ body? => exact isSome_unplacedBody? body?
  | _ => rfl

@[simp] theorem endsWithOpenIf_unplaced : (s : Statement) →
    endsWithOpenIf s.unplaced = endsWithOpenIf s
  | .branch _ _ none _ => rfl
  | .branch _ _ (some elseBranch) _ => endsWithOpenIf_unplaced elseBranch
  | .whileLoop _ body _ => endsWithOpenIf_unplaced body
  | .forLoop _ _ _ body _ => endsWithOpenIf_unplaced body
  | .eachLoop _ _ _ body _ => endsWithOpenIf_unplaced body
  | .script .. | .block .. | .expression .. | .declare .. | .doLoop .. | .select .. | .breakLoop _
  | .continueLoop _ | .returnValue .. | .throwValue .. | .abort .. | .includeFile ..
  | .importPath .. | .tryCatch .. | .function .. | .component .. | .property .. | .tag .. => rfl

@[simp] theorem terminated_unplaced (s : Statement) (steps : List Step) :
    terminated s.unplaced steps = terminated s steps := by
  rw [terminated, terminated, isCompound_unplaced]

/-- What is written alike is put in parentheses alike. -/
theorem atLeast_unplaced {e : Expression} (h : ∀ tight, expression tight e.unplaced = expression tight e)
    (least : Nat) (tight : Bool) :
    atLeast least tight e.unplaced (expression · e.unplaced) =
      atLeast least tight e (expression · e) := by
  rw [atLeast, atLeast, ofExpression_unplaced, h, h]

theorem afterSpaces_unplaced (as : List (Attribute (List Step))) :
    afterSpaces (as.map (·.unplaced)) = afterSpaces as := by
  rw [afterSpaces, List.flatMap_map]
  rfl

theorem ordered_unplaced (element : Element) (as : List (Attribute (List Step))) :
    ordered element (as.map (·.unplaced)) = ordered element as := by
  have h := (AttributeMap.mk as).ordered_unplaced element.known
  rw [ordered, ordered, ← afterSpaces_unplaced ((AttributeMap.mk as).ordered _), ← h]
  rfl

theorem functionHead_unplaced (modifiers : List Identifier) (returnType? : Option Identifier)
    (name : Identifier) :
    functionHead (modifiers.map (·.unplaced)) (returnType?.map (·.unplaced)) name.unplaced =
      functionHead modifiers returnType? name := by
  cases returnType? <;> simp [functionHead, List.flatMap_map, Identifier.unplaced]

theorem folded_unplaced (name : String) (id? : Option Identifier) :
    Property.folded quotedText name (id?.map (·.unplaced)) =
      (Property.folded quotedText name id?).map (·.unplaced) := by
  cases id? <;> rfl

theorem expandedWith_unplaced (name? type? : Option Identifier) (map : AttributeMap (List Step)) :
    (Property.expandedWith quotedText
        ⟨.long (name?.map (·.unplaced)) (type?.map (·.unplaced)), map.unplaced⟩).attributes =
      (Property.expandedWith quotedText ⟨.long name? type?, map⟩).attributes.unplaced := by
  cases hNone : name?.isNone && type?.isNone with
  | true =>
    simp only [Property.expandedWith, Property.name?, Property.type?, Option.isNone_map, hNone,
      if_true, Property.ofAttributes]
  | false =>
    simp only [Property.expandedWith, Property.name?, Property.type?, Option.isNone_map, hNone,
      Bool.false_eq_true, if_false, Property.ofAttributes, folded_unplaced,
      AttributeMap.entries_unplaced, ← List.map_append, AttributeMap.ofList_unplaced]

theorem property_unplaced (form : PropertyForm) (as : List (Attribute (List Step))) :
    property ⟨form.unplaced, ⟨as.map (·.unplaced)⟩⟩ = property ⟨form, ⟨as⟩⟩ := by
  cases form with
  | short name type? =>
    rw [property, property]
    dsimp only [PropertyForm.unplaced]
    rw [ordered_unplaced]
    cases type? <;> rfl
  | long name? type? =>
    have hExpanded := expandedWith_unplaced name? type? ⟨as⟩
    rw [property, property]
    dsimp only [PropertyForm.unplaced]
    rw [show (⟨as.map (·.unplaced)⟩ : AttributeMap (List Step)) = AttributeMap.unplaced ⟨as⟩ from rfl,
      hExpanded, AttributeMap.entries_unplaced, ordered_unplaced]

/-! ## The steps of every node -/

mutual

theorem expression_unplaced : (e : Expression) → ∀ tight,
    expression tight e.unplaced = expression tight e
  | .identifier _ _, _ => rfl
  | .string _ _ _, _ => rfl
  | .number _ _, _ => rfl
  | .boolean _ _, _ => rfl
  | .null _, _ => rfl
  | .binary op left right _, tight => by
    have hLeft := atLeast_unplaced (expression_unplaced left)
    have hRight := atLeast_unplaced (expression_unplaced right)
    simp only [Expression.unplaced, expression, rightStrength_unplaced, hLeft, hRight]
  | .unary op operand _, tight => by
    have h := atLeast_unplaced (expression_unplaced operand)
    cases op <;> simp only [Expression.unplaced, expression, startsWithSign_unplaced, h]
  | .postfixOp op operand _, tight => by
    simp only [Expression.unplaced, expression, atLeast_unplaced (expression_unplaced operand)]
  | .assignment op target value _, tight => by
    simp only [Expression.unplaced, expression, atLeast_unplaced (expression_unplaced target),
      expression_unplaced value]
  | .ternary condition thenValue elseValue _, tight => by
    have hCondition := atLeast_unplaced (expression_unplaced condition)
    have hThen := atLeast_unplaced (expression_unplaced thenValue)
    have hElse := atLeast_unplaced (expression_unplaced elseValue)
    simp only [Expression.unplaced, expression, hCondition, hThen, hElse]
  | .elvis value default _, tight => by
    have hValue := atLeast_unplaced (expression_unplaced value)
    have hDefault := atLeast_unplaced (expression_unplaced default)
    simp only [Expression.unplaced, expression, hValue, hDefault]
  | .paren inner _, tight => by
    simp only [Expression.unplaced, expression, expression_unplaced inner]
  | .call callee args _, tight => by
    simp only [Expression.unplaced, expression, atLeast_unplaced (expression_unplaced callee),
      arguments_unplaced args]
  | .member object property safe _, tight => by
    simp only [Expression.unplaced, expression, atLeast_unplaced (expression_unplaced object),
      Identifier.unplaced]
  | .index object index _, tight => by
    simp only [Expression.unplaced, expression, atLeast_unplaced (expression_unplaced object),
      expression_unplaced index]
  | .array items _, tight => by
    simp only [Expression.unplaced, expression, expressions_unplaced items]
  | .struct [] _, tight => rfl
  | .struct (entry :: entries) _, tight => by
    have h := structEntries_unplaced (entry :: entries)
    simp only [unplacedEntries] at h
    simp only [Expression.unplaced, unplacedEntries, expression, h]
  | .new className args _, tight => by
    simp only [Expression.unplaced, expression, arguments_unplaced args]
  | .function arrow params body _, tight => by
    simp only [Expression.unplaced, expression, parameters_unplaced params, children_unplaced body]
  | .lambda arrow params value _, tight => by
    simp only [Expression.unplaced, expression, parameters_unplaced params, isStruct_unplaced,
      expression_unplaced value]

theorem expressions_unplaced : (es : List Expression) →
    expressions (unplacedExpressions es) = expressions es
  | [] => rfl
  | e :: es => by
    simp only [unplacedExpressions, expressions, expression_unplaced e, expressions_unplaced es]

theorem arguments_unplaced : (args : List (Argument Expression)) →
    arguments (unplacedArguments args) = arguments args
  | [] => rfl
  | ⟨some name, value⟩ :: args => by
    simp only [unplacedArguments, Option.map_some, arguments,
      atLeast_unplaced (expression_unplaced value), arguments_unplaced args]
    rfl
  | ⟨none, value⟩ :: args => by
    simp only [unplacedArguments, Option.map_none, arguments, isAssignment_unplaced,
      expression_unplaced value, arguments_unplaced args]

theorem structEntries_unplaced : (entries : List (StructEntry Expression)) →
    structEntries (unplacedEntries entries) = structEntries entries
  | [] => rfl
  | ⟨key, separator, value⟩ :: entries => by
    simp only [unplacedEntries, structEntries, atLeast_unplaced (expression_unplaced key),
      expression_unplaced value, structEntries_unplaced entries]

theorem attributes_unplaced : (as : List (Attribute Expression)) →
    attributes (unplacedEach as) = (attributes as).map (·.unplaced)
  | [] => rfl
  | ⟨name, value⟩ :: rest => by
    simp only [unplacedEach, attributes, atLeast_unplaced (expression_unplaced value),
      attributes_unplaced rest, List.map_cons]
    rfl

theorem parameters_unplaced : (params : List (Parameter Expression)) →
    parameters (unplacedParameters params) = parameters params
  | [] => rfl
  | ⟨required, type?, name, none, ⟨entries⟩⟩ :: params => by
    simp only [unplacedParameters, unplacedExpression?, unplacedAttributes, parameters,
      attributes_unplaced entries, afterSpaces_unplaced, parameters_unplaced params]
    cases type? <;> rfl
  | ⟨required, type?, name, some value, ⟨entries⟩⟩ :: params => by
    simp only [unplacedParameters, unplacedExpression?, unplacedAttributes, parameters,
      attributes_unplaced entries, afterSpaces_unplaced, parameters_unplaced params,
      atLeast_unplaced (expression_unplaced value)]
    cases type? <;> rfl

theorem statement_unplaced : (s : Statement) → statement s.unplaced = statement s
  | .script body _ => by simp only [Statement.unplaced, statement, children_unplaced body]
  | .block body _ => by simp only [Statement.unplaced, statement, children_unplaced body]
  | .expression value _ => by
    simp only [Statement.unplaced, statement, expression_unplaced value]
  | .declare name none _ => rfl
  | .declare name (some value) _ => by
    simp only [Statement.unplaced, unplacedExpression?, statement, expression_unplaced value]
    rfl
  | .branch condition thenBranch none _ => by
    simp only [Statement.unplaced, unplacedStatement?, statement, terminated_unplaced,
      expression_unplaced condition, statement_unplaced thenBranch]
  | .branch condition thenBranch (some elseBranch) _ => by
    simp only [Statement.unplaced, unplacedStatement?, statement, terminated_unplaced,
      endsWithOpenIf_unplaced, expression_unplaced condition, statement_unplaced thenBranch,
      statement_unplaced elseBranch]
  | .whileLoop condition body _ => by
    simp only [Statement.unplaced, statement, terminated_unplaced, expression_unplaced condition,
      statement_unplaced body]
  | .doLoop body condition _ => by
    simp only [Statement.unplaced, statement, terminated_unplaced, expression_unplaced condition,
      statement_unplaced body]
  | .forLoop init? condition? update? body _ => by
    simp only [Statement.unplaced, statement, terminated_unplaced, optionalStatement_unplaced init?,
      afterSpace_unplaced condition?, afterSpace_unplaced update?, statement_unplaced body]
  | .eachLoop var target collection body _ => by
    simp only [Statement.unplaced, statement, terminated_unplaced,
      atLeast_unplaced (expression_unplaced target), expression_unplaced collection,
      statement_unplaced body]
  | .select subject cases none _ => by
    simp only [Statement.unplaced, unplacedBody?, statement, expression_unplaced subject,
      clauses_unplaced cases]
  | .select subject cases (some body) _ => by
    simp only [Statement.unplaced, unplacedBody?, statement, expression_unplaced subject,
      clauses_unplaced cases, children_unplaced body]
  | .breakLoop _ => rfl
  | .continueLoop _ => rfl
  | .returnValue value? _ => by
    simp only [Statement.unplaced, statement, afterSpace_unplaced value?]
  | .throwValue value? _ => by
    simp only [Statement.unplaced, statement, afterSpace_unplaced value?]
  | .abort value? _ => by
    simp only [Statement.unplaced, statement, afterSpace_unplaced value?]
  | .includeFile value _ => by
    simp only [Statement.unplaced, statement, expression_unplaced value]
  | .importPath path _ => rfl
  | .tryCatch body catches none _ => by
    simp only [Statement.unplaced, unplacedBody?, statement, children_unplaced body,
      catchClauses_unplaced catches]
  | .tryCatch body catches (some finally_) _ => by
    simp only [Statement.unplaced, unplacedBody?, statement, children_unplaced body,
      catchClauses_unplaced catches, children_unplaced finally_]
  | .function modifiers returnType? name params ⟨entries⟩ none _ => by
    simp only [Statement.unplaced, unplacedBody?, unplacedAttributes, statement,
      functionHead_unplaced, parameters_unplaced params, attributes_unplaced entries,
      ordered_unplaced]
  | .function modifiers returnType? name params ⟨entries⟩ (some body) _ => by
    simp only [Statement.unplaced, unplacedBody?, unplacedAttributes, statement,
      functionHead_unplaced, parameters_unplaced params, attributes_unplaced entries,
      ordered_unplaced, children_unplaced body]
  | .component kind ⟨entries⟩ body _ => by
    simp only [Statement.unplaced, unplacedAttributes, statement, attributes_unplaced entries,
      ordered_unplaced, children_unplaced body]
  | .property ⟨form, ⟨entries⟩⟩ _ => by
    simp only [Statement.unplaced, unplacedProperty, unplacedAttributes, statement,
      attributes_unplaced entries, property_unplaced]
  | .tag kind ⟨entries⟩ none _ => by
    simp only [Statement.unplaced, unplacedBody?, unplacedAttributes, statement,
      attributes_unplaced entries, ordered_unplaced]
  | .tag kind ⟨entries⟩ (some body) _ => by
    simp only [Statement.unplaced, unplacedBody?, unplacedAttributes, statement,
      attributes_unplaced entries, ordered_unplaced, children_unplaced body]

theorem children_unplaced : (ss : List Statement) →
    children (unplacedStatements ss) = children ss
  | [] => rfl
  | s :: ss => by
    simp only [unplacedStatements, children, terminated_unplaced, statement_unplaced s,
      children_unplaced ss]

theorem optionalStatement_unplaced : (s? : Option Statement) →
    optionalStatement (unplacedStatement? s?) = optionalStatement s?
  | none => rfl
  | some s => by simp only [unplacedStatement?, optionalStatement, statement_unplaced s]

theorem afterSpace_unplaced : (e? : Option Expression) →
    afterSpace (unplacedExpression? e?) = afterSpace e?
  | none => rfl
  | some e => by simp only [unplacedExpression?, afterSpace, expression_unplaced e]

theorem clauses_unplaced : (cases : List (SwitchCase Expression Statement)) →
    clauses (unplacedCases cases) = clauses cases
  | [] => rfl
  | ⟨value, body⟩ :: cases => by
    simp only [unplacedCases, clauses, expression_unplaced value, children_unplaced body,
      clauses_unplaced cases]

theorem catchClauses_unplaced : (catches : List (CatchClause Statement)) →
    catchClauses (unplacedCatches catches) = catchClauses catches
  | [] => rfl
  | ⟨type?, name, body⟩ :: catches => by
    simp only [unplacedCatches, catchClauses, children_unplaced body, catchClauses_unplaced catches]
    rfl

end

end Layout

theorem Statement.scriptSteps_unplaced (s : Statement) : s.unplaced.scriptSteps = s.scriptSteps := by
  cases s with
  | script body span =>
    simp only [Statement.unplaced, Statement.scriptSteps, Layout.children_unplaced body]
  | _ =>
    exact (Layout.terminated_unplaced _ _).trans (congrArg _ (Layout.statement_unplaced _))

/-- The text of a program does not depend on its places. -/
theorem scriptText_unplaced (root? : Option Statement) (style : Style) :
    scriptText (root?.map (·.unplaced)) style = scriptText root? style := by
  cases root? with
  | none => rfl
  | some s =>
    simp only [scriptText, Option.map_some, Option.getD_some, s.scriptSteps_unplaced]

end CfScript
