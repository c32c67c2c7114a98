import CfScript.Build.Validation
import CfScript.Token.Basic

/-!
# The nodes of a program

A program is more than its statements: closures stand in arguments, in the defaults of parameters and
in the values of attributes, and statements stand in them. The nodes of a program are all its
expressions and statements, wherever they stand, from the outside to the inside.

What a program says of its source are the texts at its nodes: names, numbers, paths and what stands
between quotes. A text is drawn from tokens if it is the lexemes of some of them, side by side.

## Main results

* `Expression.nodes`, `Statement.nodes`: all nodes at every depth;
* `Node.texts`: the texts that stand at a node itself;
* `Written.DrawnFrom`: texts that come from tokens.
-/

namespace CfScript

/-! ## Nodes -/

/-- A part of a program. -/
inductive Node where
  | expression (e : Expression)
  | statement (s : Statement)

mutual

/-- The expression and all expressions and statements in it. -/
def Expression.nodes : Expression → List Node
  | .identifier id span => [.expression (.identifier id span)]
  | .string text quote span => [.expression (.string text quote span)]
  | .number text span => [.expression (.number text span)]
  | .boolean value span => [.expression (.boolean value span)]
  | .null span => [.expression (.null span)]
  | .binary op left right span =>
    .expression (.binary op left right span) :: (left.nodes ++ right.nodes)
  | .unary op operand span => .expression (.unary op operand span) :: operand.nodes
  | .postfixOp op operand span => .expression (.postfixOp op operand span) :: operand.nodes
  | .assignment op target value span =>
    .expression (.assignment op target value span) :: (target.nodes ++ value.nodes)
  | .ternary condition thenValue elseValue span =>
    .expression (.ternary condition thenValue elseValue span) ::
      (condition.nodes ++ thenValue.nodes ++ elseValue.nodes)
  | .elvis value default span =>
    .expression (.elvis value default span) :: (value.nodes ++ default.nodes)
  | .paren inner span => .expression (.paren inner span) :: inner.nodes
  | .call callee args span =>
    .expression (.call callee args span) :: (callee.nodes ++ argumentNodes args)
  | .member object property safe span =>
    .expression (.member object property safe span) :: object.nodes
  | .index object index span =>
    .expression (.index object index span) :: (object.nodes ++ index.nodes)
  | .array items span => .expression (.array items span) :: expressionNodes items
  | .struct entries span => .expression (.struct entries span) :: entryNodes entries
  | .new className args span => .expression (.new className args span) :: argumentNodes args
  | .function arrow params body span =>
    .expression (.function arrow params body span) :: (parameterNodes params ++ statementNodes body)
  | .lambda arrow params value span =>
    .expression (.lambda arrow params value span) :: (parameterNodes params ++ value.nodes)

/-- The nodes of expressions. -/
def expressionNodes : List Expression → List Node
  | [] => []
  | e :: es => e.nodes ++ expressionNodes es

/-- The nodes of an expression, if there is one. -/
def expressionNodes? : Option Expression → List Node
  | none => []
  | some e => e.nodes

/-- The nodes of arguments. -/
def argumentNodes : List (Argument Expression) → List Node
  | [] => []
  | ⟨_, value⟩ :: args => value.nodes ++ argumentNodes args

/-- The nodes of the entries of a struct. -/
def entryNodes : List (StructEntry Expression) → List Node
  | [] => []
  | ⟨key, _, value⟩ :: entries => key.nodes ++ value.nodes ++ entryNodes entries

/-- The nodes of the values of attributes. -/
def valueNodes : List (Attribute Expression) → List Node
  | [] => []
  | ⟨_, value⟩ :: rest => value.nodes ++ valueNodes rest

/-- The nodes of the values in a map. -/
def AttributeMap.nodes : AttributeMap Expression → List Node
  | ⟨entries⟩ => valueNodes entries

/-- The nodes of parameters: those of a default, then those of the attributes. -/
def parameterNodes : List (Parameter Expression) → List Node
  | [] => []
  | ⟨_, _, _, default?, attributes⟩ :: params =>
    expressionNodes? default? ++ attributes.nodes ++ parameterNodes params

/-- The nodes of the attributes of a property. -/
def propertyNodes : Property Expression → List Node
  | ⟨_, attributes⟩ => attributes.nodes

/-- The statement and all expressions and statements in it. -/
def Statement.nodes : Statement → List Node
  | .script body span => .statement (.script body span) :: statementNodes body
  | .block body span => .statement (.block body span) :: statementNodes body
  | .expression value span => .statement (.expression value span) :: value.nodes
  | .declare name value? span => .statement (.declare name value? span) :: expressionNodes? value?
  | .branch condition thenBranch elseBranch? span =>
    .statement (.branch condition thenBranch elseBranch? span) ::
      (condition.nodes ++ thenBranch.nodes ++ statementNodes? elseBranch?)
  | .whileLoop condition body span =>
    .statement (.whileLoop condition body span) :: (condition.nodes ++ body.nodes)
  | .doLoop body condition span =>
    .statement (.doLoop body condition span) :: (body.nodes ++ condition.nodes)
  | .forLoop init? condition? update? body span =>
    .statement (.forLoop init? condition? update? body span) ::
      (statementNodes? init? ++ expressionNodes? condition? ++ expressionNodes? update? ++ body.nodes)
  | .eachLoop var target collection body span =>
    .statement (.eachLoop var target collection body span) ::
      (target.nodes ++ collection.nodes ++ body.nodes)
  | .select subject cases default? span =>
    .statement (.select subject cases default? span) ::
      (subject.nodes ++ caseNodes cases ++ bodyNodes? default?)
  | .breakLoop span => [.statement (.breakLoop span)]
  | .continueLoop span => [.statement (.continueLoop span)]
  | .returnValue value? span =>
    .statement (.returnValue value? span) :: expressionNodes? value?
  | .throwValue value? span => .statement (.throwValue value? span) :: expressionNodes? value?
  | .abort value? span => .statement (.abort value? span) :: expressionNodes? value?
  | .includeFile value span => .statement (.includeFile value span) :: value.nodes
  | .importPath path span => [.statement (.importPath path span)]
  | .tryCatch body catches finally? span =>
    .statement (.tryCatch body catches finally? span) ::
      (statementNodes body ++ catchNodes catches ++ bodyNodes? finally?)
  | .function modifiers returnType? name params attributes body? span =>
    .statement (.function modifiers returnType? name params attributes body? span) ::
      (parameterNodes params ++ attributes.nodes ++ bodyNodes? body?)
  | .component kind attributes body span =>
    .statement (.component kind attributes body span) :: (attributes.nodes ++ statementNodes body)
  | .property declaration span =>
    .statement (.property declaration span) :: propertyNodes declaration
  | .tag kind attributes body? span =>
    .statement (.tag kind attributes body? span) :: (attributes.nodes ++ bodyNodes? body?)

/-- The nodes of statements. -/
def statementNodes : List Statement → List Node
  | [] => []
  | s :: ss => s.nodes ++ statementNodes ss

/-- The nodes of a statement, if there is one. -/
def statementNodes? : Option Statement → List Node
  | none => []
  | some s => s.nodes

/-- The nodes of a list of statements, if there is one. -/
def bodyNodes? : Option (List Statement) → List Node
  | none => []
  | some body => statementNodes body

/-- The nodes of the cases of a `switch`. -/
def caseNodes : List (SwitchCase Expression Statement) → List Node
  | [] => []
  | ⟨value, body⟩ :: cases => value.nodes ++ statementNodes body ++ caseNodes cases

/-- The nodes of `catch` clauses. -/
def catchNodes : List (CatchClause Statement) → List Node
  | [] => []
  | ⟨_, _, body⟩ :: catches => statementNodes body ++ catchNodes catches

end

theorem expressionNodes_eq (es : List Expression) : expressionNodes es = es.flatMap (·.nodes) := by
  induction es with
  | nil => rfl
  | cons e es ih => rw [expressionNodes, ih, List.flatMap_cons]

theorem argumentNodes_eq (args : List (Argument Expression)) :
    argumentNodes args = args.flatMap (·.value.nodes) := by
  induction args with
  | nil => rfl
  | cons a args ih => rw [argumentNodes, ih, List.flatMap_cons]

theorem entryNodes_eq (entries : List (StructEntry Expression)) :
    entryNodes entries = entries.flatMap fun e => e.key.nodes ++ e.value.nodes := by
  induction entries with
  | nil => rfl
  | cons e entries ih => rw [entryNodes, ih, List.flatMap_cons]

theorem valueNodes_eq (as : List (Attribute Expression)) :
    valueNodes as = as.flatMap (·.value.nodes) := by
  induction as with
  | nil => rfl
  | cons a as ih => rw [valueNodes, ih, List.flatMap_cons]

theorem AttributeMap.nodes_eq (map : AttributeMap Expression) :
    map.nodes = map.entries.flatMap (·.value.nodes) := by
  obtain ⟨entries⟩ := map
  exact valueNodes_eq entries

/-- The nodes of a parameter: those of its default, then those of its attributes. -/
def Parameter.nodes (p : Parameter Expression) : List Node :=
  expressionNodes? p.default? ++ p.attributes.nodes

theorem parameterNodes_eq (params : List (Parameter Expression)) :
    parameterNodes params = params.flatMap (·.nodes) := by
  induction params with
  | nil => rfl
  | cons p params ih => rw [parameterNodes, ih, List.flatMap_cons, Parameter.nodes]

theorem statementNodes_eq (ss : List Statement) : statementNodes ss = ss.flatMap (·.nodes) := by
  induction ss with
  | nil => rfl
  | cons s ss ih => rw [statementNodes, ih, List.flatMap_cons]

theorem catchNodes_eq (catches : List (CatchClause Statement)) :
    catchNodes catches = catches.flatMap (statementNodes ·.body) := by
  induction catches with
  | nil => rfl
  | cons c catches ih => rw [catchNodes, ih, List.flatMap_cons]

namespace Node

/-- The node as a statement. -/
def statement? : Node → Option Statement
  | expression _ => none
  | statement s => some s

/-- The findings about the attributes that stand at the node. -/
def validate (rules : AttributeRules) : Node → List Diagnostic
  | expression _ => []
  | statement s => s.validate rules

end Node

/-- The statement and all statements in it, at every depth. -/
def Statement.statements (s : Statement) : List Statement := s.nodes.filterMap (·.statement?)

/-! ## Texts -/

/-- A text that stands at a node. -/
inductive Written where
  /-- The name of a variable, a member, an argument or an attribute, the name of a type, or the
  digits of a number. -/
  | name (text : String)
  /-- The name of a class or the path of an import. -/
  | path (text : String)
  /-- What stands between quotes. -/
  | quoted (text : String) (quote : Quote)
deriving DecidableEq

namespace Written

/-- The text of a string of tokens. -/
def ofTokens (ts : List Token) : String := String.join (ts.map (·.lexeme))

/-- Whether the text comes from the tokens: a name or a path is the lexemes of one or more of them
that stand side by side, and a string is a token without its quotes. -/
def DrawnFrom (tokens : List Token) : Written → Prop
  | name text | path text => text ≠ "" ∧ ∃ ts, ts <:+: tokens ∧ text = ofTokens ts
  | quoted text quote =>
    ∃ t ∈ tokens, t.kind = .string ∧ t.lexeme.toList = quote.char :: (text.toList ++ [quote.char])

end Written

/-- The name as a text. -/
def Identifier.written (id : Identifier) : Written := .name id.name

/-- The names in a map as texts. -/
def AttributeMap.texts (map : AttributeMap Expression) : List Written :=
  map.entries.map (·.name.written)

/-- The names of an argument as texts. -/
def Argument.texts (a : Argument Expression) : List Written := a.name?.toList.map (·.written)

/-- The names of a parameter as texts: its type, its own name and those of its attributes. -/
def Parameter.texts (p : Parameter Expression) : List Written :=
  p.type?.toList.map (·.written) ++ p.name.written :: p.attributes.texts

/-- The names of a `catch` clause as texts: the type of the exception and the variable. -/
def CatchClause.texts (c : CatchClause Statement) : List Written :=
  c.type?.toList.map .name ++ [c.name.written]

/-- The names of a property as texts. -/
def Property.texts (p : Property Expression) : List Written :=
  p.name?.toList.map (·.written) ++ p.type?.toList.map (·.written) ++ p.attributes.texts

namespace Node

/-- The texts that stand at the node itself, not at a node in it. -/
def texts : Node → List Written
  | expression (.identifier id _) => [id.written]
  | expression (.string text quote _) => [.quoted text quote]
  | expression (.number text _) => [.name text]
  | expression (.call _ args _) => args.flatMap (·.texts)
  | expression (.member _ property _ _) => [property.written]
  | expression (.new className args _) => .path className :: args.flatMap (·.texts)
  | expression (.function _ params _ _) => params.flatMap (·.texts)
  | expression (.lambda _ params _ _) => params.flatMap (·.texts)
  | expression _ => []
  | statement (.declare name _ _) => [name.written]
  | statement (.importPath path _) => [.path path]
  | statement (.tryCatch _ catches _ _) => catches.flatMap (·.texts)
  | statement (.function modifiers returnType? name params attributes _ _) =>
    modifiers.map (·.written) ++ returnType?.toList.map (·.written) ++ [name.written] ++
      params.flatMap (·.texts) ++ attributes.texts
  | statement (.component _ attributes _ _) => attributes.texts
  | statement (.property declaration _) => declaration.texts
  | statement (.tag _ attributes _ _) => attributes.texts
  | statement _ => []

end Node

end CfScript
