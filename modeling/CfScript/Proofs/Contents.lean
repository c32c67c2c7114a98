import CfScript.Proofs.Nodes
import CfScript.Proofs.TreeSpans

/-!
# What a node of a program holds

A node of a program holds expressions, statements and names. Some stand in arguments, parameters,
attributes or clauses, which are no nodes of their own: so what stands there is held by the node around
them. All nodes below a node are nodes of what it holds.

A node *nests* if all that it holds stands in it. Contents *fit* a span if they stand in it and every
node in them nests. A node whose contents fit its span fits it too, and this is how programs come to
nest from the inside to the outside.

## Main results

* `Expression.nodes_eq`, `Statement.nodes_eq`: all nodes below a node are those of its contents;
* `Content.fits_expression`, `Content.fits_statement`: a node fits its span if its contents do.
-/

namespace CfScript

/-- What a node may hold. -/
inductive Content where
  | expression (e : Expression)
  | statement (s : Statement)
  | name (id : Identifier)

namespace Content

/-- Where it stands. -/
def span : Content → Span
  | expression e => e.span
  | statement s => s.span
  | name id => id.span

/-- The nodes of it; a name has none. -/
def nodes : Content → List Node
  | expression e => e.nodes
  | statement s => s.nodes
  | name _ => []

end Content

/-! ## Contents of nodes -/

/-- The contents of a map: each name, and its value. -/
def AttributeMap.contents (map : AttributeMap Expression) : List Content :=
  map.entries.flatMap fun a => [.name a.name, .expression a.value]

/-- The contents of an argument: its name and its value. -/
def Argument.contents (a : Argument Expression) : List Content :=
  a.name?.toList.map .name ++ [.expression a.value]

/-- The contents of an entry of a struct: its key and its value. -/
def StructEntry.contents (e : StructEntry Expression) : List Content :=
  [.expression e.key, .expression e.value]

/-- The contents of a parameter: its type, its name, its default and its attributes. -/
def Parameter.contents (p : Parameter Expression) : List Content :=
  p.type?.toList.map .name ++ .name p.name :: (p.default?.toList.map .expression ++ p.attributes.contents)

/-- The contents of a case: its value and its statements. -/
def SwitchCase.contents (c : SwitchCase Expression Statement) : List Content :=
  .expression c.value :: c.body.map .statement

/-- The contents of a `catch` clause: the variable and the statements. -/
def CatchClause.contents (c : CatchClause Statement) : List Content :=
  .name c.name :: c.body.map .statement

/-- The contents of a property: its name, its type and its attributes. -/
def Property.contents (p : Property Expression) : List Content :=
  p.name?.toList.map .name ++ p.type?.toList.map .name ++ p.attributes.contents

/-- The contents of a body that may be absent. -/
def bodyContents (body? : Option (List Statement)) : List Content := (body?.getD []).map .statement

/-- What an expression holds. -/
def Expression.contents : Expression → List Content
  | .identifier id _ => [.name id]
  | .string .. | .number .. | .boolean .. | .null _ => []
  | .binary _ left right _ => [.expression left, .expression right]
  | .unary _ operand _ => [.expression operand]
  | .postfixOp _ operand _ => [.expression operand]
  | .assignment _ target value _ => [.expression target, .expression value]
  | .ternary condition thenValue elseValue _ =>
    [.expression condition, .expression thenValue, .expression elseValue]
  | .elvis value default _ => [.expression value, .expression default]
  | .paren inner _ => [.expression inner]
  | .call callee args _ => .expression callee :: args.flatMap (·.contents)
  | .member object property _ _ => [.expression object, .name property]
  | .index object place _ => [.expression object, .expression place]
  | .array items _ => items.map .expression
  | .struct entries _ => entries.flatMap (·.contents)
  | .new _ args _ => args.flatMap (·.contents)
  | .function _ params body _ => params.flatMap (·.contents) ++ body.map .statement
  | .lambda _ params value _ => params.flatMap (·.contents) ++ [.expression value]

/-- What a statement holds. -/
def Statement.contents : Statement → List Content
  | .script body _ => body.map .statement
  | .block body _ => body.map .statement
  | .expression value _ => [.expression value]
  | .declare name value? _ => .name name :: value?.toList.map .expression
  | .branch condition thenBranch elseBranch? _ =>
    .expression condition :: .statement thenBranch :: elseBranch?.toList.map .statement
  | .whileLoop condition body _ => [.expression condition, .statement body]
  | .doLoop body condition _ => [.statement body, .expression condition]
  | .forLoop init? condition? update? body _ =>
    init?.toList.map .statement ++ condition?.toList.map .expression ++
      update?.toList.map .expression ++ [.statement body]
  | .eachLoop _ target collection body _ =>
    [.expression target, .expression collection, .statement body]
  | .select subject cases default? _ =>
    .expression subject :: (cases.flatMap (·.contents) ++ bodyContents default?)
  | .breakLoop _ | .continueLoop _ | .importPath .. => []
  | .returnValue value? _ => value?.toList.map .expression
  | .throwValue value? _ => value?.toList.map .expression
  | .abort value? _ => value?.toList.map .expression
  | .includeFile value _ => [.expression value]
  | .tryCatch body catches finally? _ =>
    body.map .statement ++ catches.flatMap (·.contents) ++ bodyContents finally?
  | .function modifiers returnType? name params attributes body? _ =>
    modifiers.map .name ++ returnType?.toList.map .name ++ .name name ::
      (params.flatMap (·.contents) ++ attributes.contents ++ bodyContents body?)
  | .component _ attributes body _ => attributes.contents ++ body.map .statement
  | .property declaration _ => declaration.contents
  | .tag _ attributes body? _ => attributes.contents ++ bodyContents body?

namespace Node

/-- Where the node stands. -/
def span : Node → Span
  | expression e => e.span
  | statement s => s.span

/-- What the node holds. -/
def contents : Node → List Content
  | expression e => e.contents
  | statement s => s.contents

/-- Whether all that the node holds stands in it. -/
def Nests (n : Node) : Prop := ∀ c ∈ n.contents, c.span.Inside n.span

end Node

/-! ## Nodes of contents -/

/-- The nodes of contents. -/
def allNodes (cs : List Content) : List Node := cs.flatMap (·.nodes)

section

variable {α : Type} (xs : List α) (cs ds : List Content)

theorem allNodes_nil : allNodes [] = [] := rfl

theorem allNodes_cons (c : Content) : allNodes (c :: cs) = c.nodes ++ allNodes cs := List.flatMap_cons

theorem allNodes_append : allNodes (cs ++ ds) = allNodes cs ++ allNodes ds := List.flatMap_append

theorem allNodes_map (f : α → Content) : allNodes (xs.map f) = xs.flatMap fun x => (f x).nodes :=
  List.flatMap_map ..

theorem allNodes_flatMap (f : α → List Content) :
    allNodes (xs.flatMap f) = xs.flatMap fun x => allNodes (f x) := List.flatMap_assoc

end

attribute [local simp] Content.nodes allNodes_nil allNodes_cons allNodes_append

theorem allNodes_names (ids : List Identifier) : allNodes (ids.map .name) = [] := by
  simp [allNodes_map]

theorem allNodes_expressions (es : List Expression) :
    allNodes (es.map .expression) = expressionNodes es := by
  simp [allNodes_map, expressionNodes_eq]

theorem expressionNodes_toList (e? : Option Expression) :
    expressionNodes e?.toList = expressionNodes? e? := by
  cases e? <;> simp [expressionNodes, expressionNodes?]

theorem allNodes_statements (ss : List Statement) :
    allNodes (ss.map .statement) = statementNodes ss := by
  simp [allNodes_map, statementNodes_eq]

theorem statementNodes_toList (s? : Option Statement) :
    statementNodes s?.toList = statementNodes? s? := by
  cases s? <;> simp [statementNodes, statementNodes?]

theorem allNodes_body (body? : Option (List Statement)) :
    allNodes (bodyContents body?) = bodyNodes? body? := by
  cases body? with
  | none => rfl
  | some body => exact allNodes_statements body

attribute [local simp] allNodes_names allNodes_expressions allNodes_statements allNodes_body
  expressionNodes_toList statementNodes_toList

theorem allNodes_attributes (map : AttributeMap Expression) : allNodes map.contents = map.nodes := by
  simp [AttributeMap.contents, AttributeMap.nodes_eq, allNodes_flatMap]

theorem allNodes_arguments (args : List (Argument Expression)) :
    allNodes (args.flatMap (·.contents)) = argumentNodes args := by
  simp [argumentNodes_eq, Argument.contents, allNodes_flatMap]

theorem allNodes_entries (entries : List (StructEntry Expression)) :
    allNodes (entries.flatMap (·.contents)) = entryNodes entries := by
  simp [entryNodes_eq, StructEntry.contents, allNodes_flatMap]

theorem allNodes_parameters (params : List (Parameter Expression)) :
    allNodes (params.flatMap (·.contents)) = parameterNodes params := by
  simp [parameterNodes_eq, Parameter.contents, Parameter.nodes, allNodes_flatMap, allNodes_attributes]

theorem allNodes_cases (cases : List (SwitchCase Expression Statement)) :
    allNodes (cases.flatMap (·.contents)) = caseNodes cases := by
  induction cases with
  | nil => rfl
  | cons c cases ih =>
    rw [List.flatMap_cons, allNodes_append, ih]
    simp [caseNodes, SwitchCase.contents]

theorem allNodes_catches (catches : List (CatchClause Statement)) :
    allNodes (catches.flatMap (·.contents)) = catchNodes catches := by
  simp [catchNodes_eq, CatchClause.contents, allNodes_flatMap]

theorem allNodes_property (p : Property Expression) : allNodes p.contents = propertyNodes p := by
  obtain ⟨form, attributes⟩ := p
  simp [Property.contents, allNodes_attributes, propertyNodes]

attribute [local simp] allNodes_attributes allNodes_arguments allNodes_entries allNodes_parameters
  allNodes_cases allNodes_catches allNodes_property

theorem Expression.nodes_eq (e : Expression) : e.nodes = .expression e :: allNodes e.contents := by
  cases e <;> simp [Expression.nodes, Expression.contents]

theorem Statement.nodes_eq (s : Statement) : s.nodes = .statement s :: allNodes s.contents := by
  cases s <;> simp [Statement.nodes, Statement.contents]

/-! ## Contents in a span -/

namespace Content

/-- Whether it stands in the span, and all nodes in it nest. -/
structure Fits (c : Content) (s : Span) : Prop where
  inside : c.span.Inside s
  nests : ∀ n ∈ c.nodes, n.Nests

/-- Whether all of them fit the span. -/
def AllFit (cs : List Content) (s : Span) : Prop := ∀ c ∈ cs, c.Fits s

variable {α : Type} {c : Content} {cs ds : List Content} {s t : Span}

@[simp] theorem allFit_nil : AllFit [] s := nofun

@[simp] theorem allFit_cons : AllFit (c :: cs) s ↔ c.Fits s ∧ AllFit cs s := List.forall_mem_cons

@[simp] theorem allFit_append : AllFit (cs ++ ds) s ↔ AllFit cs s ∧ AllFit ds s :=
  List.forall_mem_append

@[simp] theorem allFit_map {f : α → Content} {xs : List α} :
    AllFit (xs.map f) s ↔ ∀ x ∈ xs, (f x).Fits s := List.forall_mem_map

@[simp] theorem allFit_flatMap {f : α → List Content} {xs : List α} :
    AllFit (xs.flatMap f) s ↔ ∀ x ∈ xs, AllFit (f x) s := by
  simp only [AllFit, List.mem_flatMap]
  exact ⟨fun h x hx c hc => h c ⟨x, hx, hc⟩, fun h c ⟨x, hx, hc⟩ => h x hx c hc⟩

theorem Fits.mono (h : c.Fits s) (hst : s.Within t) : c.Fits t := ⟨hst c.span h.inside, h.nests⟩

theorem AllFit.mono (h : AllFit cs s) (hst : s.Within t) : AllFit cs t := fun c hc => (h c hc).mono hst

/-- A name that stands in a span fits it. -/
theorem fits_name {id : Identifier} (h : id.span.Inside s) : (name id).Fits s := ⟨h, nofun⟩

/-- An expression fits its span if what it holds does. -/
theorem fits_expression {e : Expression} (hSpan : e.span = s) (hFilled : s.IsFilled)
    (h : AllFit e.contents s) : (expression e).Fits s := by
  subst hSpan
  refine ⟨hFilled.inside, ?_⟩
  rw [nodes, Expression.nodes_eq]
  refine List.forall_mem_cons.2 ⟨fun c hc => (h c hc).inside, fun n hn => ?_⟩
  obtain ⟨c, hc, hn⟩ := List.mem_flatMap.1 hn
  exact (h c hc).nests n hn

/-- A statement fits its span if what it holds does. -/
theorem fits_statement {b : Statement} (hSpan : b.span = s) (hFilled : s.IsFilled)
    (h : AllFit b.contents s) : (statement b).Fits s := by
  subst hSpan
  refine ⟨hFilled.inside, ?_⟩
  rw [nodes, Statement.nodes_eq]
  refine List.forall_mem_cons.2 ⟨fun c hc => (h c hc).inside, fun n hn => ?_⟩
  obtain ⟨c, hc, hn⟩ := List.mem_flatMap.1 hn
  exact (h c hc).nests n hn

/-- An expression that fits a span still does as a statement that stands where it stands. -/
theorem fits_bare {e : Expression} (h : (expression e).Fits s) :
    (statement (.expression e e.span)).Fits s := by
  have hSelf : (expression e).Fits e.span := ⟨h.inside.filled.inside, h.nests⟩
  have hFits : (statement (.expression e e.span)).Fits e.span :=
    fits_statement rfl h.inside.filled (by simpa [Statement.contents] using hSelf)
  exact ⟨h.inside, hFits.nests⟩

end Content

end CfScript
