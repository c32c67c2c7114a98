import CfScript.Build.Reading

/-!
# Building expressions

A token gives a literal or a name, and each rule for expressions gives its node from the parts of the
branch. Of two things wrong with an expression the first one that is looked at is reported: the
operator of an assignment, of a unary and of a binary expression comes before the operands.

## Main results

* `stringText_quoted`: what stands between two quotes is the text of the string.
-/

namespace CfScript.Build

/-- The quote of a string lexeme: a lexeme that does not start with a single quote is taken for one in
double quotes. -/
def quoteOf (lexeme : List Char) : Quote := if lexeme.head? = some '\'' then .single else .double

/-- The characters between two quotes. -/
def stringText (quote : Char) : List Char → Option (List Char)
  | [] => none
  | c :: cs => if c = quote ∧ cs.getLast? = some quote then some cs.dropLast else none

/-- The string of a token. -/
def string (t : Token) : Build Expression :=
  let quote := quoteOf t.lexeme.toList
  match stringText quote.char t.lexeme.toList with
  | some text => pure (.string (String.ofList text) quote t.span)
  | none => throw (.unexpected "closed string" t.lexeme t.span)

/-- The expression of a token. -/
def tokenExpression (t : Token) : Build Expression :=
  match t.kind with
  | .integer => pure (.number t.lexeme t.span)
  | .float => pure (.number t.lexeme t.span)
  | .string => string t
  | .keyword .true_ => pure (.boolean true t.span)
  | .keyword .false_ => pure (.boolean false t.span)
  | .keyword .null => pure (.null t.span)
  | kind =>
    if kind.isWord then pure (.ofIdentifier (wordIdentifier t))
    else throw (.unexpected "expression" ("'" ++ t.lexeme ++ "'") t.span)

/-- The expression of a leaf. -/
def leafExpression : Leaf → Build Expression
  | .matched t => tokenExpression t
  | .skipped t => throw (.unexpected "expression" ("'" ++ t.lexeme ++ "'") t.span)
  | .assumed what => throw (.missing what .dummy)

/-- An argument, under a name if an equals sign follows the first part. -/
def argument (b : Branch) : Build (Argument Expression) := do
  if b.parts[1]?.any (·.isToken (.symbol .assign)) then
    let name ← identifier "argument name" (← b.child 0)
    return ⟨some name, ← b.childExpression 2⟩
  else return ⟨none, ← b.childExpression 0⟩

/-- The arguments in a branch; without a list there are none. -/
def arguments (b : Branch) : Build (List (Argument Expression)) :=
  match b.node? .argumentList with
  | some list => all argument (list.nodes .argument)
  | none => pure []

/-- The key of a struct entry. A bare word is a name, whatever it means elsewhere. -/
def key (r : Reading) : Build Expression :=
  match r.token? with
  | some t => if t.kind.isWord then pure (.ofIdentifier (wordIdentifier t)) else r.expression
  | none => r.expression

/-- An entry of a struct. -/
def structEntry (b : Branch) : Build (StructEntry Expression) := do
  let key ← key (← b.child 0)
  let separator := if (← b.child 1).isToken (.symbol .assign) then .equals else .colon
  return ⟨key, separator, ← b.childExpression 2⟩

/-- The operator of a binary expression: the tokens between its first and its last part. -/
def binaryOperator (b : Branch) (between : List Reading) : Build BinaryOp :=
  let tokens := between.filterMap (·.token?)
  match BinaryOp.ofKinds? (tokens.map (·.kind)) with
  | some op => pure op
  | none => throw (.unknownOperator (String.intercalate " " (tokens.map (·.lexeme))) b.span)

/-- A binary expression: the first part, an operator and the last part. -/
def binary (b : Branch) : Build Expression :=
  match b.parts with
  | first :: second :: rest => do
    let more := second :: rest
    let op ← binaryOperator b more.dropLast
    let left ← first.expression
    let right ← (more.getLast?.getD second).expression
    return .binary op left right b.span
  | _ => throw (.missingPart b.rule b.tree)

/-- The parameters of an arrow function: one word, or a list. -/
def arrowParameters (r : Reading) : Build (List (Parameter Expression)) :=
  match r.token?, r.branchOf? .parameterList with
  | some t, _ =>
    if t.kind.isWord then pure [{ name := wordIdentifier t }]
    else throw (.unexpectedTree "arrow function parameters" r.tree)
  | none, some list => all parameter (list.nodes .parameter)
  | none, none => throw (.unexpectedTree "arrow function parameters" r.tree)

/-- An arrow function; its body is the last part, a block or an expression. -/
def arrow (b : Branch) : Build Expression := do
  let first ← b.child 0
  let params ← arrowParameters first
  let last := b.parts.getLast?.getD first
  match last.branchOf? .block with
  | some block => return .function true params (← statements block.parts) b.span
  | none => return .lambda true params (← last.expression) b.span

/-- The expression of a branch. -/
def branchExpression (b : Branch) : Build Expression :=
  match b.rule with
  | .assignmentExpression => do
    let op ← operator "assignment operator" AssignOp.ofKind? (← b.child 1)
    return .assignment op (← b.childExpression 0) (← b.childExpression 2) b.span
  | .ternaryExpression =>
    return .ternary (← b.childExpression 0) (← b.childExpression 2) (← b.childExpression 4) b.span
  | .elvisExpression => return .elvis (← b.childExpression 0) (← b.childExpression 2) b.span
  | .binaryExpression => binary b
  | .unaryExpression => do
    let op ← operator "unary operator" UnaryOp.ofKind? (← b.child 0)
    return .unary op (← b.childExpression 1) b.span
  | .postfixExpression => do
    let sign ← b.child 1
    match sign.token?.bind fun t => PostfixOp.ofKind? t.kind with
    | some op => return .postfixOp op (← b.childExpression 0) b.span
    | none => throw (.unexpectedTree "'++' or '--'" sign.tree)
  | .parenExpression => return .paren (← b.childExpression 1) b.span
  | .callExpression => return .call (← b.childExpression 0) (← arguments b) b.span
  | .memberExpression => do
    let safe := (← b.child 1).isToken (.symbol .safeDot)
    let object ← b.childExpression 0
    return .member object (← identifier "member name" (← b.child 2)) safe b.span
  | .indexExpression => return .index (← b.childExpression 0) (← b.childExpression 2) b.span
  | .arrayLiteral => return .array (← all (·.expression) b.operands) b.span
  | .structLiteral => return .struct (← all structEntry (b.nodes .structEntry)) b.span
  | .newExpression => do
    let className ← path "class name" (← b.child 1)
    return .new className (← arguments b) b.span
  | .functionExpression => return .function false (← parameters b) (← block b) b.span
  | .arrowFunction => arrow b
  | rule => throw (.unexpected "expression" rule.name b.span)

theorem stringText_quoted (quote : Char) (text : List Char) :
    stringText quote (quote :: (text ++ [quote])) = some text := by
  simp [stringText]

end CfScript.Build
