import CfScript.Build.Expression

/-!
# Building statements

Each rule for statements gives its node from the parts of the branch. The statements in a block, a
case or a clause are built one by one, so that one that cannot be built is left out alone.

## Main results

* `statement_emptyStatement`: an empty statement by itself is an empty block.
-/

namespace CfScript.Build

/-- The value after the keyword of a statement, if there is one. -/
def valueAfterKeyword (b : Branch) : Build (Option Expression) :=
  optional (·.expression) b.operands[1]?

/-- `var name = value`. -/
def declaration (b : Branch) : Build Statement := do
  let name ← identifier "variable name" (← b.operand 1)
  let value? ←
    if b.operands[2]?.any (·.isToken (.symbol .assign)) then some <$> b.operandExpression 3
    else pure none
  return .declare name value? b.span

/-- `if (condition) statement else statement`. -/
def branching (b : Branch) : Build Statement := do
  let condition ← b.operandExpression 1
  let thenBranch ← b.operandStatement 2
  let elseBranch? ←
    if b.operands[3]?.any (·.isToken (.keyword .else_)) then some <$> b.operandStatement 4
    else pure none
  return .branch condition thenBranch elseBranch? b.span

/-- `do statement while (condition)`; the condition is the last operand. -/
def doLoop (b : Branch) : Build Statement := do
  let body ← b.operandStatement 1
  match b.operands with
  | _ :: _ :: c :: rest =>
    let condition ← (rest.getLast?.getD c).expression
    return .doLoop body condition b.span
  | _ => throw (.missing "condition" b.span)

/-- Whether a part ends a clause of a loop header. -/
def endsClause (r : Reading) : Bool := r.isToken (.symbol .semicolon) || r.isAssumption "';'"

/-- Whether a part ends a loop header. -/
def endsHeader (r : Reading) : Bool := r.isToken (.symbol .rParen) || r.isAssumption "')'"

/-- The clauses of a loop header: the last operand before each semicolon and before the end. -/
def clauses : List Reading → Option Reading → List (Option Reading)
  | [], clause? => [clause?]
  | r :: rest, clause? =>
    if endsClause r then clause? :: clauses rest none
    else if endsHeader r then [clause?]
    else if r.isFiller then clauses rest clause?
    else clauses rest (some r)

/-- The first clause of a loop header: a declaration or an expression. -/
def loopStart (r : Reading) : Build Statement :=
  if r.rule? = some .varStatement then r.statement
  else do
    let value ← r.expression
    return .expression value value.span

/-- `for (start; condition; update) statement`. An empty clause is not there. -/
def forLoop (b : Branch) : Build Statement :=
  match b.parts.getLast? with
  | none => throw (.missing "loop body" b.span)
  | some body => do
    let header := clauses (b.parts.dropLast.drop 2) none
    let clause (i : Nat) : Option Reading := header[i]?.join
    let init? ← optional loopStart (clause 0)
    let condition? ← optional (·.expression) (clause 1)
    let update? ← optional (·.expression) (clause 2)
    return .forLoop init? condition? update? (← body.statement) b.span

/-- `for (var target in collection) statement`. -/
def eachLoop (b : Branch) : Build Statement := do
  let var := b.operands[1]?.any (·.isToken (.keyword .var))
  let first := if var then 2 else 1
  let target ← b.operandExpression first
  let second := if b.operands[first + 1]?.any (·.isToken (.keyword .in_)) then first + 2
    else first + 1
  let collection ← b.operandExpression second
  return .eachLoop var target collection (← b.operandStatement (second + 1)) b.span

/-- The cases of a `switch` and its first `default` clause. -/
def switchClauses : List Branch → Option (List Statement) →
    Build (List (SwitchCase Expression Statement) × Option (List Statement))
  | [], default? => pure ([], default?)
  | b :: rest, default? => do
    match b.rule, default? with
    | .caseClause, _ =>
      let value ← b.childExpression 1
      let body ← statements (b.parts.drop 2)
      let (cases, default?) ← switchClauses rest default?
      return (⟨value, body⟩ :: cases, default?)
    | .defaultClause, none =>
      let body ← statements (b.parts.drop 1)
      switchClauses rest (some body)
    | _, _ => switchClauses rest default?

/-- `switch (subject) { clauses }`. -/
def select (b : Branch) : Build Statement := do
  let subject ← b.operandExpression 1
  let (cases, default?) ← switchClauses (b.parts.filterMap (·.branch?)) none
  return .select subject cases default? b.span

/-- `catch (type name) { statements }`; the type may be left out. -/
def catchClause (b : Branch) : Build (CatchClause Statement) := do
  let type? := (b.operands[1]?.bind (·.branchOf? .typeName)).map (·.tree.text)
  match b.operands[if type?.isSome then 2 else 1]? with
  | none => throw (.missing "exception variable" b.span)
  | some r =>
    let name ← identifier "exception variable" r
    return ⟨type?, name, ← block b⟩

/-- `try { statements }` with its clauses. -/
def tryStatement (b : Branch) : Build Statement := do
  let body ← block b
  let catches ← all catchClause (b.nodes .catchClause)
  let finally? ← optional block (b.node? .finallyClause)
  return .tryCatch body catches finally? b.span

/-- A component or an interface. -/
def component (kind : ComponentKind) (b : Branch) : Build Statement := do
  let map ← attributes (.component kind) b
  return .component kind map ((← block? b).getD []) b.span

/-- A tag with its attributes, and its block if it has one. -/
def tag (b : Branch) : Build Statement := do
  let first ← b.child 0
  match first.token?.bind fun t => TagKind.ofWord? t.lexeme with
  | none => throw (.unexpectedTree "tag keyword" first.tree)
  | some kind =>
    let map ← attributes (.tag kind) b
    return .tag kind map (← block? b) b.span

/-- The type before the name of a short property, and the part where the name stands. -/
def propertyHead : List Reading → Option Identifier × Option Reading
  | [] => (none, none)
  | first :: rest =>
    match first.branchOf? .typeName, rest with
    | some type, name :: _ => (some type.identifier, some name)
    | _, _ => (none, some first)

/-- `property type name` with attributes; the type may be left out. -/
def shortProperty (b : Branch) : Build Statement := do
  let parts := (b.operands.drop 1).filter (·.rule? != some .attribute)
  let (type?, first?) := propertyHead parts
  match first? with
  | none => throw (.missingPropertyName b.span)
  | some r =>
    if r.isAssumed then throw (.missingPropertyName b.span)
    let name ← identifier "property name" r
    let map ← attributes .property b
    return .property ⟨.short name type?, map⟩ b.span

/-- What stands before the name of a function. -/
structure FunctionHead where
  modifiers : List Identifier
  returnType? : Option Identifier
  /-- The parts after the keyword. -/
  rest : List Reading

/-- The modifiers and the last return type before the keyword `function`; `returnType?` is the return
type so far. -/
def functionHead (returnType? : Option Identifier) : List Reading → Build FunctionHead
  | [] => pure ⟨[], returnType?, []⟩
  | r :: rest =>
    if r.isToken (.keyword .function) || r.isAssumed then pure ⟨[], returnType?, rest⟩
    else
      match r.token?, r.branchOf? .returnType with
      | some t, _ => do
        let head ← functionHead returnType? rest
        return { head with modifiers := wordIdentifier t :: head.modifiers }
      | none, some type => functionHead ((type.node? .typeName).map (·.identifier)) rest
      | none, none => throw (.unexpectedTree "'function'" r.tree)

/-- A named function. Without a block it is a signature. -/
def function (b : Branch) : Build Statement := do
  let head ← functionHead none b.parts
  match head.rest with
  | [] => throw (.missing "function name" b.span)
  | r :: _ =>
    let name ← identifier "function name" r
    let params ← parameters b
    let map ← attributes .function b
    return .function head.modifiers head.returnType? name params map (← block? b) b.span

/-- The statement of a branch. -/
def branchStatement (b : Branch) : Build Statement :=
  match b.rule with
  | .scriptBlock => return .script (← statements b.parts) b.span
  | .block => return .block (← statements b.parts) b.span
  | .emptyStatement => return .block [] b.span
  | .expressionStatement => return .expression (← b.childExpression 0) b.span
  | .varStatement => declaration b
  | .ifStatement => branching b
  | .whileStatement =>
    return .whileLoop (← b.operandExpression 1) (← b.operandStatement 2) b.span
  | .doWhileStatement => doLoop b
  | .forStatement => forLoop b
  | .forInStatement => eachLoop b
  | .switchStatement => select b
  | .breakStatement => return .breakLoop b.span
  | .continueStatement => return .continueLoop b.span
  | .returnStatement => return .returnValue (← valueAfterKeyword b) b.span
  | .throwStatement => return .throwValue (← valueAfterKeyword b) b.span
  | .abortStatement => return .abort (← valueAfterKeyword b) b.span
  | .includeStatement => return .includeFile (← b.operandExpression 1) b.span
  | .tryStatement => tryStatement b
  | .importStatement => return .importPath (← path "import path" (← b.operand 1)) b.span
  | .componentDeclaration => component .component b
  | .interfaceDeclaration => component .interface b
  | .tagStatement => tag b
  | .propertyFull =>
    return .property ⟨.long none none, ← attributes .property b⟩ b.span
  | .propertyShorthand => shortProperty b
  | .functionDeclaration => function b
  | rule => throw (.unexpected "statement" rule.name b.span)

/-- The statement of a leaf: there is none. -/
def leafStatement (leaf : Leaf) : Build Statement :=
  match leaf with
  | .assumed what => throw (.missing what .dummy)
  | _ => throw (.unexpectedTree "statement" (.leaf leaf))

theorem statement_emptyStatement (t : Tree) (parts : List Reading) :
    branchStatement ⟨.emptyStatement, t, parts⟩ = pure (.block [] t.span) := rfl

end CfScript.Build
