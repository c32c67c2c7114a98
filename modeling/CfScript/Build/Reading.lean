import CfScript.Build.Error
import CfScript.Build.Validation

/-!
# Reading a parse tree

A reading of a parse tree is the tree together with what it can be built into: as a statement, as an
expression, and the readings of its children. The two builds of a node are put together from the
builds of the readings below it, so a whole tree is read by recursion on the tree (`Reading.ofTree` in
`CfScript.Build.Root`).

A build may make findings, and keeps those that it has made when it fails.

## Main results

* `operands_sublist`: the operands of a branch are parts of it, in order.
-/

namespace CfScript

/-- A build: under the rules for attributes, with the findings so far, it fails or gives a result. -/
abbrev Build := ReaderT AttributeRules (ExceptT BuildError (StateM Log))

namespace Build

variable {α : Type}

/-- Adds a finding, if there is one. -/
def note (d? : Option Diagnostic) : Build Unit := modify fun log => log.append d?.toList

/-- The result of a build, or nothing and a finding about the node that is left out. -/
def orLeaveOut (rule : Rule) (t : Tree) (build : Build α) : Build (Option α) :=
  tryCatch (some <$> build) fun e => do
    note (e.malformed? rule t)
    return none

/-- The builds of a list, from left to right. -/
def all {β : Type} (f : α → Build β) : List α → Build (List β)
  | [] => pure []
  | x :: xs => do
    let y ← f x
    let ys ← all f xs
    return y :: ys

/-- The build of a part, if there is one. -/
def optional {β : Type} (f : α → Build β) : Option α → Build (Option β)
  | none => pure none
  | some x => some <$> f x

/-- Runs a build on a log. -/
def runOn (build : Build α) (rules : AttributeRules) (log : Log) : Except BuildError α × Log :=
  (ExceptT.run (ReaderT.run build rules)).run log

end Build

/-- A parse tree with what it can be built into. -/
inductive Reading where
  | mk (tree : Tree) (parts : List Reading) (statement : Build Statement)
    (expression : Build Expression)

/-- A node of a parse tree with the readings of its children. -/
structure Branch where
  rule : Rule
  tree : Tree
  parts : List Reading

namespace Reading

/-- The parse tree that is read. -/
def tree : Reading → Tree
  | mk tree _ _ _ => tree

/-- The readings of the children. -/
def parts : Reading → List Reading
  | mk _ parts _ _ => parts

/-- The tree as a statement. -/
def statement : Reading → Build Statement
  | mk _ _ statement _ => statement

/-- The tree as an expression. -/
def expression : Reading → Build Expression
  | mk _ _ _ expression => expression

/-- The rule of the tree, if it is a node. -/
def rule? (r : Reading) : Option Rule := r.tree.rule?

/-- The token of the tree, if it is a matched token. -/
def token? (r : Reading) : Option Token := r.tree.token?

/-- Whether the tree is a matched token of a kind. -/
def isToken (r : Reading) (kind : TokenKind) : Bool := r.token?.any (·.kind == kind)

/-- Whether the tree is a part that the parser assumed. -/
def isAssumed (r : Reading) : Bool :=
  match r.tree with
  | .leaf (.assumed _) => true
  | _ => false

/-- Whether the tree is a part with a given description that the parser assumed. -/
def isAssumption (r : Reading) (what : String) : Bool :=
  match r.tree with
  | .leaf (.assumed other) => other == what
  | _ => false

/-- The tree as a branch, if it is a node. -/
def branch? (r : Reading) : Option Branch := r.rule?.map fun rule => ⟨rule, r.tree, r.parts⟩

/-- The tree as a branch, if it is a node of a rule. -/
def branchOf? (r : Reading) (rule : Rule) : Option Branch :=
  if r.rule? = some rule then some ⟨rule, r.tree, r.parts⟩ else none

/-- The kinds of tokens that only separate or enclose. -/
def fillers : List TokenKind :=
  [.symbol .lParen, .symbol .rParen, .symbol .lBrace, .symbol .rBrace, .symbol .lBracket,
    .symbol .rBracket, .symbol .comma, .symbol .semicolon, .symbol .colon, .endOfInput]

/-- Whether the tree never holds a value: punctuation, assumed punctuation or a skipped token. -/
def isFiller (r : Reading) : Bool :=
  match r.tree with
  | .node _ _ => false
  | .leaf (.matched t) => fillers.contains t.kind
  | .leaf (.skipped _) => true
  | .leaf (.assumed what) => what.toList.head? == some '\''

end Reading

namespace Branch

/-- Where the branch stands. -/
def span (b : Branch) : Span := b.tree.span

/-- The children that are nodes of a rule. -/
def nodes (b : Branch) (rule : Rule) : List Branch := b.parts.filterMap (·.branchOf? rule)

/-- The first child that is a node of a rule. -/
def node? (b : Branch) (rule : Rule) : Option Branch := b.parts.findSome? (·.branchOf? rule)

/-- The children that may hold a value. -/
def operands (b : Branch) : List Reading := b.parts.filter (!·.isFiller)

/-- One of several parts of the branch. -/
def pick (b : Branch) (among : List Reading) (i : Nat) : Build Reading :=
  match among[i]? with
  | some r => pure r
  | none => throw (.missingPart b.rule b.tree)

/-- A child of the branch. -/
def child (b : Branch) (i : Nat) : Build Reading := b.pick b.parts i

/-- An operand of the branch. -/
def operand (b : Branch) (i : Nat) : Build Reading := b.pick b.operands i

/-- A child as an expression. -/
def childExpression (b : Branch) (i : Nat) : Build Expression := do (← b.child i).expression

/-- An operand as an expression. -/
def operandExpression (b : Branch) (i : Nat) : Build Expression := do (← b.operand i).expression

/-- An operand as a statement. -/
def operandStatement (b : Branch) (i : Nat) : Build Statement := do (← b.operand i).statement

/-- The text of the branch as a name that may have dots. -/
def identifier (b : Branch) : Identifier := ⟨b.tree.text, b.span⟩

theorem operands_sublist (b : Branch) : b.operands.Sublist b.parts := List.filter_sublist

end Branch

namespace Build

/-- The identifier of a word. -/
def wordIdentifier (t : Token) : Identifier := ⟨t.lexeme, t.span⟩

/-- The word at a part; `what` is the name of the part in an error. -/
def word (what : String) (r : Reading) : Build Token :=
  match r.tree with
  | .leaf (.matched t) => if t.kind.isWord then pure t else throw (.unexpectedTree what r.tree)
  | .leaf (.assumed _) => throw (.missing what .dummy)
  | other => throw (.unexpectedTree what other)

/-- The identifier at a part. -/
def identifier (what : String) (r : Reading) : Build Identifier := wordIdentifier <$> word what r

/-- The path at a part, as written: a string, or a name that may have dots. -/
def path (what : String) (r : Reading) : Build String :=
  match r.tree with
  | .leaf (.matched t) =>
    if t.kind = .string then pure t.lexeme else throw (.unexpectedTree what r.tree)
  | .node .typeName _ => pure r.tree.text
  | other => throw (.unexpectedTree what other)

/-- The operator at a part. -/
def operator {α : Type} (what : String) (ofKind? : TokenKind → Option α) (r : Reading) : Build α :=
  match r.token? with
  | none => throw (.unexpectedTree what r.tree)
  | some t =>
    match ofKind? t.kind with
    | some op => pure op
    | none => throw (.unknownOperator t.lexeme t.span)

/-- The statements of a list of children. Tokens and empty statements are passed over, and statements
that cannot be built are left out. -/
def statements : List Reading → Build (List Statement)
  | [] => pure []
  | r :: rest =>
    match r.rule? with
    | none => statements rest
    | some .emptyStatement => statements rest
    | some rule => do
      let statement? ← orLeaveOut rule r.tree r.statement
      return statement?.toList ++ (← statements rest)

/-- The statements of the block in a branch, if it has one. -/
def block? (b : Branch) : Build (Option (List Statement)) :=
  optional (statements ·.parts) (b.node? .block)

/-- The statements of the block in a branch. -/
def block (b : Branch) : Build (List Statement) := do
  match ← block? b with
  | some body => return body
  | none => throw (.missing "block" b.span)

/-- The attributes of the branches, added in turn to those that are there. The tokens are the names
that were new, the last one first. -/
def gather (owner : String) :
    List Branch → List Token → AttributeMap Expression →
      Build (List Token × AttributeMap Expression)
  | [], fresh, map => pure (fresh, map)
  | b :: rest, fresh, map => do
    let name ← word "attribute name" (← b.child 0)
    let value ← b.childExpression 2
    match map.insert (wordIdentifier name) value with
    | (none, map) => gather owner rest (name :: fresh) map
    | (some _, map) =>
      note ((← read).repeated? owner (wordIdentifier name) name.line)
      gather owner rest fresh map

/-- The attributes in a branch. Those that the element does not know are reported at the end. -/
def attributes (element : Element) (b : Branch) : Build (AttributeMap Expression) := do
  let (fresh, map) ← gather element.word (b.nodes .attribute) [] .empty
  let rules ← read
  let strange := fresh.reverse.filter (!rules.accepts element ·.lexeme)
  modify fun log =>
    log.append (strange.filterMap fun t => rules.unknown? element (wordIdentifier t) t.line)
  return map

/-- The attributes of a parameter, which may have any names. -/
def parameterAttributes (b : Branch) : Build (AttributeMap Expression) :=
  Prod.snd <$> gather "parameter" (b.nodes .attribute) [] .empty

/-- Whether the word `required` at the head of a parameter is followed by what it makes required. -/
def isRequired : List Reading → Bool
  | first :: next :: _ =>
    first.token?.any (·.isWordNamed "required") &&
      (next.rule? == some .typeName || next.token?.any (·.kind.isWord))
  | _ => false

/-- A parameter: `[required] [type] name [= default]` and attributes. -/
def parameter (b : Branch) : Build (Parameter Expression) := do
  let parts := b.parts.filter (·.rule? != some .attribute)
  let required := isRequired parts
  let parts := if required then parts.drop 1 else parts
  let type? := (parts.head?.bind (·.branchOf? .typeName)).map (·.identifier)
  let parts := if type?.isSome then parts.drop 1 else parts
  let name ← identifier "parameter name" (← b.pick parts 0)
  let default? ←
    if parts[1]?.any (·.isToken (.symbol .assign)) then
      some <$> (do (← b.pick parts 2).expression)
    else pure none
  return { required, type?, name, default?, attributes := ← parameterAttributes b }

/-- The parameters in a branch; without a list there are none. -/
def parameters (b : Branch) : Build (List (Parameter Expression)) :=
  match b.node? .parameterList with
  | some list => all parameter (list.nodes .parameter)
  | none => pure []

end Build

end CfScript
