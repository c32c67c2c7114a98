import CfScript.Ast.Operator
import CfScript.Grammar.Rules
import CfScript.Tree.Basic

/-!
# What stands under a node

Every rule has a *form*: what its children are, from left to right. A form is written like the
production that makes the node, as a chain of parts that ends with `done`. It speaks of trees without
looking into them, so the form of a whole tree is that of each of its nodes.

A part that is broken counts as anything. So the form of a broken statement still tells where its
parts stand, and the form of a node without errors tells exactly what its parts are.

## Main results

* `Rule.form`: the form of every rule;
* `Tree.WellFormed`: every node of a tree has the form of its rule;
* `Form.many_append`, `Form.many_iff`: parts of one sort stand in a row.
-/

namespace CfScript

namespace Rule

/-- Whether a node of the rule is a statement. -/
def isStatement : Rule → Bool
  | scriptBlock | block | emptyStatement | expressionStatement | varStatement | ifStatement
  | whileStatement | doWhileStatement | forStatement | forInStatement | switchStatement
  | breakStatement | continueStatement | returnStatement | tryStatement | throwStatement
  | functionDeclaration | componentDeclaration | interfaceDeclaration | propertyFull
  | propertyShorthand | tagStatement | importStatement | includeStatement | abortStatement => true
  | _ => false

/-- Whether a node of the rule is an expression. -/
def isExpression : Rule → Bool
  | assignmentExpression | ternaryExpression | elvisExpression | binaryExpression
  | unaryExpression | postfixExpression | parenExpression | callExpression | memberExpression
  | indexExpression | arrayLiteral | structLiteral | newExpression | functionExpression
  | arrowFunction => true
  | _ => false

end Rule

namespace Tree

/-- Whether the tree is a matched token that passes a test. -/
def isTokenThat (test : Token → Bool) (t : Tree) : Bool := t.token?.any test

/-- Whether the tree is a node of a rule. -/
def isNode (rule : Rule) (t : Tree) : Bool := t.rule? == some rule

/-- Whether the tree is a statement. -/
def isStatement (t : Tree) : Bool := t.rule?.any (·.isStatement)

/-- The kinds of tokens that are expressions. -/
def operandKinds : List TokenKind :=
  [.integer, .float, .string, .keyword .true_, .keyword .false_, .keyword .null, .identifier]

/-- Whether the tree is an expression. -/
def isExpression (t : Tree) : Bool :=
  t.rule?.any (·.isExpression) || t.isTokenThat (operandKinds.contains ·.kind)

/-- Whether the tree is as is said, or broken. -/
def Fits (t : Tree) (p : Tree → Bool) : Prop := t.hasErrors = true ∨ p t = true

variable {p : Tree → Bool} {test : Token → Bool} {t : Tree}

theorem fits_of (h : p t = true) : t.Fits p := .inr h

theorem fits_of_hasErrors (h : t.hasErrors = true) : t.Fits p := .inl h

theorem isTokenThat_iff : t.isTokenThat test = true ↔ ∃ u, t = token u ∧ test u = true := by
  constructor
  · intro h
    match t, h with
    | leaf (.matched u), h => exact ⟨u, rfl, h⟩
  · rintro ⟨u, rfl, h⟩
    exact h

@[simp] theorem isTokenThat_token (u : Token) : (token u).isTokenThat test = test u := rfl

@[simp] theorem isNode_node (rule other : Rule) (cs : List Tree) :
    (node rule cs).isNode other = (rule == other) := rfl

@[simp] theorem isNode_token (rule : Rule) (u : Token) : (token u).isNode rule = false := rfl

@[simp] theorem isStatement_node (rule : Rule) (cs : List Tree) :
    (node rule cs).isStatement = rule.isStatement := rfl

@[simp] theorem isExpression_node (rule : Rule) (cs : List Tree) :
    (node rule cs).isExpression = rule.isExpression := by
  simp [isExpression, rule?, isTokenThat, token?]

@[simp] theorem isExpression_token (u : Token) :
    (token u).isExpression = operandKinds.contains u.kind := by
  simp [isExpression, token, rule?, isTokenThat, token?]

theorem isNode_iff {rule : Rule} : t.isNode rule = true ↔ ∃ cs, t = node rule cs := by
  constructor
  · intro h
    cases t with
    | leaf l => cases h
    | node other cs =>
      obtain rfl : other = rule := by simpa using h
      exact ⟨cs, rfl⟩
  · rintro ⟨cs, rfl⟩
    simp

/-- A part that is a node of a rule for statements is a statement. -/
theorem Fits.isStatement {rule : Rule} (h : t.Fits (·.isNode rule))
    (hRule : rule.isStatement = true) : t.Fits (·.isStatement) := by
  refine Or.imp id (fun hNode => ?_) h
  obtain ⟨cs, rfl⟩ := isNode_iff.1 hNode
  exact hRule

/-- A part that is a token that passes a test is a token. -/
theorem Fits.isToken (h : t.Fits (·.isTokenThat test)) : t.Fits (·.isTokenThat fun _ => true) := by
  refine Or.imp id (fun hTest => ?_) h
  obtain ⟨u, rfl, -⟩ := isTokenThat_iff.1 hTest
  rfl

end Tree

/-- What is said of the children of a node. -/
abbrev Form := List Tree → Prop

namespace Form

/-- No more parts. -/
def done : Form := (· = [])

/-- A part, and what follows. -/
def one (p : Tree → Bool) (next : Form) : Form
  | [] => False
  | t :: ts => t.Fits p ∧ next ts

/-- Any number of parts of one sort, and what follows. -/
def many (p : Tree → Bool) (next : Form) : Form := fun ts =>
  ∃ us vs, ts = us ++ vs ∧ (∀ u ∈ us, u.Fits p) ∧ next vs

/-- One or the other. -/
def either (a b : Form) : Form := fun ts => a ts ∨ b ts

variable {p : Tree → Bool} {next : Form} {t : Tree} {ts us : List Tree}

theorem done_nil : done [] := rfl

theorem one_cons (ht : t.Fits p) (hts : next ts) : one p next (t :: ts) := ⟨ht, hts⟩

theorem one_iff : one p next ts ↔ ∃ t us, ts = t :: us ∧ t.Fits p ∧ next us := by
  constructor
  · intro h
    cases ts with
    | nil => exact h.elim
    | cons t us => exact ⟨t, us, rfl, h⟩
  · rintro ⟨t, us, rfl, h⟩
    exact h

theorem many_append (hus : ∀ u ∈ us, u.Fits p) (hts : next ts) : many p next (us ++ ts) :=
  ⟨us, ts, rfl, hus, hts⟩

theorem many_of (hts : next ts) : many p next ts := ⟨[], ts, rfl, nofun, hts⟩

theorem many_done (hus : ∀ u ∈ us, u.Fits p) : many p done us := ⟨us, [], by simp, hus, done_nil⟩

/-! ## Sorts of parts -/

/-- A token of a kind. -/
def kind (k : TokenKind) : Form → Form := one (·.isTokenThat (·.kind == k))

/-- A punctuation mark. -/
def mark (s : Symbol) : Form → Form := kind (.symbol s)

/-- A keyword. -/
def keyword (k : Keyword) : Form → Form := kind (.keyword k)

/-- A word. -/
def word : Form → Form := one (·.isTokenThat (·.kind.isWord))

/-- A node of a rule. -/
def node (rule : Rule) : Form → Form := one (·.isNode rule)

/-- An expression. -/
def expression : Form → Form := one (·.isExpression)

/-- A statement. -/
def statement : Form → Form := one (·.isStatement)

/-- Any number of statements. -/
def statements : Form → Form := many (·.isStatement)

/-- Any number of attributes. -/
def attributes : Form → Form := many (·.isNode .attribute)

/-- Any number of parts of one sort and commas between them. -/
def listed (p : Tree → Bool) : Form → Form :=
  many fun t => p t || t.isTokenThat (·.kind == .symbol .comma)

/-- An expression in parentheses. -/
def condition (next : Form) : Form := mark .lParen <| expression <| mark .rParen next

/-- The end of a statement. -/
def ending : Form := many (·.isTokenThat (·.kind == .symbol .semicolon)) done

/-- The end of a statement, possibly after a value. -/
def valued : Form := either ending (expression ending)

/-- A name, possibly after its type. -/
def typedName (next : Form) : Form := either (word next) (node .typeName <| word next)

/-- A path: a string or a name that may have dots. -/
def path : Form → Form :=
  one fun t => t.isTokenThat (·.kind == .string) || t.isNode .typeName

/-- A clause of a loop header, and the mark at its end; it may be empty. -/
def clause (p : Tree → Bool) (stop : Symbol) (next : Form) : Form :=
  either (mark stop next) (one p <| mark stop next)

/-- An operator between two operands. -/
def operator (next : Form) : Form :=
  either (one (·.isTokenThat fun t => (BinaryOp.ofKinds? [t.kind]).isSome) next) <|
    either (keyword .is <| keyword .not next)
      (keyword .does <| keyword .not <| keyword .contain next)

/-- The parts of a function from its name on. -/
def signature : Form :=
  keyword .function <| word <| node .parameterList <| attributes <| either (node .block done) ending

/-- A parameter without its modifier. -/
def parameter : Form :=
  typedName <| either (mark .assign <| expression <| attributes done) (attributes done)

end Form

/-- The form of a rule. -/
def Rule.form : Rule → Form :=
  open Form in fun
  | scriptBlock => statements <| kind .endOfInput done
  | standaloneExpression => expression <| many (fun _ => false) <| kind .endOfInput done
  | block => mark .lBrace <| statements <| mark .rBrace done
  | emptyStatement => mark .semicolon done
  | expressionStatement => expression ending
  | varStatement => keyword .var <| word <| either ending (mark .assign <| expression ending)
  | ifStatement =>
    keyword .if_ <| condition <| statement <| either done (keyword .else_ <| statement done)
  | whileStatement => keyword .while_ <| condition <| statement done
  | doWhileStatement => keyword .do_ <| statement <| keyword .while_ <| condition ending
  | forStatement =>
    keyword .for_ <| mark .lParen <|
      clause (fun t => t.isExpression || t.isNode .varStatement) .semicolon <|
        clause (·.isExpression) .semicolon <| clause (·.isExpression) .rParen <| statement done
  | forInStatement =>
    let rest := expression <| keyword .in_ <| expression <| mark .rParen <| statement done
    keyword .for_ <| mark .lParen <| either (keyword .var rest) rest
  | switchStatement =>
    keyword .switch <| condition <| mark .lBrace <|
      many (fun t => t.isNode .caseClause || t.isNode .defaultClause) <| mark .rBrace done
  | caseClause => keyword .case <| expression <| mark .colon <| statements done
  | defaultClause => keyword .default <| mark .colon <| statements done
  | breakStatement => keyword .break_ ending
  | continueStatement => keyword .continue_ ending
  | returnStatement => keyword .return_ valued
  | throwStatement => keyword .throw_ valued
  | abortStatement => kind .identifier valued
  | includeStatement => kind .identifier <| expression ending
  | tryStatement =>
    keyword .try_ <| node .block <| many (·.isNode .catchClause) <|
      either done (node .finallyClause done)
  | catchClause =>
    keyword .catch_ <| mark .lParen <| typedName <| mark .rParen <| node .block done
  | finallyClause => keyword .finally_ <| node .block done
  | functionDeclaration =>
    many (·.isTokenThat (·.kind == .identifier)) <| either signature (node .returnType signature)
  | returnType => node .typeName done
  | parameterList =>
    mark .lParen <| listed (·.isNode .parameter) <| mark .rParen done
  | parameter =>
    either Form.parameter (one (·.isTokenThat (·.isWordNamed "required")) Form.parameter)
  | .attribute => word <| mark .assign <| expression done
  | componentDeclaration => keyword .component <| attributes <| node .block done
  | interfaceDeclaration => keyword .interface <| attributes <| node .block done
  | propertyFull => keyword .property <| attributes ending
  | propertyShorthand => keyword .property <| typedName <| attributes ending
  | tagStatement =>
    one (·.isTokenThat fun t => t.kind == .identifier &&
      Grammar.tagWords.contains (Text.fold t.lexeme)) <|
      attributes <| either (node .block done) ending
  | importStatement => keyword .import_ <| path ending
  | typeName => many (·.isTokenThat fun _ => true) done
  | assignmentExpression =>
    expression <| one (·.isTokenThat (·.kind.isAssignment)) <| expression done
  | ternaryExpression =>
    expression <| mark .question <| expression <| mark .colon <| expression done
  | elvisExpression => expression <| mark .elvis <| expression done
  | binaryExpression => expression <| operator <| expression done
  | unaryExpression =>
    one (·.isTokenThat (Grammar.unaryOperators.contains ·.kind)) <| expression done
  | postfixExpression =>
    expression <| one (·.isTokenThat fun t => (PostfixOp.ofKind? t.kind).isSome) done
  | parenExpression => mark .lParen <| expression <| mark .rParen done
  | callExpression => expression <| node .argumentList done
  | argumentList => mark .lParen <| listed (·.isNode .argument) <| mark .rParen done
  | argument => either (expression done) (word <| mark .assign <| expression done)
  | memberExpression =>
    expression <| one (·.isTokenThat fun t => t.kind == .symbol .dot || t.kind == .symbol .safeDot) <|
      word done
  | indexExpression => expression <| mark .lBracket <| expression <| mark .rBracket done
  | arrayLiteral => mark .lBracket <| listed (·.isExpression) <| mark .rBracket done
  | structLiteral => mark .lBrace <| listed (·.isNode .structEntry) <| mark .rBrace done
  | structEntry =>
    one (·.isTokenThat fun t => t.kind.isWord || t.kind == .string || t.kind == .integer) <|
      either (mark .colon <| expression done) (mark .assign <| expression done)
  | newExpression => keyword .new <| path <| either done (node .argumentList done)
  | functionExpression => keyword .function <| node .parameterList <| node .block done
  | arrowFunction =>
    one (fun t => t.isTokenThat (·.kind == .identifier) || t.isNode .parameterList) <|
      one (·.isTokenThat fun _ => true) <|
        one (fun t => t.isNode .block || t.isExpression) done

/-- A tree each of whose nodes has the form of its rule. -/
inductive Tree.WellFormed : Tree → Prop
  | leaf (l : Leaf) : WellFormed (.leaf l)
  | node {rule : Rule} {cs : List Tree} : rule.form cs → (∀ c ∈ cs, c.WellFormed) →
    WellFormed (.node rule cs)

end CfScript
