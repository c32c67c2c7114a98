import CfScript.Grammar.Rules

/-!
# Where the predictions part

Fast prediction bails where it would have to look further than three tokens, with one exception: a
statement that begins with a dotted word is taken for an expression without a further look. Apart
from this exception a production is *steady*: as long as fast prediction does not bail in it,
general prediction comes to the same decisions. All goals are steady but the statement, and of the
statement all forms but those that may be an expression.

## Main results

* `Grammar.statement_form`: the forms of a statement;
* `Grammar.steady_production`: every goal other than the statement is steady.
-/

namespace CfScript

namespace Production

/-- Whether no decision of a production is taken differently by fast prediction without a bail, and
the production neither makes an expression statement nor goes on as a statement. -/
def Steady : Production → Prop
  | done => True
  | take next => next.Steady
  | expect _ next => next.Steady
  | word next => next.Steady
  | assume _ next => next.Steady
  | reject _ next => next.Steady
  | skip next => next.Steady
  | recover next => next.Steady
  | parse _ next => next.Steady
  | node rule inner next => rule ≠ .expressionStatement ∧ inner.Steady ∧ next.Steady
  | close rule next => rule ≠ .expressionStatement ∧ next.Steady
  | again goal => goal ≠ .statement
  | progress _ stuck next => stuck.Steady ∧ next.Steady
  | look choose => ∀ w, (choose w).Steady
  | spell choose => ∀ text, (choose text).Steady
  | scan decision _ _ _ => decision ≠ none
  | trial _ _ _ _ _ => True
  | single yes no => yes.Steady ∧ no.Steady
  | troubled yes no => yes.Steady ∧ no.Steady

theorem steady_ite {c : Prop} [Decidable c] {p q : Production} :
    (if c then p else q).Steady ↔ (c → p.Steady) ∧ (¬ c → q.Steady) := by
  split <;> simp [*]

end Production

namespace Grammar

open Production

attribute [local simp] Production.Steady steady_ite Goal.production

variable {next : Production} {rule : Rule}

/-! ## Productions of several goals -/

@[simp] theorem steady_plainName : plainName.Steady := by
  simp [plainName]

@[simp] theorem steady_dottedName : dottedName.Steady := by
  simp [dottedName]

@[simp] theorem steady_separated {goal : Goal} : (separated goal).Steady ↔ goal ≠ .statement := by
  simp only [separated, Steady, steady_ite]
  exact ⟨fun h => (h ⟨.symbol .comma, .invalid, .invalid⟩).1 rfl, fun h _ => ⟨fun _ => h, by simp⟩⟩

@[simp] theorem steady_parameterList : (parameterList next).Steady ↔ next.Steady := by
  simp [parameterList]

@[simp] theorem steady_argumentList : (argumentList next).Steady ↔ next.Steady := by
  simp [argumentList]

@[simp] theorem steady_listed : (listed next).Steady ↔ next.Steady := by
  simp [listed]

@[simp] theorem steady_block : (block next).Steady ↔ next.Steady := by
  simp [block]

@[simp] theorem steady_condition : (condition next).Steady ↔ next.Steady := by
  simp [condition]

@[simp] theorem steady_terminated : (terminated rule).Steady ↔ rule ≠ .expressionStatement := by
  simp [terminated, ended, unended]

theorem steady_valueStatement (h : rule ≠ .expressionStatement) : (valueStatement rule).Steady := by
  simp [valueStatement, h]

@[simp] theorem steady_declaration : (declaration next).Steady ↔ next.Steady := by
  simp [declaration]

@[simp] theorem steady_arrowBody : (arrowBody next).Steady ↔ next.Steady := by
  simp [arrowBody]

theorem steady_operand (h : next.Steady) : (operand next).Steady := by
  simp only [operand, Steady]
  intro w
  split <;> simp [parenOrArrow, arrowFunction, parenthesized, arrayLiteral, structLiteral,
    newExpression, newArguments, functionExpression, h]

theorem steady_appliedTail : appliedTail.Steady := by
  simp only [appliedTail, Steady]
  intro w
  split <;> simp

theorem steady_forStatement : forStatement.Steady := by
  simp [forStatement, loopKind, forClauses, forIn, loopTarget, loopRest, loopClause]

theorem steady_functionDeclaration : functionDeclaration.Steady := by
  simp [functionDeclaration, signature, ended, unended]

/-! ## Statements -/

/-- The forms of a statement in front of the tokens that the window shows. -/
inductive StatementForm (w : Window) : Production → Prop where
  | steady {p : Production} (h : p.Steady) : StatementForm w p
  /-- An expression that does not begin with a dotted word. -/
  | expression (h : ¬ (w.here = .identifier ∧ w.next = .symbol .dot)) : StatementForm w expressionStatement
  /-- What begins with a dotted word. -/
  | dotted (hHere : w.here = .identifier) (hNext : w.next = .symbol .dot) :
    StatementForm w (scan none leadsToFunction functionDeclaration expressionStatement)
  | spell {choose : String → Production} (h : ∀ text, StatementForm w (choose text)) :
    StatementForm w (spell choose)

theorem headedStatement_form {w : Window} (hHere : w.here = .identifier) :
    StatementForm w (headedStatement w) := by
  unfold headedStatement
  split
  · exact .steady steady_functionDeclaration
  split
  next hNext => exact .dotted hHere hNext
  next hNext =>
    split
    · exact .steady (by simp)
    · exact .expression fun hDotted => hNext hDotted.2

theorem identifierStatement_form {w : Window} (text : String) (hHere : w.here = .identifier) :
    StatementForm w (identifierStatement text w) := by
  unfold identifierStatement
  split
  · exact .steady (by simp [tagStatement])
  split
  · exact .steady (steady_valueStatement (by simp))
  split
  · exact .steady (steady_valueStatement (by simp))
  · exact headedStatement_form hHere

/-- A statement takes one of the forms. -/
theorem statement_form : ∃ choose, statement = look choose ∧ ∀ w, StatementForm w (choose w) := by
  refine ⟨_, rfl, fun w => ?_⟩
  split <;> rename_i hHere
  · exact .steady (by simp)
  · exact .steady (by simp)
  · exact .steady (by simp)
  · exact .steady (by simp [ifStatement])
  · exact .steady (by simp [whileStatement])
  · exact .steady (by simp [doWhileStatement])
  · exact .steady steady_forStatement
  · exact .steady (by simp [switchStatement])
  · exact .steady (by simp [tryStatement])
  · exact .steady (steady_valueStatement (by simp))
  · exact .steady (steady_valueStatement (by simp))
  · exact .steady (by simp [wordStatement])
  · exact .steady (by simp [wordStatement])
  · exact .steady (by simp [importStatement])
  · split
    · exact .steady steady_functionDeclaration
    · exact .steady (by simp [componentDeclaration])
  · split
    · exact .steady steady_functionDeclaration
    · exact .steady (by simp [componentDeclaration])
  · exact .steady (by simp [propertyStatement])
  · split
    · exact .steady steady_functionDeclaration
    · exact .expression (by simp [hHere])
  · exact .spell fun text => identifierStatement_form text hHere
  · exact .expression fun hDotted => hHere hDotted.1

/-! ## Goals -/

/-- Every goal other than the statement is steady. -/
theorem steady_production {goal : Goal} (h : goal ≠ .statement) : goal.production.Steady := by
  cases goal with
  | statement => exact absurd rfl h
  | script => simp [script]
  | standalone => simp [standalone]
  | leftovers => simp [leftovers]
  | statements stop => simp [statements]
  | switchClauses => simp [switchClauses, clauseBody]
  | catchClauses => simp [catchClauses, catchBody]
  | modifiers => simp [modifierWords]
  | dottedName => simp
  | dottedTail => simp [dottedTail]
  | typedName => simp [typedName]
  | propertyName => simp [propertyName]
  | attributes => simp [attributes]
  | parameters => simp [parameters, parameter, parameterBody]
  | expression => simp [expression]
  | ternary => simp [ternary]
  | binary level => simp [binary]
  | binaryTail level => simp [binaryTail, operator]
  | unary => simp [unary]
  | applied => exact steady_operand (by simp)
  | appliedTail => exact steady_appliedTail
  | arguments => simp [arguments]
  | elements => simp [elements]
  | structEntries => simp [structEntries, structEntry, entryValue]

end Grammar

end CfScript
