import CfScript.Grammar.Rules

/-!
# Where tokens are skipped

The rest of a statement is skipped at one place of the grammar only: at the end of a statement in which
something was found wrong since it began. A run that stops at the first fault never comes there, so it
never looks for the end of a broken statement and never touches the delimiters that are counted on the
way. `Production.Careful` says so of a production, and it holds of all goals.

## Main results

* `Grammar.careful_production`: the production of every goal is careful.
-/

namespace CfScript

namespace Production

/-- Whether a production skips the rest of a statement only where something is known to be wrong. At
its beginning, `found` says whether something was found wrong since the goal began. -/
def Careful (found : Bool) : Production → Prop
  | done => True
  | take next => next.Careful found
  | expect _ next => next.Careful found
  | word next => next.Careful found
  | assume _ next => next.Careful found
  | reject _ next => next.Careful found
  | skip next => next.Careful found
  | recover next => found = true ∧ next.Careful found
  | parse _ next => next.Careful found
  | node _ inner next => inner.Careful false ∧ next.Careful found
  | close _ next => next.Careful found
  | again _ => True
  | progress _ stuck next => stuck.Careful found ∧ next.Careful found
  | look choose => ∀ w, (choose w).Careful found
  | spell choose => ∀ text, (choose text).Careful found
  | scan _ _ yes no => yes.Careful found ∧ no.Careful found
  | trial _ attempt _ yes no => attempt.Careful false ∧ yes.Careful found ∧ no.Careful found
  | single yes no => yes.Careful found ∧ no.Careful found
  | troubled yes no => yes.Careful true ∧ no.Careful found

theorem careful_ite {found : Bool} {c : Prop} [Decidable c] {p q : Production} :
    (if c then p else q).Careful found ↔ (c → p.Careful found) ∧ (¬ c → q.Careful found) := by
  split <;> simp [*]

end Production

namespace Grammar

open Production

attribute [local simp] Production.Careful careful_ite Goal.production

variable {found : Bool} {next : Production} {rule : Rule}

/-! ## Productions of several goals -/

@[simp] theorem careful_plainName : plainName.Careful found := by
  simp [plainName]

@[simp] theorem careful_separated {goal : Goal} : (separated goal).Careful found := by
  simp [separated]

@[simp] theorem careful_parameterList : (parameterList next).Careful found ↔ next.Careful found := by
  simp [parameterList]

@[simp] theorem careful_argumentList : (argumentList next).Careful found ↔ next.Careful found := by
  simp [argumentList]

@[simp] theorem careful_listed : (listed next).Careful found ↔ next.Careful found := by
  simp [listed]

@[simp] theorem careful_block : (block next).Careful found ↔ next.Careful found := by
  simp [block]

@[simp] theorem careful_condition : (condition next).Careful found ↔ next.Careful found := by
  simp [condition]

@[simp] theorem careful_unended : (unended rule).Careful found := by
  simp [unended]

@[simp] theorem careful_terminated : (terminated rule).Careful found := by
  simp [terminated, ended]

@[simp] theorem careful_valueStatement : (valueStatement rule).Careful found := by
  simp [valueStatement]

@[simp] theorem careful_expressionStatement : expressionStatement.Careful found := by
  simp [expressionStatement]

@[simp] theorem careful_declaration : (declaration next).Careful found ↔ next.Careful found := by
  simp [declaration]

@[simp] theorem careful_arrowBody : (arrowBody next).Careful found ↔ next.Careful found := by
  simp [arrowBody]

@[simp] theorem careful_loopTarget : (loopTarget next).Careful found ↔ next.Careful found := by
  simp [loopTarget]

theorem careful_operand (h : next.Careful found) : (operand next).Careful found := by
  simp only [operand, Careful]
  intro w
  split <;> simp [parenOrArrow, arrowFunction, parenthesized, arrayLiteral, structLiteral,
    newExpression, newArguments, functionExpression, h]

theorem careful_appliedTail : appliedTail.Careful found := by
  simp only [appliedTail, Careful]
  intro w
  split <;> simp

/-! ## Statements -/

theorem careful_forStatement : forStatement.Careful found := by
  simp [forStatement, loopKind, forClauses, forIn, loopRest, loopClause]

@[simp] theorem careful_functionDeclaration : functionDeclaration.Careful found := by
  simp [functionDeclaration, signature, dottedName, ended]

theorem careful_identifierStatement (text : String) (w : Window) :
    (identifierStatement text w).Careful found := by
  simp [identifierStatement, headedStatement, tagStatement]

theorem careful_statement : statement.Careful found := by
  simp only [statement, Careful]
  intro w
  split
  case h_7 => exact careful_forStatement
  case h_19 => exact fun text => careful_identifierStatement text w
  all_goals
    simp [ifStatement, whileStatement, doWhileStatement, switchStatement, tryStatement, wordStatement,
      importStatement, componentDeclaration, propertyStatement]

/-! ## Goals -/

/-- Every goal skips tokens with care. -/
theorem careful_production (goal : Goal) : goal.production.Careful false := by
  cases goal with
  | statement => exact careful_statement
  | applied => exact careful_operand trivial
  | appliedTail => exact careful_appliedTail
  | script => simp [script]
  | standalone => simp [standalone]
  | leftovers => simp [leftovers]
  | statements stop => simp [statements]
  | switchClauses => simp [switchClauses, clauseBody]
  | catchClauses => simp [catchClauses, catchBody]
  | modifiers => simp [modifierWords]
  | dottedName => simp [dottedName]
  | dottedTail => simp [dottedTail]
  | typedName => simp [typedName]
  | propertyName => simp [propertyName]
  | attributes => simp [attributes]
  | parameters => simp [parameters, parameter, parameterBody]
  | expression => simp [expression]
  | ternary => simp [ternary]
  | binary level => simp [binary]
  | binaryTail level => simp [binaryTail, operator]
  | unary => simp [unary]
  | arguments => simp [arguments]
  | elements => simp [elements]
  | structEntries => simp [structEntries, structEntry, entryValue]

end Grammar

end CfScript
