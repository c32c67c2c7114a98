import CfScript.Proofs.Seam

/-!
# The grammar at a seam

Every production of the grammar chooses nothing by what stands behind a semicolon, and ends in front
of the seam unless it is a statement or a list of statements. What is left to see for each of them
is that what it takes last is no semicolon, or that nothing follows on one that could ask for more.

The attempt at the target of a loop is the one decision whose reading needs its context: it is made
where a word stands and behind it what goes on with a target, which the loop itself has just seen.

## Main results

* `Goal.joins`: every production ends as is said of its goal;
* `run_joins`: a sound run before the seam does the same whatever is behind the seam.
-/

namespace CfScript

namespace Production

theorem joins_ite {c : Prop} [Decidable c] {p q : Production} {e : Finish} {seen : List TokenKind} :
    (if c then p else q).Joins e seen ↔ (c → p.Joins e seen) ∧ (¬ c → q.Joins e seen) := by
  split <;> simp [*]

end Production

theorem TokenKind.isWord_symbol (s : Symbol) : (symbol s).isWord = false := rfl

theorem TokenKind.isWord_endOfInput : endOfInput.isWord = false := rfl

theorem TokenKind.ne_symbol_of_isWord {k : TokenKind} (h : k.isWord = true) (s : Symbol) :
    ¬ k = .symbol s := by
  rintro rfl
  cases h

namespace Grammar

open Production

attribute [local simp] Production.Joins Production.Rests Production.AtSeam Window.Blind Goal.finish
  Goal.production Finish.inner joins_ite Window.ends Window.kinds TokenKind.isWord_symbol
  TokenKind.isWord_endOfInput TokenKind.ne_symbol_of_isWord

variable {next : Production} {rule : Rule} {e : Finish} {ks : List TokenKind}

theorem joins_plainName : plainName.Joins .before ks := by
  simp [plainName]

theorem joins_dottedName : dottedName.Joins .before [] := by
  simp [dottedName]

theorem joins_dottedTail : dottedTail.Joins .before [] := by
  simp +contextual [dottedTail]

theorem joins_typedName : typedName.Joins .before [] := by
  simp +contextual [typedName, joins_plainName]

theorem joins_propertyName : propertyName.Joins .before [] := by
  simp +contextual [propertyName, joins_plainName]

theorem joins_attributes : attributes.Joins .before [] := by
  simp +contextual [attributes]

@[local simp] theorem joins_separated {goal : Goal} :
    (separated goal).Joins .before [] ↔ goal.finish = .before := by
  simp only [separated, Joins, joins_ite]
  refine ⟨fun h => ?_, fun h => ?_⟩
  · simpa using (h.2 ⟨.symbol .comma, .invalid, .invalid⟩ List.nil_prefix).1 rfl
  · simp +contextual [h, -Goal.finish]

theorem joins_parameters : parameters.Joins .before [] := by
  simp +contextual [parameters, parameter, parameterBody]

@[local simp] theorem joins_parameterList :
    (parameterList next).Joins e ks ↔ next.Joins e [] := by
  cases e <;> simp +contextual [parameterList]

@[local simp] theorem joins_listed : (listed next).Joins .beyond ks ↔ next.Joins .beyond [] := by
  simp [listed]

theorem joins_script : script.Joins .beyond [] := by
  simp +contextual [script]

theorem joins_statements (stop : List TokenKind) : (statements stop).Joins .beyond [] := by
  simp +contextual [statements]

@[local simp] theorem joins_block : (block next).Joins e ks ↔ next.Joins e [] := by
  cases e <;> simp [block]

@[local simp] theorem joins_condition : (condition next).Joins e ks ↔ next.Joins e [] := by
  simp [condition]

theorem joins_ended {broken : Production} (h : ∀ ks, broken.Joins .whole ks) :
    (ended rule broken).Joins .whole ks := by
  simp +contextual [ended, h]

@[local simp] theorem joins_unended : (unended rule).Joins .whole ks := by
  simp [unended]

@[local simp] theorem joins_terminated : (terminated rule).Joins .whole ks :=
  joins_ended fun ks => by simp

theorem joins_wordStatement {k : TokenKind} (h : k ≠ .symbol .semicolon) :
    (wordStatement rule).Joins .whole (k :: ks) := by
  simp [wordStatement, h]

theorem joins_valueStatement {k : TokenKind} (h : k ≠ .symbol .semicolon) :
    (valueStatement rule).Joins .whole (k :: ks) := by
  simp +contextual [valueStatement, h]

@[local simp] theorem joins_expressionStatement : expressionStatement.Joins .whole ks := by
  simp [expressionStatement]

theorem joins_declaration {k : TokenKind} (h : k ≠ .symbol .semicolon)
    (hNext : ∀ ks, next.Joins e ks) :
    (declaration next).Joins e (k :: ks) := by
  simp +contextual [declaration, h, hNext]

theorem joins_ifStatement {k : TokenKind} (h : k ≠ .symbol .semicolon) :
    ifStatement.Joins .whole (k :: ks) := by
  simp +contextual [ifStatement, h]

theorem joins_whileStatement {k : TokenKind} (h : k ≠ .symbol .semicolon) :
    whileStatement.Joins .whole (k :: ks) := by
  simp +contextual [whileStatement, h]

theorem joins_doWhileStatement {k : TokenKind} (h : k ≠ .symbol .semicolon) :
    doWhileStatement.Joins .whole (k :: ks) := by
  simp +contextual [doWhileStatement, h]

theorem joins_forIn : forIn.Joins .whole ks := by
  simp +contextual [forIn, loopTarget]

theorem joins_forClauses : forClauses.Joins .whole ks := by
  simp +contextual [forClauses, loopClause, loopRest, declaration]

theorem joins_forStatement {k : TokenKind} (h : k ≠ .symbol .semicolon) :
    forStatement.Joins .whole (k :: ks) := by
  refine ⟨⟨⟨⟨fun _ _ _ _ => rfl, fun first n m => ?_⟩, fun w _ => ?_⟩, fun hIs => ?_⟩,
    fun hOnly => absurd (hOnly k rfl) h⟩
  · by_cases hVar : first = .keyword .var <;> simp [hVar, targetTails]
  · refine joins_ite.2 ⟨fun _ => joins_forClauses, fun hWord => ?_⟩
    refine joins_ite.2 ⟨fun _ => joins_forIn, fun _ => ?_⟩
    refine joins_ite.2 ⟨fun hTail => ?_, fun _ => joins_forClauses⟩
    have hTarget : MayTarget w := ⟨by simpa using hWord, hTail⟩
    refine ⟨⟨rfl, rfl, w, rfl, hTarget⟩, ?_, joins_forIn, joins_forClauses⟩
    simp +contextual [loopTarget]
  · cases hIs

theorem joins_switchStatement {k : TokenKind} (h : k ≠ .symbol .semicolon) :
    switchStatement.Joins .whole (k :: ks) := by
  simp +contextual [switchStatement, h]

theorem joins_switchClauses : switchClauses.Joins .beyond [] := by
  simp +contextual [switchClauses, clauseBody]

theorem joins_catchClauses : catchClauses.Joins .before [] := by
  simp +contextual [catchClauses, catchBody]

theorem joins_tryStatement {k : TokenKind} (h : k ≠ .symbol .semicolon) :
    tryStatement.Joins .whole (k :: ks) := by
  simp +contextual [tryStatement, h]

theorem joins_importStatement {k : TokenKind} (h : k ≠ .symbol .semicolon) :
    importStatement.Joins .whole (k :: ks) := by
  simp +contextual [importStatement, h]

theorem joins_componentDeclaration {k : TokenKind} (h : k ≠ .symbol .semicolon) :
    (componentDeclaration rule).Joins .whole (k :: ks) := by
  simp +contextual [componentDeclaration, h]

theorem joins_tagStatement {k : TokenKind} (h : k ≠ .symbol .semicolon) :
    tagStatement.Joins .whole (k :: ks) := by
  simp +contextual [tagStatement, h]

theorem joins_propertyStatement {k : TokenKind} (h : k ≠ .symbol .semicolon) :
    propertyStatement.Joins .whole (k :: ks) := by
  simp +contextual [propertyStatement, h]

theorem joins_modifierWords : modifierWords.Joins .before [] := by
  simp +contextual [modifierWords]

theorem joins_signature : signature.Joins .whole ks := by
  simp +contextual [signature, joins_ended]

theorem joins_functionDeclaration : functionDeclaration.Joins .whole ks := by
  simp +contextual [functionDeclaration, dottedName, joins_signature]

theorem joins_headedStatement {w : Window} (ks) : (headedStatement w).Joins .whole ks := by
  simp +contextual [headedStatement, joins_functionDeclaration]

theorem joins_identifierStatement {w : Window} (h : w.here ≠ .symbol .semicolon) (text : String) :
    (identifierStatement text w).Joins .whole w.kinds := by
  simp +contextual [identifierStatement, h, joins_headedStatement, joins_tagStatement,
    joins_valueStatement]

theorem blind_identifierStatement (text : String) (h n m : TokenKind) :
    identifierStatement text ⟨h, .symbol .semicolon, n⟩ =
      identifierStatement text ⟨h, .symbol .semicolon, m⟩ := by
  simp [identifierStatement, headedStatement]

theorem joins_statement : statement.Joins .whole [] := by
  refine ⟨⟨fun n m k l => rfl, fun h n m => ?_⟩, fun w _ => ?_⟩
  · cases h with
    | symbol s => cases s <;> rfl
    | keyword k => cases k <;> rfl
    | identifier => simp [blind_identifierStatement _ _ n m]
    | _ => rfl
  · obtain ⟨h, n, m⟩ := w
    cases h with
    | symbol s => cases s <;> simp
    | keyword k =>
      cases k <;> simp [joins_wordStatement, joins_valueStatement, joins_ifStatement,
        joins_whileStatement, joins_doWhileStatement, joins_forStatement, joins_switchStatement,
        joins_tryStatement, joins_importStatement, joins_componentDeclaration,
        joins_propertyStatement, joins_functionDeclaration, joins_declaration]
    | identifier => exact joins_identifierStatement (by simp)
    | _ => simp

theorem joins_standalone : standalone.Joins .beyond [] := by
  simp +contextual [standalone]

theorem joins_leftovers : leftovers.Joins .beyond [] := by
  simp +contextual [leftovers]

/-! ## Expressions -/

theorem ne_semicolon_of_isAssignment {k : TokenKind} (h : k.isAssignment = true) :
    k ≠ .symbol .semicolon := by
  rintro rfl
  cases h

theorem joins_expression : expression.Joins .before [] := by
  simp +contextual [expression, ne_semicolon_of_isAssignment]

theorem joins_ternary : ternary.Joins .before [] := by
  simp +contextual [ternary]

theorem joins_binary (level : Nat) : (binary level).Joins .before [] := by
  simp +contextual [binary]

theorem ne_semicolon_of_binaryLevels {level : Nat} {k : TokenKind}
    (h : (binaryLevels.getD level []).contains k = true) : k ≠ .symbol .semicolon := by
  obtain ⟨ks, hKs, hK⟩ := exists_mem_binaryLevels h
  rintro rfl
  revert ks
  decide

theorem ne_semicolon_of_unaryOperators {k : TokenKind} (h : unaryOperators.contains k = true) :
    k ≠ .symbol .semicolon := by
  rintro rfl
  revert h
  decide

theorem joins_operator {k : TokenKind} (h : k ≠ .symbol .semicolon)
    (hNext : ∀ ks, next.Joins .before ks) : (operator next).Joins .before (k :: ks) := by
  refine ⟨⟨fun _ _ _ _ => rfl, fun _ _ _ => rfl⟩, fun w hSees => ?_⟩
  have hHere : w.here ≠ .symbol .semicolon := by rwa [← (List.cons_prefix_cons.1 hSees).1]
  simp +contextual [hHere, hNext]

theorem joins_binaryTail (level : Nat) : (binaryTail level).Joins .before [] := by
  refine ⟨⟨fun _ _ _ _ => rfl, fun _ _ _ => rfl⟩, fun w _ => ?_⟩
  dsimp only
  split
  next hIs => exact joins_operator (ne_semicolon_of_binaryLevels hIs) fun ks => by simp
  next => trivial

theorem joins_unary : unary.Joins .before [] := by
  refine ⟨⟨fun _ _ _ _ => rfl, fun _ _ _ => rfl⟩, fun w _ => ?_⟩
  dsimp only
  split
  next hIs => simp [ne_semicolon_of_unaryOperators hIs]
  next => simp

theorem joins_arguments : arguments.Joins .before [] := by
  simp +contextual [arguments]

theorem joins_elements : elements.Joins .before [] := by
  simp +contextual [elements]

theorem joins_structEntries : structEntries.Joins .before [] := by
  simp +contextual [structEntries, structEntry, entryValue]

section

variable (hNext : ∀ ks, next.Joins .before ks)

include hNext

theorem joins_arrowBody : (arrowBody next).Joins .before ks := by
  simp [arrowBody, hNext]

theorem joins_argumentList {k : TokenKind} (h : k ≠ .symbol .semicolon) :
    (argumentList next).Joins .before (k :: ks) := by
  simp +contextual [argumentList, hNext, h]

theorem joins_arrayLiteral {k : TokenKind} (h : k ≠ .symbol .semicolon) :
    (arrayLiteral next).Joins .before (k :: ks) := by
  simp +contextual [arrayLiteral, hNext, h]

theorem joins_structLiteral {k : TokenKind} (h : k ≠ .symbol .semicolon) :
    (structLiteral next).Joins .before (k :: ks) := by
  simp +contextual [structLiteral, hNext, h]

theorem joins_newArguments : (newArguments next).Joins .before ks := by
  refine ⟨⟨fun _ _ _ _ => rfl, fun _ _ _ => rfl⟩, fun w _ => ?_⟩
  dsimp only
  split
  next hIs =>
    rw [Window.kinds, hIs]
    exact joins_argumentList (fun ks => hNext ks) (by simp)
  next => exact hNext _

theorem joins_newExpression {k : TokenKind} (h : k ≠ .symbol .semicolon) :
    (newExpression next).Joins .before (k :: ks) := by
  simp +contextual [newExpression, joins_newArguments hNext, h]

theorem joins_functionExpression {k : TokenKind} (h : k ≠ .symbol .semicolon) :
    (functionExpression next).Joins .before (k :: ks) := by
  simp +contextual [functionExpression, hNext, h]

theorem joins_arrowFunction : (arrowFunction next).Joins .before ks := by
  simp [arrowFunction, hNext, arrowBody]

theorem joins_parenOrArrow {w : Window} (h : w.here = .symbol .lParen) :
    (parenOrArrow w next).Joins .before w.kinds := by
  simp +contextual [parenOrArrow, hNext, h, parenthesized, joins_arrowFunction hNext]

theorem joins_operand : (operand next).Joins .before [] := by
  refine ⟨⟨fun n m k l => rfl, fun h n m => ?_⟩, fun w _ => ?_⟩
  · cases h with
    | symbol s => cases s <;> simp [parenOrArrow]
    | keyword k => cases k <;> rfl
    | _ => rfl
  · obtain ⟨h, n, m⟩ := w
    cases h with
    | symbol s =>
      cases s with
      | lParen => exact joins_parenOrArrow hNext rfl
      | lBracket => exact joins_arrayLiteral hNext (by simp)
      | lBrace => exact joins_structLiteral hNext (by simp)
      | _ => trivial
    | keyword k =>
      cases k with
      | new => exact joins_newExpression hNext (by simp)
      | function => exact joins_functionExpression hNext (by simp)
      | _ => simp [hNext]
    | identifier => simp +contextual [hNext, joins_arrowBody hNext]
    | _ => simp [hNext]

end

theorem joins_appliedTail : appliedTail.Joins .before [] := by
  refine ⟨⟨fun n m k l => rfl, fun h n m => rfl⟩, fun w _ => ?_⟩
  obtain ⟨h, n, m⟩ := w
  cases h with
  | symbol s =>
    cases s with
    | lParen => exact joins_argumentList (fun ks => by simp) (by simp)
    | _ => simp
  | _ => simp

end Grammar

/-! ## All goals -/

/-- Every goal ends as is said of it. -/
theorem Goal.joins (goal : Goal) : goal.production.Joins goal.finish [] := by
  cases goal with
  | script => exact Grammar.joins_script
  | standalone => exact Grammar.joins_standalone
  | leftovers => exact Grammar.joins_leftovers
  | statements stop => exact Grammar.joins_statements stop
  | statement => exact Grammar.joins_statement
  | switchClauses => exact Grammar.joins_switchClauses
  | catchClauses => exact Grammar.joins_catchClauses
  | modifiers => exact Grammar.joins_modifierWords
  | dottedName => exact Grammar.joins_dottedName
  | dottedTail => exact Grammar.joins_dottedTail
  | typedName => exact Grammar.joins_typedName
  | propertyName => exact Grammar.joins_propertyName
  | attributes => exact Grammar.joins_attributes
  | parameters => exact Grammar.joins_parameters
  | expression => exact Grammar.joins_expression
  | ternary => exact Grammar.joins_ternary
  | binary level => exact Grammar.joins_binary level
  | binaryTail level => exact Grammar.joins_binaryTail level
  | unary => exact Grammar.joins_unary
  | applied => exact Grammar.joins_operand fun ks => .inl rfl
  | appliedTail => exact Grammar.joins_appliedTail
  | arguments => exact Grammar.joins_arguments
  | elements => exact Grammar.joins_elements
  | structEntries => exact Grammar.joins_structEntries

/-- A sound run before the seam ends as is said of its goal, whatever is behind the seam. -/
theorem run_joins (steps : Nat) : CallsJoin steps := by
  induction steps with
  | zero =>
    intro t goal trying f s parts s' also hElse hPoised h
    cases h
  | succ steps ih =>
    intro t goal trying f s parts s' also hElse hPoised h hSound
    exact exec_joins hElse ih goal.production also goal.joins hPoised h hSound

end CfScript
