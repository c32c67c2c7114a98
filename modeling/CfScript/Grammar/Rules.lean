import CfScript.Grammar.Delimiters
import CfScript.Grammar.Production

/-!
# The grammar

The production of every goal, from whole scripts down to single operands. `Goal.production` ties the
knot; the productions that no goal repeats are ordinary definitions above it.

Binary operators stand in ten levels, the loosest first, and group to the left. A leading word `NOT`
takes a whole comparison: it stands at the level of the comparisons.
-/

namespace CfScript.Grammar

open Production

/-! ## Words and operators -/

/-- The words that may stand before `function`. -/
def modifiers : List String :=
  ["public", "private", "package", "remote", "static", "final", "abstract"]

/-- The words that introduce a statement in the style of a tag. -/
def tagWords : List String :=
  ["lock", "transaction", "thread", "savecontent", "param", "setting", "location", "exit"]

/-- The operators that compare. -/
def comparisons : List TokenKind :=
  [.symbol .eqEq, .symbol .eqEqEq, .symbol .bangEq, .symbol .bangEqEq, .symbol .ltGt, .symbol .lt,
    .symbol .ltEq, .symbol .gt, .symbol .gtEq, .keyword .eq, .keyword .neq, .keyword .is,
    .keyword .gt, .keyword .gte, .keyword .ge, .keyword .lt, .keyword .lte, .keyword .le,
    .keyword .contains, .keyword .does]

/-- The binary operators by level, loosest first. -/
def binaryLevels : List (List TokenKind) :=
  [[.keyword .imp], [.keyword .eqv], [.keyword .xor], [.keyword .or, .symbol .orOr],
    [.keyword .and, .symbol .andAnd], comparisons, [.symbol .amp], [.symbol .plus, .symbol .minus],
    [.symbol .star, .symbol .slash, .symbol .percent, .keyword .mod, .symbol .backslash],
    [.symbol .caret]]

/-- The level of the comparisons, at which a leading word `NOT` takes a whole comparison. -/
def notLevel : Nat := 5

/-- The operators before an operand. -/
def unaryOperators : List TokenKind :=
  [.symbol .minus, .symbol .plus, .symbol .bang, .keyword .not, .symbol .plusPlus,
    .symbol .minusMinus]

/-- The tokens that an expression leaves alone when it fails to start. -/
def boundaries : List TokenKind :=
  [.symbol .semicolon, .symbol .rBrace, .symbol .rParen, .symbol .rBracket, .symbol .comma,
    .symbol .colon, .symbol .lBrace, .endOfInput]

/-- The kinds before which a statement needs no semicolon. -/
def closers : List TokenKind := [.symbol .rBrace, .endOfInput]

/-! ## Decisions on unbounded lookahead -/

/-- Whether words and dots, at least one of them, lead to `function`. -/
def leadsToFunction : List TokenKind → Bool
  | k :: ks => (k.isWord || k == .symbol .dot) && k != .keyword .function && go ks
  | [] => false
where
  /-- Whether words and dots lead to `function`. -/
  go : List TokenKind → Bool
    | [] => false
    | k :: ks =>
      k == .keyword .function || ((k.isWord || k == .symbol .dot) && go ks)

/-- Whether the parenthesis at the head closes in front of an arrow; `depth` parentheses are open. -/
def closesBeforeArrow (depth : Nat) : List TokenKind → Bool
  | [] => false
  | k :: ks =>
    if k = .endOfInput then false
    else if k = .symbol .lParen then closesBeforeArrow (depth + 1) ks
    else if k = .symbol .rParen then
      if depth ≤ 1 then ks.head? == some (.symbol .arrow) else closesBeforeArrow (depth - 1) ks
    else closesBeforeArrow depth ks

/-! ## Names, types and attributes -/

/-- One name; a dotted one is a fault. -/
def plainName : Production := single done <| close .typeName <| assume .expectedName done

/-- A word, and more words after dots. -/
def dottedName : Production := word <| again .dottedTail

/-- More words after dots. -/
def dottedTail : Production :=
  look fun w =>
    if w.here = .symbol .dot ∧ w.next.isWord then take <| take <| again .dottedTail else done

/-- A name, or a type and a name. -/
def typedName : Production :=
  parse .dottedName <| look fun w =>
    if w.here.isWord then close .typeName <| take done else plainName

/-- The name of a property, or its type and its name; a word before `=` is an attribute. -/
def propertyName : Production :=
  parse .dottedName <| look fun w =>
    if w.here.isWord ∧ w.next ≠ .symbol .assign then close .typeName <| take done else plainName

/-- Attributes: names with values. -/
def attributes : Production :=
  look fun w =>
    if w.here.isWord ∧ w.next = .symbol .assign then
      node .attribute (take <| take <| parse .ternary done) <| again .attributes
    else done

/-- A parameter without its modifier. -/
def parameterBody : Production :=
  parse .typedName <| look fun w =>
    if w.here = .symbol .assign then take <| parse .ternary <| parse .attributes done
    else parse .attributes done

/-- A parameter; the word `required` before another word is its modifier. -/
def parameter : Production :=
  look fun w =>
    if w.here.isWord ∧ w.next.isWord then
      spell fun text => if text = "required" then take parameterBody else parameterBody
    else parameterBody

/-- What goes on after a comma, and otherwise is finished. -/
def separated (goal : Goal) : Production :=
  look fun w => if w.here = .symbol .comma then take <| again goal else done

/-- Parameters between commas. -/
def parameters : Production := node .parameter parameter <| separated .parameters

/-- Parameters in parentheses. -/
def parameterList (next : Production) : Production :=
  node .parameterList
    (expect (.symbol .lParen) <| look fun w =>
      if w.here = .symbol .rParen then take done
      else parse .parameters <| expect (.symbol .rParen) done)
    next

/-! ## Statements -/

/-- One statement of a list; a token that starts none is skipped. -/
def listed (next : Production) : Production :=
  progress .statement (reject .expectedStatement next) next

/-- Statements up to the end of the input. A closing brace is skipped. -/
def script : Production :=
  look fun w =>
    if w.here = .endOfInput then take done
    else if w.here = .symbol .rBrace then reject .strayBrace <| again .script
    else listed <| again .script

/-- Statements up to a token of one of the kinds. -/
def statements (stop : List TokenKind) : Production :=
  look fun w =>
    if w.here = .endOfInput ∨ stop.contains w.here then done else listed <| again (.statements stop)

/-- Statements in braces. -/
def block (next : Production) : Production :=
  node .block
    (expect (.symbol .lBrace) <| parse (.statements [.symbol .rBrace]) <|
      expect (.symbol .rBrace) done)
    next

/-- An expression in parentheses. -/
def condition (next : Production) : Production :=
  expect (.symbol .lParen) <| parse .expression <| expect (.symbol .rParen) next

/-- The end of a statement, which becomes a node of the rule. Its semicolon is required unless a
closing brace or the end of the input follows. -/
def ended (rule : Rule) (broken : Production) : Production :=
  look fun w =>
    if w.here = .symbol .semicolon then take <| close rule done
    else if closers.contains w.here then close rule done
    else broken

/-- A statement that lacks its semicolon. -/
def unended (rule : Rule) : Production :=
  assume (.expectedToken (.symbol .semicolon)) <| close rule done

/-- The end of a statement. The rest of a statement in which something was found wrong is skipped. -/
def terminated (rule : Rule) : Production :=
  ended rule <| troubled (recover <| close rule done) (unended rule)

/-- A statement of one word. -/
def wordStatement (rule : Rule) : Production := take <| terminated rule

/-- A statement of one word, with or without a value. -/
def valueStatement (rule : Rule) : Production :=
  take <| look fun w =>
    if w.here = .symbol .semicolon ∨ closers.contains w.here then terminated rule
    else parse .expression <| terminated rule

/-- A statement that is an expression. -/
def expressionStatement : Production := parse .expression <| terminated .expressionStatement

/-- `var` and a name, with or without a value. -/
def declaration (next : Production) : Production :=
  take <| word <| look fun w =>
    if w.here = .symbol .assign then take <| parse .expression next else next

/-- `if`, with or without `else`. -/
def ifStatement : Production :=
  take <| condition <| parse .statement <| look fun w =>
    if w.here = .keyword .else_ then take <| parse .statement <| close .ifStatement done
    else close .ifStatement done

/-- `while`. -/
def whileStatement : Production :=
  take <| condition <| parse .statement <| close .whileStatement done

/-- `do` with its `while`. -/
def doWhileStatement : Production :=
  take <| parse .statement <| expect (.keyword .while_) <| condition <| terminated .doWhileStatement

/-- The target of a `for` over a collection, with or without `var`. -/
def loopTarget (next : Production) : Production :=
  look fun w =>
    if w.here = .keyword .var then take <| parse .applied next else parse .applied next

/-- `for` over a collection, after its opening parenthesis. -/
def forIn : Production :=
  loopTarget <| expect (.keyword .in_) <| parse .expression <| expect (.symbol .rParen) <|
    parse .statement <| close .forInStatement done

/-- A clause of a `for` up to a token of the kind; it may be empty. -/
def loopClause (stop : TokenKind) (next : Production) : Production :=
  look fun w => if w.here = stop then take next else parse .expression <| expect stop next

/-- The condition, the update and the body of a `for`. -/
def loopRest : Production :=
  loopClause (.symbol .semicolon) <| loopClause (.symbol .rParen) <| parse .statement <|
    close .forStatement done

/-- `for` with three clauses, after its opening parenthesis. -/
def forClauses : Production :=
  look fun w =>
    if w.here = .keyword .var then
      node .varStatement (declaration done) <| expect (.symbol .semicolon) loopRest
    else loopClause (.symbol .semicolon) loopRest

/-- What a target that is no plain name goes on with. -/
def targetTails : List TokenKind := [.symbol .dot, .symbol .lBracket, .symbol .safeDot]

/-- What a loop goes on with behind its opening parenthesis, by whether it is over a collection: whether a
target and `in` follow. -/
def loopKind (yes no : Production) : Production :=
  look fun w =>
    let first := if w.here = .keyword .var then w.next else w.here
    let second := if w.here = .keyword .var then w.second else w.next
    if first.isWord = false then no
    else if second = .keyword .in_ then yes
    else if targetTails.contains second then
      trial .loopTarget (loopTarget done) (.keyword .in_) yes no
    else no

/-- `for`, over a collection or with clauses. -/
def forStatement : Production :=
  take <| expect (.symbol .lParen) <| loopKind forIn forClauses

/-- The statements of a clause of a `switch`. -/
def clauseBody : Production :=
  parse (.statements [.keyword .case, .keyword .default, .symbol .rBrace]) done

/-- The clauses of a `switch`. -/
def switchClauses : Production :=
  look fun w =>
    if closers.contains w.here then done
    else if w.here = .keyword .case then
      node .caseClause (take <| parse .expression <| expect (.symbol .colon) clauseBody) <|
        again .switchClauses
    else if w.here = .keyword .default then
      node .defaultClause (take <| expect (.symbol .colon) clauseBody) <| again .switchClauses
    else reject .expectedClause <| again .switchClauses

/-- `switch`. -/
def switchStatement : Production :=
  take <| condition <| expect (.symbol .lBrace) <| parse .switchClauses <|
    expect (.symbol .rBrace) <| close .switchStatement done

/-- The parenthesis of a `catch` after its opening, and the block. -/
def catchBody : Production := expect (.symbol .rParen) <| block done

/-- The clauses of a `try` that catch. -/
def catchClauses : Production :=
  look fun w =>
    if w.here = .keyword .catch_ then
      node .catchClause
        (take <| expect (.symbol .lParen) <| look fun w =>
          if w.here = .string then node .typeName (take done) <| word catchBody
          else parse .typedName catchBody) <|
        again .catchClauses
    else done

/-- `try` with its clauses. -/
def tryStatement : Production :=
  take <| block <| parse .catchClauses <| look fun w =>
    if w.here = .keyword .finally_ then
      node .finallyClause (take <| block done) <| close .tryStatement done
    else close .tryStatement done

/-- `import` of a string, or of a dotted path that may end in `.*`. -/
def importStatement : Production :=
  take <| look fun w =>
    if w.here = .string then take <| terminated .importStatement
    else
      node .typeName
        (parse .dottedName <| look fun w =>
          if w.here = .symbol .dot ∧ w.next = .symbol .star then take <| take done else done) <|
        terminated .importStatement

/-- A component or an interface. -/
def componentDeclaration (rule : Rule) : Production :=
  take <| parse .attributes <| block <| close rule done

/-- A statement in the style of a tag, with or without a body. -/
def tagStatement : Production :=
  take <| parse .attributes <| look fun w =>
    if w.here = .symbol .lBrace then block <| close .tagStatement done
    else terminated .tagStatement

/-- A property: attributes only, or a name with or without a type and attributes. -/
def propertyStatement : Production :=
  take <| look fun w =>
    if w.here.isWord ∧ w.next = .symbol .assign then
      parse .attributes <| terminated .propertyFull
    else parse .propertyName <| parse .attributes <| terminated .propertyShorthand

/-- The words before the return type or `function`. -/
def modifierWords : Production :=
  look fun w =>
    if w.here = .identifier ∧ w.next ≠ .symbol .dot then
      spell fun text => if modifiers.contains text then take <| again .modifiers else done
    else done

/-- A function from the word `function` on; a signature without a body ends like a statement. -/
def signature : Production :=
  expect (.keyword .function) <| word <| parameterList <| parse .attributes <| look fun w =>
    if w.here = .symbol .lBrace then block <| close .functionDeclaration done
    else ended .functionDeclaration <| unended .functionDeclaration

/-- A function with its modifiers and its return type. -/
def functionDeclaration : Production :=
  parse .modifiers <| look fun w =>
    if w.here = .keyword .function then signature
    else node .returnType (node .typeName dottedName done) signature

/-- A statement that starts with a word, which may be the head of a function. -/
def headedStatement (w : Window) : Production :=
  if w.next = .keyword .function ∨ (w.next.isWord ∧ w.second = .keyword .function) then
    functionDeclaration
  else if w.next = .symbol .dot then
    scan none leadsToFunction functionDeclaration expressionStatement
  else if w.next.isWord ∧ w.second.isWord then
    scan (some .declarationHead) leadsToFunction functionDeclaration expressionStatement
  else expressionStatement

/-- A statement that starts with an identifier, which reads `text` in small letters. -/
def identifierStatement (text : String) (w : Window) : Production :=
  if tagWords.contains text ∧
      ((w.next.isWord ∧ w.second = .symbol .assign) ∨ w.next = .symbol .lBrace ∨
        (text = "exit" ∧ (w.next = .symbol .semicolon ∨ closers.contains w.next))) then
    tagStatement
  else if text = "abort" ∧
      (w.next = .symbol .semicolon ∨ closers.contains w.next ∨ w.next = .string) then
    valueStatement .abortStatement
  else if text = "include" ∧ w.next = .string then valueStatement .includeStatement
  else headedStatement w

/-- One statement. -/
def statement : Production :=
  look fun w =>
    match w.here with
    | .symbol .lBrace => block done
    | .symbol .semicolon => take <| close .emptyStatement done
    | .keyword .var => declaration <| terminated .varStatement
    | .keyword .if_ => ifStatement
    | .keyword .while_ => whileStatement
    | .keyword .do_ => doWhileStatement
    | .keyword .for_ => forStatement
    | .keyword .switch => switchStatement
    | .keyword .try_ => tryStatement
    | .keyword .return_ => valueStatement .returnStatement
    | .keyword .throw_ => valueStatement .throwStatement
    | .keyword .break_ => wordStatement .breakStatement
    | .keyword .continue_ => wordStatement .continueStatement
    | .keyword .import_ => importStatement
    | .keyword .component =>
      if w.next = .keyword .function then functionDeclaration
      else componentDeclaration .componentDeclaration
    | .keyword .interface =>
      if w.next = .keyword .function then functionDeclaration
      else componentDeclaration .interfaceDeclaration
    | .keyword .property => propertyStatement
    | .keyword .function => if w.next.isWord then functionDeclaration else expressionStatement
    | .identifier => spell fun text => identifierStatement text w
    | _ => expressionStatement

/-! ## Expressions -/

/-- One expression, then the end of the input. -/
def standalone : Production :=
  parse .expression <| look fun w =>
    if w.here = .endOfInput then take done else reject .trailingInput <| again .leftovers

/-- Tokens that are left over after the expression. -/
def leftovers : Production :=
  look fun w => if w.here = .endOfInput then take done else skip <| again .leftovers

/-- An assignment, or what binds tighter. Assignments group to the right. -/
def expression : Production :=
  parse .ternary <| look fun w =>
    if w.here.isAssignment then take <| parse .expression <| close .assignmentExpression done
    else done

/-- A choice between two values, or what binds tighter. -/
def ternary : Production :=
  parse (.binary 0) <| look fun w =>
    if w.here = .symbol .question then
      take <| parse .ternary <| expect (.symbol .colon) <| parse .ternary <|
        close .ternaryExpression done
    else if w.here = .symbol .elvis then take <| parse .ternary <| close .elvisExpression done
    else done

/-- Operands and the binary operators of a level and of all tighter ones. -/
def binary (level : Nat) : Production :=
  look fun w =>
    if level = notLevel ∧ w.here = .keyword .not then
      take <| parse (.binary level) <| close .unaryExpression done
    else if level < binaryLevels.length then
      parse (.binary (level + 1)) <| again (.binaryTail level)
    else again .unary

/-- An operator of one word or symbol, `IS NOT`, or `DOES NOT CONTAIN`. -/
def operator (next : Production) : Production :=
  look fun w =>
    if w.here = .keyword .is then
      take <| look fun w => if w.here = .keyword .not then take next else next
    else if w.here = .keyword .does then
      take <| expect (.keyword .not) <| expect (.keyword .contain) next
    else take next

/-- What follows an operand: binary operators of the level. They group to the left. -/
def binaryTail (level : Nat) : Production :=
  look fun w =>
    if (binaryLevels.getD level []).contains w.here then
      operator <| parse (.binary (level + 1)) <| close .binaryExpression <|
        again (.binaryTail level)
    else done

/-- An operand with the operators before it. -/
def unary : Production :=
  look fun w =>
    if unaryOperators.contains w.here then
      take <| parse .unary <| close .unaryExpression done
    else again .applied

/-- Arguments between commas; a word before `=` names its argument. -/
def arguments : Production :=
  look fun w =>
    if w.here.isWord ∧ w.next = .symbol .assign then
      node .argument (take <| take <| parse .ternary done) <| separated .arguments
    else node .argument (parse .expression done) <| separated .arguments

/-- Arguments in parentheses, at the opening one. -/
def argumentList (next : Production) : Production :=
  node .argumentList
    (take <| look fun w =>
      if w.here = .symbol .rParen then take done
      else parse .arguments <| expect (.symbol .rParen) done)
    next

/-- The body of an arrow function, after the arrow. -/
def arrowBody (next : Production) : Production :=
  look fun w =>
    if w.here = .symbol .lBrace then block <| close .arrowFunction next
    else parse .expression <| close .arrowFunction next

/-- An arrow function with its parameters in parentheses. -/
def arrowFunction (next : Production) : Production := parameterList <| take <| arrowBody next

/-- An expression in parentheses, at the opening one. -/
def parenthesized (next : Production) : Production :=
  take <| parse .expression <| expect (.symbol .rParen) <| close .parenExpression next

/-- What starts with a parenthesis: an arrow function if an arrow follows the closing one. -/
def parenOrArrow (w : Window) (next : Production) : Production :=
  if w.next = .symbol .rParen then
    if w.second = .symbol .arrow then arrowFunction next else parenthesized next
  else if w.next.isWord ∧
      (w.second.isWord ∨ w.second = .symbol .rParen ∨ w.second = .symbol .comma ∨
        w.second = .symbol .assign) then
    scan (some .arrowParameters) (closesBeforeArrow 0) (arrowFunction next) (parenthesized next)
  else parenthesized next

/-- Expressions between commas. -/
def elements : Production := parse .expression <| separated .elements

/-- An array, at its opening bracket. -/
def arrayLiteral (next : Production) : Production :=
  take <| look fun w =>
    if w.here = .symbol .rBracket then take <| close .arrayLiteral next
    else parse .elements <| expect (.symbol .rBracket) <| close .arrayLiteral next

/-- The value of an entry of a struct and the colon or `=` before it. -/
def entryValue : Production :=
  look fun w =>
    if w.here = .symbol .assign then take <| parse .expression done
    else expect (.symbol .colon) <| parse .expression done

/-- An entry of a struct. -/
def structEntry : Production :=
  look fun w =>
    if w.here.isWord ∨ w.here = .string ∨ w.here = .integer then take entryValue
    else assume .expectedStructKey entryValue

/-- Entries of a struct between commas. -/
def structEntries : Production := node .structEntry structEntry <| separated .structEntries

/-- A struct, at its opening brace. -/
def structLiteral (next : Production) : Production :=
  take <| look fun w =>
    if w.here = .symbol .rBrace then take <| close .structLiteral next
    else parse .structEntries <| expect (.symbol .rBrace) <| close .structLiteral next

/-- The arguments of a new object, if there are any. -/
def newArguments (next : Production) : Production :=
  look fun w =>
    if w.here = .symbol .lParen then argumentList <| close .newExpression next
    else close .newExpression next

/-- A new object of a class, which a string or a dotted name tells. -/
def newExpression (next : Production) : Production :=
  take <| look fun w =>
    if w.here = .string then take <| newArguments next
    else node .typeName (parse .dottedName done) <| newArguments next

/-- A function without a name. -/
def functionExpression (next : Production) : Production :=
  take <| parameterList <| block <| close .functionExpression next

/-- An operand. Where none starts, one is assumed in front of a token that belongs to what is
around; any other token is skipped. -/
def operand (next : Production) : Production :=
  look fun w =>
    match w.here with
    | .integer => take next
    | .float => take next
    | .string => take next
    | .keyword .true_ => take next
    | .keyword .false_ => take next
    | .keyword .null => take next
    | .identifier =>
      if w.next = .symbol .arrow then take <| take <| arrowBody next else take next
    | .symbol .lParen => parenOrArrow w next
    | .symbol .lBracket => arrayLiteral next
    | .symbol .lBrace => structLiteral next
    | .keyword .new => newExpression next
    | .keyword .function => functionExpression next
    | .invalid => skip next
    | kind =>
      if boundaries.contains kind ∨ Token.startsStatement kind then
        assume .expectedExpression next
      else reject .expectedExpression next

/-- What is applied to an operand. -/
def appliedTail : Production :=
  look fun w =>
    match w.here with
    | .symbol .lParen => argumentList <| close .callExpression <| again .appliedTail
    | .symbol .dot => take <| word <| close .memberExpression <| again .appliedTail
    | .symbol .safeDot => take <| word <| close .memberExpression <| again .appliedTail
    | .symbol .lBracket =>
      take <| parse .expression <| expect (.symbol .rBracket) <| close .indexExpression <|
        again .appliedTail
    | .symbol .plusPlus => take <| close .postfixExpression <| again .appliedTail
    | .symbol .minusMinus => take <| close .postfixExpression <| again .appliedTail
    | _ => done

end CfScript.Grammar

namespace CfScript

/-- The production of a goal. -/
def Goal.production : Goal → Production
  | script => Grammar.script
  | standalone => Grammar.standalone
  | leftovers => Grammar.leftovers
  | statements stop => Grammar.statements stop
  | statement => Grammar.statement
  | switchClauses => Grammar.switchClauses
  | catchClauses => Grammar.catchClauses
  | modifiers => Grammar.modifierWords
  | dottedName => Grammar.dottedName
  | dottedTail => Grammar.dottedTail
  | typedName => Grammar.typedName
  | propertyName => Grammar.propertyName
  | attributes => Grammar.attributes
  | parameters => Grammar.parameters
  | expression => Grammar.expression
  | ternary => Grammar.ternary
  | binary level => Grammar.binary level
  | binaryTail level => Grammar.binaryTail level
  | unary => Grammar.unary
  | applied => Grammar.operand (.again .appliedTail)
  | appliedTail => Grammar.appliedTail
  | arguments => Grammar.arguments
  | elements => Grammar.elements
  | structEntries => Grammar.structEntries

end CfScript
