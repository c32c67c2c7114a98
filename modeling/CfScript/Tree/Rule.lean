/-!
# Rules of the grammar

Each interior node of a parse tree is an instance of one rule. Alternatives that the program tree must
tell apart are rules of their own.
-/

namespace CfScript

/-- The rules of the grammar. -/
inductive Rule where
  | scriptBlock
  | standaloneExpression
  | block
  | emptyStatement
  | expressionStatement
  | varStatement
  | ifStatement
  | whileStatement
  | doWhileStatement
  | forStatement
  | forInStatement
  | switchStatement
  | caseClause
  | defaultClause
  | breakStatement
  | continueStatement
  | returnStatement
  | tryStatement
  | catchClause
  | finallyClause
  | throwStatement
  | functionDeclaration
  | returnType
  | parameterList
  | parameter
  | attribute
  | componentDeclaration
  | interfaceDeclaration
  | propertyFull
  | propertyShorthand
  | tagStatement
  | importStatement
  | includeStatement
  | abortStatement
  | typeName
  | assignmentExpression
  | ternaryExpression
  | elvisExpression
  | binaryExpression
  | unaryExpression
  | postfixExpression
  | parenExpression
  | callExpression
  | argumentList
  | argument
  | memberExpression
  | indexExpression
  | arrayLiteral
  | structLiteral
  | structEntry
  | newExpression
  | functionExpression
  | arrowFunction
deriving DecidableEq, Inhabited

namespace Rule

/-- All rules. -/
def all : List Rule :=
  [scriptBlock, standaloneExpression, block, emptyStatement, expressionStatement, varStatement,
    ifStatement, whileStatement, doWhileStatement, forStatement, forInStatement, switchStatement,
    caseClause, defaultClause, breakStatement, continueStatement, returnStatement, tryStatement,
    catchClause, finallyClause, throwStatement, functionDeclaration, returnType, parameterList,
    parameter, .attribute, componentDeclaration, interfaceDeclaration, propertyFull,
    propertyShorthand, tagStatement, importStatement, includeStatement, abortStatement, typeName,
    assignmentExpression, ternaryExpression, elvisExpression, binaryExpression, unaryExpression,
    postfixExpression, parenExpression, callExpression, argumentList, argument, memberExpression,
    indexExpression, arrayLiteral, structLiteral, structEntry, newExpression, functionExpression,
    arrowFunction]

/-- The rule as parse trees write it. -/
def name : Rule → String
  | scriptBlock => "scriptBlock"
  | standaloneExpression => "standaloneExpression"
  | block => "block"
  | emptyStatement => "emptyStatement"
  | expressionStatement => "expressionStatement"
  | varStatement => "varStatement"
  | ifStatement => "ifStatement"
  | whileStatement => "whileStatement"
  | doWhileStatement => "doWhileStatement"
  | forStatement => "forStatement"
  | forInStatement => "forInStatement"
  | switchStatement => "switchStatement"
  | caseClause => "caseClause"
  | defaultClause => "defaultClause"
  | breakStatement => "breakStatement"
  | continueStatement => "continueStatement"
  | returnStatement => "returnStatement"
  | tryStatement => "tryStatement"
  | catchClause => "catchClause"
  | finallyClause => "finallyClause"
  | throwStatement => "throwStatement"
  | functionDeclaration => "functionDeclaration"
  | returnType => "returnType"
  | parameterList => "parameterList"
  | parameter => "parameter"
  | .attribute => "attribute"
  | componentDeclaration => "componentDeclaration"
  | interfaceDeclaration => "interfaceDeclaration"
  | propertyFull => "propertyFull"
  | propertyShorthand => "propertyShorthand"
  | tagStatement => "tagStatement"
  | importStatement => "importStatement"
  | includeStatement => "includeStatement"
  | abortStatement => "abortStatement"
  | typeName => "typeName"
  | assignmentExpression => "assignmentExpression"
  | ternaryExpression => "ternaryExpression"
  | elvisExpression => "elvisExpression"
  | binaryExpression => "binaryExpression"
  | unaryExpression => "unaryExpression"
  | postfixExpression => "postfixExpression"
  | parenExpression => "parenExpression"
  | callExpression => "callExpression"
  | argumentList => "argumentList"
  | argument => "argument"
  | memberExpression => "memberExpression"
  | indexExpression => "indexExpression"
  | arrayLiteral => "arrayLiteral"
  | structLiteral => "structLiteral"
  | structEntry => "structEntry"
  | newExpression => "newExpression"
  | functionExpression => "functionExpression"
  | arrowFunction => "arrowFunction"

/-- The rule with a given name. -/
def ofName? (name : String) : Option Rule := all.find? (·.name == name)

theorem mem_all (r : Rule) : r ∈ all := by
  cases r <;> decide

end Rule

end CfScript
