import CfScript.Token.Basic

/-!
# What the parser finds wrong

A *fault* is a place where the grammar asks for something that is not there. Its text names the token
that stands there instead. A parse that cannot go on *bails*: it reports the token it stopped at and
the reason, which is a fault, a decision that needs more lookahead than the parse may use, or a token
that the scanner has already refused.
-/

namespace CfScript

/-- A requirement of the grammar that the input does not meet. -/
inductive Fault where
  /-- A token of one kind is required. -/
  | expectedToken (kind : TokenKind)
  | expectedIdentifier
  | expectedExpression
  | expectedStatement
  /-- A plain name is required where a dotted one stands. -/
  | expectedName
  | expectedStructKey
  /-- A `case` or `default` clause is required. -/
  | expectedClause
  /-- A closing brace stands outside every block. -/
  | strayBrace
  /-- Input is left over after the expression. -/
  | trailingInput
deriving DecidableEq, Inhabited

namespace Fault

/-- The code of a fault. -/
def code : Fault → ErrorCode
  | expectedToken (.symbol .semicolon) => .missingSemicolon
  | expectedToken (.symbol .rParen) => .unclosedDelimiter
  | expectedToken (.symbol .rBracket) => .unclosedDelimiter
  | expectedToken (.symbol .rBrace) => .unclosedDelimiter
  | expectedToken _ => .unexpectedToken
  | expectedIdentifier => .expectedIdentifier
  | expectedExpression => .expectedExpression
  | expectedStatement => .expectedStatement
  | expectedName => .expectedIdentifier
  | expectedStructKey => .expectedIdentifier
  | expectedClause => .unexpectedToken
  | strayBrace => .unexpectedToken
  | trailingInput => .trailingInput

/-- The fault in words, where the token `t` stands instead. -/
def text (fault : Fault) (t : Token) : String :=
  match fault with
  | expectedToken kind => "expected " ++ kind.describe ++ ", found " ++ t.found
  | expectedIdentifier => "expected identifier, found " ++ t.found
  | expectedExpression => "expected expression, found " ++ t.found
  | expectedStatement => "expected a statement, found " ++ t.found
  | expectedName => "expected a name, found " ++ t.found
  | expectedStructKey => "expected a struct key, found " ++ t.found
  | expectedClause => "expected 'case' or 'default', found " ++ t.found
  | strayBrace => "unexpected '\x7d'"
  | trailingInput => "unexpected " ++ t.found ++ " after expression"

/-- What a parse that goes on assumes to be there. -/
def assumption : Fault → String
  | expectedToken kind => kind.describe
  | expectedIdentifier => "identifier"
  | expectedName => "identifier"
  | expectedStructKey => "identifier"
  | expectedStatement => "statement"
  | expectedClause => "clause"
  | expectedExpression => "expression"
  | strayBrace => "statement"
  | trailingInput => "end of input"

/-- The finding about a fault at the token `t`. -/
def diagnostic (fault : Fault) (t : Token) : Diagnostic :=
  { severity := .error, phase := .parser, code := some fault.code, message := fault.text t,
    span := t.span, line := t.line, context := t.lexeme, labels := [⟨t.span, "here"⟩],
    help := fault.code.suggestion }

end Fault

/-- The decisions that may need more lookahead than three tokens. -/
inductive Ambiguity where
  | declarationHead
  | loopTarget
  | arrowParameters
deriving DecidableEq, Inhabited

/-- The decision in words. -/
def Ambiguity.text : Ambiguity → String
  | declarationHead => "modifiers or return type before 'function'"
  | loopTarget => "for-in with a complex left side"
  | arrowParameters => "parenthesized arrow function parameters"

/-- Why a parse stopped. -/
inductive BailReason where
  | fault (fault : Fault)
  | ambiguous (decision : Ambiguity)
  /-- The scanner has already refused the token. -/
  | invalidToken
  /-- The steps allowed for the parse are used up. -/
  | outOfSteps
deriving DecidableEq, Inhabited

/-- A parse that stopped: at which token, and why. -/
structure Bail where
  token : Token
  reason : BailReason
deriving DecidableEq, Inhabited

namespace Bail

/-- The reason in words. -/
def text (bail : Bail) : String :=
  match bail.reason with
  | .fault fault => fault.text bail.token
  | .ambiguous decision => "ambiguous " ++ decision.text
  | .invalidToken => "invalid token"
  | .outOfSteps => "out of steps"

/-- The reason in words, after the line of the token. -/
def message (bail : Bail) : String := "line " ++ toString bail.token.line ++ ": " ++ bail.text

/-- The finding about a parse that stopped and has no more to say. -/
def diagnostic (bail : Bail) : Diagnostic :=
  { severity := .error, phase := .parser, code := some .unexpectedToken, message := bail.text,
    span := bail.token.span, line := bail.token.line,
    labels := [⟨bail.token.span, "parse abandoned here"⟩] }

end Bail

end CfScript
