/-!
# Error codes

Every kind of error has a stable code, a one-line description and, where the repair is always the
same, a suggestion. The first digit of a code tells the phase that finds the error: 0 for scanning, 1
for parsing, 2 for attribute names and 3 for building the program tree.
-/

namespace CfScript

/-- A kind of error. -/
inductive ErrorCode where
  | unexpectedCharacter
  | unterminatedString
  | unterminatedComment
  | unexpectedToken
  | expectedExpression
  | expectedIdentifier
  | expectedStatement
  | unclosedDelimiter
  | missingSemicolon
  | trailingInput
  | unknownAttribute
  | duplicateAttribute
  | malformedNode
  | missingPropertyName
deriving DecidableEq, Inhabited

namespace ErrorCode

/-- All codes, in the order of their numbers. -/
def all : List ErrorCode :=
  [unexpectedCharacter, unterminatedString, unterminatedComment, unexpectedToken,
    expectedExpression, expectedIdentifier, expectedStatement, unclosedDelimiter, missingSemicolon,
    trailingInput, unknownAttribute, duplicateAttribute, malformedNode, missingPropertyName]

/-- The stable number of the code. -/
def number : ErrorCode → String
  | unexpectedCharacter => "E0001"
  | unterminatedString => "E0002"
  | unterminatedComment => "E0003"
  | unexpectedToken => "E0100"
  | expectedExpression => "E0101"
  | expectedIdentifier => "E0102"
  | expectedStatement => "E0103"
  | unclosedDelimiter => "E0104"
  | missingSemicolon => "E0105"
  | trailingInput => "E0106"
  | unknownAttribute => "E0200"
  | duplicateAttribute => "E0201"
  | malformedNode => "E0300"
  | missingPropertyName => "E0301"

/-- The code with a given number. -/
def ofNumber? (number : String) : Option ErrorCode := all.find? (·.number == number)

/-- What the code stands for. -/
def description : ErrorCode → String
  | unexpectedCharacter => "unexpected character in input"
  | unterminatedString => "string literal is not terminated"
  | unterminatedComment => "comment is not terminated"
  | unexpectedToken => "unexpected token"
  | expectedExpression => "expected an expression"
  | expectedIdentifier => "expected an identifier"
  | expectedStatement => "expected a statement"
  | unclosedDelimiter => "unclosed delimiter"
  | missingSemicolon => "missing semicolon"
  | trailingInput => "unexpected input after the end of the entry rule"
  | unknownAttribute => "attribute is not recognized for this statement"
  | duplicateAttribute => "attribute is specified more than once"
  | malformedNode => "syntax tree node is missing a required part"
  | missingPropertyName => "property declaration has no name"

/-- How to repair the error, where the repair is always the same. -/
def suggestion : ErrorCode → Option String
  | unterminatedString => some "add the closing quote to terminate the string"
  | unterminatedComment => some "add `*/` to close the comment"
  | missingSemicolon => some "add `;` at the end of the statement"
  | unclosedDelimiter => some "add the matching closing delimiter"
  | duplicateAttribute => some "remove one of the duplicated attributes"
  | missingPropertyName => some "add a `name` attribute or use `property type name`"
  | _ => none

theorem mem_all (code : ErrorCode) : code ∈ all := by
  cases code <;> decide

theorem ofNumber?_number (code : ErrorCode) : ofNumber? code.number = some code := by
  cases code <;> rfl

end ErrorCode

end CfScript
