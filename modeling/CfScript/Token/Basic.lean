import CfScript.Diagnostic.Basic
import CfScript.Token.Kind

/-!
# Tokens

A token is a piece of a source with its kind, its text, its span and the line it starts on. The last
token of a source is the empty token at its end. A token of kind `invalid` carries the finding that
the scanner makes about it: `Token.complaint?` says which.

## Main results

* `complaint?_isSome_iff`: exactly the invalid tokens come with a finding;
* `isWordNamed_of_fold`: comparing a word with a name ignores letter case.
-/

namespace CfScript

/-- A piece of a source. -/
structure Token where
  kind : TokenKind
  /-- The text of the token as written; empty at the end of the input. -/
  lexeme : String
  span : Span
  /-- The line of the first character, counted from 1. -/
  line : LineNumber
deriving DecidableEq, Inhabited

namespace Token

/-- The token at the end of a source of `size` bytes. -/
def endAt (size : Nat) (line : LineNumber) : Token := ⟨.endOfInput, "", .point (.ofNat size), line⟩

/-- Whether the token is the end of the input. -/
def isEnd (t : Token) : Bool := t.kind == .endOfInput

/-- Whether the token is a word that spells `name` in any letter case. -/
def isWordNamed (t : Token) (name : String) : Bool := t.kind.isWord && Text.sameName t.lexeme name

/-- The token as a message to a reader shows it. -/
def found (t : Token) : String :=
  if t.isEnd then "end of input" else "'" ++ t.lexeme ++ "'"

/-- What is wrong with a text that no rule accepts: an open string, an open comment, or else a
character that cannot stand where it does. -/
def invalidCode (lexeme : String) : ErrorCode :=
  match lexeme.toList with
  | '"' :: _ => .unterminatedString
  | '\'' :: _ => .unterminatedString
  | '/' :: '*' :: _ => .unterminatedComment
  | _ => .unexpectedCharacter

/-- The finding about a text that no rule accepts. -/
def invalidText (lexeme : String) (span : Span) (line : LineNumber) : Diagnostic :=
  let code := invalidCode lexeme
  let opening := Span.ofLength span.start.toNat 1
  let (message, label) : String × Label := match code with
    | .unexpectedCharacter =>
      ("unexpected character '" ++ lexeme ++ "'", ⟨span, "not valid here"⟩)
    | .unterminatedComment => (code.description, ⟨opening, "comment starts here"⟩)
    | _ => (code.description, ⟨opening, "string starts here"⟩)
  { severity := .error, phase := .lexer, code := some code, message, span, line,
    context := String.ofList (Text.firstLine lexeme.toList), labels := [label] }

/-- The finding that comes with the token, if it is invalid. -/
def complaint? (t : Token) : Option Diagnostic :=
  if t.kind = .invalid then some (invalidText t.lexeme t.span t.line) else none

/-- The tokens one per line as `NAME:lexeme`, without the end of the input. -/
def listing (tokens : List Token) : String :=
  String.intercalate "\n"
    ((tokens.filter (!·.isEnd)).map fun t => t.kind.name ++ ":" ++ t.lexeme)

theorem complaint?_isSome_iff (t : Token) : t.complaint?.isSome = true ↔ t.kind = .invalid := by
  by_cases h : t.kind = .invalid <;> simp [complaint?, h]

theorem isWordNamed_of_fold {t : Token} {a b : String} (h : Text.fold a = Text.fold b) :
    t.isWordNamed a = t.isWordNamed b := by
  simp [isWordNamed, Text.sameName, h]

end Token

end CfScript
