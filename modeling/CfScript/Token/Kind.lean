import CfScript.Text.Fold

/-!
# Kinds of tokens

A token is a keyword, a symbol, a literal, an identifier, a comment, the end of the input, or a piece
of input that no rule accepts. Keywords and symbols have one spelling each; keywords match in any
letter case. A *word* is an identifier or a keyword: every word may name a member, an attribute or a
key.

## Main results

* `Keyword.ofWord?_spelling`: each keyword is found by its spelling;
* `Keyword.ofWord?_eq_of_fold`: looking up a keyword ignores letter case;
* `Symbol.longest?_prefix`: the symbol that is found begins the text;
* `Symbol.all_sorted`: the table of symbols puts longer spellings first.
-/

namespace CfScript

/-- Words with a meaning of their own, word operators included. -/
inductive Keyword where
  | function
  | var
  | if_
  | else_
  | for_
  | in_
  | while_
  | do_
  | switch
  | case
  | default
  | break_
  | continue_
  | return_
  | try_
  | catch_
  | finally_
  | throw_
  | new
  | import_
  | component
  | interface
  | property
  | true_
  | false_
  | null
  | eq
  | neq
  | is
  | gt
  | gte
  | ge
  | lt
  | lte
  | le
  | contains
  | does
  | contain
  | mod
  | and
  | or
  | not
  | xor
  | eqv
  | imp
deriving DecidableEq, Inhabited

namespace Keyword

/-- All keywords. -/
def all : List Keyword :=
  [function, var, if_, else_, for_, in_, while_, do_, switch, case, default, break_, continue_,
    return_, try_, catch_, finally_, throw_, new, import_, component, interface, property, true_,
    false_, null, eq, neq, is, gt, gte, ge, lt, lte, le, contains, does, contain, mod, and, or, not,
    xor, eqv, imp]

/-- The keyword in small letters. -/
def spelling : Keyword → String
  | function => "function"
  | var => "var"
  | if_ => "if"
  | else_ => "else"
  | for_ => "for"
  | in_ => "in"
  | while_ => "while"
  | do_ => "do"
  | switch => "switch"
  | case => "case"
  | default => "default"
  | break_ => "break"
  | continue_ => "continue"
  | return_ => "return"
  | try_ => "try"
  | catch_ => "catch"
  | finally_ => "finally"
  | throw_ => "throw"
  | new => "new"
  | import_ => "import"
  | component => "component"
  | interface => "interface"
  | property => "property"
  | true_ => "true"
  | false_ => "false"
  | null => "null"
  | eq => "eq"
  | neq => "neq"
  | is => "is"
  | gt => "gt"
  | gte => "gte"
  | ge => "ge"
  | lt => "lt"
  | lte => "lte"
  | le => "le"
  | contains => "contains"
  | does => "does"
  | contain => "contain"
  | mod => "mod"
  | and => "and"
  | or => "or"
  | not => "not"
  | xor => "xor"
  | eqv => "eqv"
  | imp => "imp"

/-- The keyword that a word spells, in any letter case. -/
def ofWord? (word : String) : Option Keyword :=
  let folded := Text.fold word
  all.find? (·.spelling == folded)

/-- The keyword in capital letters, as listings of tokens name it. -/
def name (k : Keyword) : String := k.spelling.toUpper

theorem mem_all (k : Keyword) : k ∈ all := by
  cases k <;> decide

theorem ofWord?_spelling (k : Keyword) : ofWord? k.spelling = some k := by
  cases k <;> rfl

theorem ofWord?_eq_of_fold {a b : String} (h : Text.fold a = Text.fold b) :
    ofWord? a = ofWord? b := by
  simp [ofWord?, h]

end Keyword

/-- Tokens of one to three characters that are neither letters nor digits. -/
inductive Symbol where
  | eqEqEq
  | bangEqEq
  | elvis
  | safeDot
  | arrow
  | eqEq
  | bangEq
  | ltGt
  | ltEq
  | gtEq
  | plusPlus
  | minusMinus
  | plusEq
  | minusEq
  | starEq
  | slashEq
  | percentEq
  | ampEq
  | andAnd
  | orOr
  | lParen
  | rParen
  | lBrace
  | rBrace
  | lBracket
  | rBracket
  | comma
  | semicolon
  | colon
  | dot
  | question
  | assign
  | lt
  | gt
  | plus
  | minus
  | star
  | slash
  | backslash
  | percent
  | caret
  | amp
  | bang
deriving DecidableEq, Inhabited

namespace Symbol

/-- All symbols, those with longer spellings first. -/
def all : List Symbol :=
  [eqEqEq, bangEqEq, elvis, safeDot, arrow, eqEq, bangEq, ltGt, ltEq, gtEq, plusPlus, minusMinus,
    plusEq, minusEq, starEq, slashEq, percentEq, ampEq, andAnd, orOr, lParen, rParen, lBrace, rBrace,
    lBracket, rBracket, comma, semicolon, colon, dot, question, assign, lt, gt, plus, minus, star,
    slash, backslash, percent, caret, amp, bang]

/-- The characters of the symbol. -/
def spelling : Symbol → List Char
  | eqEqEq => ['=', '=', '=']
  | bangEqEq => ['!', '=', '=']
  | elvis => ['?', ':']
  | safeDot => ['?', '.']
  | arrow => ['=', '>']
  | eqEq => ['=', '=']
  | bangEq => ['!', '=']
  | ltGt => ['<', '>']
  | ltEq => ['<', '=']
  | gtEq => ['>', '=']
  | plusPlus => ['+', '+']
  | minusMinus => ['-', '-']
  | plusEq => ['+', '=']
  | minusEq => ['-', '=']
  | starEq => ['*', '=']
  | slashEq => ['/', '=']
  | percentEq => ['%', '=']
  | ampEq => ['&', '=']
  | andAnd => ['&', '&']
  | orOr => ['|', '|']
  | lParen => ['(']
  | rParen => [')']
  | lBrace => ['{']
  | rBrace => ['}']
  | lBracket => ['[']
  | rBracket => [']']
  | comma => [',']
  | semicolon => [';']
  | colon => [':']
  | dot => ['.']
  | question => ['?']
  | assign => ['=']
  | lt => ['<']
  | gt => ['>']
  | plus => ['+']
  | minus => ['-']
  | star => ['*']
  | slash => ['/']
  | backslash => ['\\']
  | percent => ['%']
  | caret => ['^']
  | amp => ['&']
  | bang => ['!']

/-- The symbol as a listing of tokens names it. -/
def name : Symbol → String
  | eqEqEq => "EQUALS_STRICT"
  | bangEqEq => "NOT_EQUALS_STRICT"
  | elvis => "ELVIS"
  | safeDot => "SAFE_NAVIGATION"
  | arrow => "ARROW"
  | eqEq => "EQUALS"
  | bangEq => "NOT_EQUALS"
  | ltGt => "LESS_GREATER"
  | ltEq => "LESSTHANEQUALS"
  | gtEq => "GREATERTHANEQUALS"
  | plusPlus => "PLUSPLUS"
  | minusMinus => "MINUSMINUS"
  | plusEq => "PLUSEQUALS"
  | minusEq => "MINUSEQUALS"
  | starEq => "STAREQUALS"
  | slashEq => "SLASHEQUALS"
  | percentEq => "MODEQUALS"
  | ampEq => "CONCATEQUALS"
  | andAnd => "ANDOPERATOR"
  | orOr => "OROPERATOR"
  | lParen => "LEFTPAREN"
  | rParen => "RIGHTPAREN"
  | lBrace => "LEFTCURLYBRACKET"
  | rBrace => "RIGHTCURLYBRACKET"
  | lBracket => "LEFTBRACKET"
  | rBracket => "RIGHTBRACKET"
  | comma => "COMMA"
  | semicolon => "SEMICOLON"
  | colon => "COLON"
  | dot => "DOT"
  | question => "QUESTIONMARK"
  | assign => "EQUALSOP"
  | lt => "LESSTHAN"
  | gt => "GREATERTHAN"
  | plus => "PLUS"
  | minus => "MINUS"
  | star => "STAR"
  | slash => "SLASH"
  | backslash => "BSLASH"
  | percent => "PERCENT"
  | caret => "POWER"
  | amp => "CONCAT"
  | bang => "NOTOP"

/-- The longest symbol that begins the characters. -/
def longest? (chars : List Char) : Option Symbol := all.find? (·.spelling.isPrefixOf chars)

theorem mem_all (s : Symbol) : s ∈ all := by
  cases s <;> decide

theorem all_sorted : all.Pairwise fun a b => b.spelling.length ≤ a.spelling.length := by
  decide

theorem longest?_prefix {chars : List Char} {s : Symbol} (h : longest? chars = some s) :
    s.spelling <+: chars := by
  rw [longest?, List.find?_eq_some_iff_append] at h
  exact List.isPrefixOf_iff_prefix.1 h.1

theorem spelling_ne_nil (s : Symbol) : s.spelling ≠ [] := by
  cases s <;> decide

end Symbol

/-- What a token is. -/
inductive TokenKind where
  | keyword (k : Keyword)
  | symbol (s : Symbol)
  | string
  | integer
  | float
  | identifier
  | lineComment
  | blockComment
  | endOfInput
  /-- Input that no rule accepts. -/
  | invalid
deriving DecidableEq, Inhabited

namespace TokenKind

/-- All kinds of tokens. -/
def all : List TokenKind :=
  Keyword.all.map keyword ++ Symbol.all.map symbol ++
    [string, integer, float, identifier, lineComment, blockComment, endOfInput, invalid]

/-- The stable name of the kind in capital letters. -/
def name : TokenKind → String
  | keyword k => k.name
  | symbol s => s.name
  | string => "STRING_LITERAL"
  | integer => "INTEGER_LITERAL"
  | float => "FLOATING_POINT_LITERAL"
  | identifier => "IDENTIFIER"
  | lineComment => "LINE_COMMENT"
  | blockComment => "ML_COMMENT"
  | endOfInput => "EOF"
  | invalid => "ERROR"

/-- The kind with a given name. -/
def ofName? (name : String) : Option TokenKind := all.find? (·.name == name)

/-- The symbols that messages show as they are written. -/
def shownSymbols : List Symbol :=
  [.lParen, .rParen, .lBrace, .rBrace, .lBracket, .rBracket, .comma, .semicolon, .colon, .assign,
    .arrow]

/-- The keywords that messages show as they are written. -/
def shownKeywords : List Keyword := [.in_, .while_, .function, .not, .contain]

/-- The kind as a message to a reader names it. -/
def describe : TokenKind → String
  | keyword k => if shownKeywords.contains k then "'" ++ k.spelling ++ "'" else k.name
  | symbol s => if shownSymbols.contains s then "'" ++ String.ofList s.spelling ++ "'" else s.name
  | identifier => "identifier"
  | string => "string"
  | endOfInput => "end of input"
  | kind => kind.name

/-- Whether the kind is a keyword. -/
def isKeyword : TokenKind → Bool
  | keyword _ => true
  | _ => false

/-- Whether a token of the kind may name something: identifiers and keywords. -/
def isWord : TokenKind → Bool
  | keyword _ => true
  | identifier => true
  | _ => false

/-- Whether the kind is a comment, which the parser does not see. -/
def isTrivia : TokenKind → Bool
  | lineComment => true
  | blockComment => true
  | _ => false

/-- The symbols that assign. -/
def assignments : List Symbol := [.assign, .plusEq, .minusEq, .starEq, .slashEq, .percentEq, .ampEq]

/-- Whether the kind is an assignment operator. -/
def isAssignment : TokenKind → Bool
  | symbol s => assignments.contains s
  | _ => false

theorem mem_all (kind : TokenKind) : kind ∈ all := by
  cases kind with
  | keyword k => simp [all, k.mem_all]
  | symbol s => simp [all, s.mem_all]
  | _ => simp [all]

end TokenKind

end CfScript
