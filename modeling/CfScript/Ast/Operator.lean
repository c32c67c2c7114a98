import CfScript.Token.Kind

/-!
# Operators

Operators are kept as written: the symbol `==` and the word `EQ` are two operators. A word is written
in capitals.
-/

namespace CfScript

/-- The operators between two operands. -/
inductive BinaryOp where
  | add | sub | mul | div | intDiv | mod | modWord | pow | concat
  | eq | strictEq | ne | strictNe | ltGt | lt | le | gt | ge
  | eqWord | neqWord | is | isNot | gtWord | gteWord | geWord | ltWord | lteWord | leWord
  | contains | doesNotContain
  | and | andWord | or | orWord | xor | eqv | imp
deriving DecidableEq, Inhabited

namespace BinaryOp

/-- The operator as it is written. -/
def text : BinaryOp → String
  | add => "+"
  | sub => "-"
  | mul => "*"
  | div => "/"
  | intDiv => "\\"
  | mod => "%"
  | modWord => "MOD"
  | pow => "^"
  | concat => "&"
  | eq => "=="
  | strictEq => "==="
  | ne => "!="
  | strictNe => "!=="
  | ltGt => "<>"
  | lt => "<"
  | le => "<="
  | gt => ">"
  | ge => ">="
  | eqWord => "EQ"
  | neqWord => "NEQ"
  | is => "IS"
  | isNot => "IS NOT"
  | gtWord => "GT"
  | gteWord => "GTE"
  | geWord => "GE"
  | ltWord => "LT"
  | lteWord => "LTE"
  | leWord => "LE"
  | contains => "CONTAINS"
  | doesNotContain => "DOES NOT CONTAIN"
  | and => "&&"
  | andWord => "AND"
  | or => "||"
  | orWord => "OR"
  | xor => "XOR"
  | eqv => "EQV"
  | imp => "IMP"

/-- All operators. -/
def all : List BinaryOp :=
  [add, sub, mul, div, intDiv, mod, modWord, pow, concat, eq, strictEq, ne, strictNe, ltGt, lt, le,
    gt, ge, eqWord, neqWord, is, isNot, gtWord, gteWord, geWord, ltWord, lteWord, leWord, contains,
    doesNotContain, and, andWord, or, orWord, xor, eqv, imp]

/-- The operator of the tokens between two operands: one token, or the words `IS NOT`, or words that
start with `DOES`. -/
def ofKinds? : List TokenKind → Option BinaryOp
  | .keyword .does :: _ => some doesNotContain
  | [.keyword .is, .keyword .not] => some isNot
  | [.symbol s] =>
    match s with
    | .plus => some add
    | .minus => some sub
    | .star => some mul
    | .slash => some div
    | .backslash => some intDiv
    | .percent => some mod
    | .caret => some pow
    | .amp => some concat
    | .eqEq => some eq
    | .eqEqEq => some strictEq
    | .bangEq => some ne
    | .bangEqEq => some strictNe
    | .ltGt => some ltGt
    | .lt => some lt
    | .ltEq => some le
    | .gt => some gt
    | .gtEq => some ge
    | .andAnd => some and
    | .orOr => some or
    | _ => none
  | [.keyword k] =>
    match k with
    | .mod => some modWord
    | .eq => some eqWord
    | .neq => some neqWord
    | .is => some is
    | .gt => some gtWord
    | .gte => some gteWord
    | .ge => some geWord
    | .lt => some ltWord
    | .lte => some lteWord
    | .le => some leWord
    | .contains => some contains
    | .and => some andWord
    | .or => some orWord
    | .xor => some xor
    | .eqv => some eqv
    | .imp => some imp
    | _ => none
  | _ => none

theorem mem_all (op : BinaryOp) : op ∈ all := by
  cases op <;> decide

end BinaryOp

/-- The operators before an operand. -/
inductive UnaryOp where
  | neg
  | plus
  | not
  | notWord
  | increment
  | decrement
deriving DecidableEq, Inhabited

namespace UnaryOp

/-- The operator as it is written before its operand; the word is followed by a space. -/
def text : UnaryOp → String
  | neg => "-"
  | plus => "+"
  | not => "!"
  | notWord => "NOT "
  | increment => "++"
  | decrement => "--"

/-- All operators. -/
def all : List UnaryOp := [neg, plus, not, notWord, increment, decrement]

/-- The operator of a token. -/
def ofKind? : TokenKind → Option UnaryOp
  | .symbol .minus => some neg
  | .symbol .plus => some plus
  | .symbol .bang => some not
  | .keyword .not => some notWord
  | .symbol .plusPlus => some increment
  | .symbol .minusMinus => some decrement
  | _ => none

theorem mem_all (op : UnaryOp) : op ∈ all := by
  cases op <;> decide

end UnaryOp

/-- The operators after an operand. -/
inductive PostfixOp where
  | increment
  | decrement
deriving DecidableEq, Inhabited

namespace PostfixOp

/-- The operator as it is written. -/
def text : PostfixOp → String
  | increment => "++"
  | decrement => "--"

/-- All operators. -/
def all : List PostfixOp := [increment, decrement]

/-- The operator of a token. -/
def ofKind? : TokenKind → Option PostfixOp
  | .symbol .plusPlus => some increment
  | .symbol .minusMinus => some decrement
  | _ => none

theorem mem_all (op : PostfixOp) : op ∈ all := by
  cases op <;> decide

end PostfixOp

/-- The operators of assignments. -/
inductive AssignOp where
  | assign
  | addAssign
  | subAssign
  | mulAssign
  | divAssign
  | modAssign
  | concatAssign
deriving DecidableEq, Inhabited

namespace AssignOp

/-- The operator as it is written. -/
def text : AssignOp → String
  | assign => "="
  | addAssign => "+="
  | subAssign => "-="
  | mulAssign => "*="
  | divAssign => "/="
  | modAssign => "%="
  | concatAssign => "&="

/-- All operators. -/
def all : List AssignOp :=
  [assign, addAssign, subAssign, mulAssign, divAssign, modAssign, concatAssign]

/-- The operator of a token. -/
def ofKind? : TokenKind → Option AssignOp
  | .symbol .assign => some assign
  | .symbol .plusEq => some addAssign
  | .symbol .minusEq => some subAssign
  | .symbol .starEq => some mulAssign
  | .symbol .slashEq => some divAssign
  | .symbol .percentEq => some modAssign
  | .symbol .ampEq => some concatAssign
  | _ => none

theorem mem_all (op : AssignOp) : op ∈ all := by
  cases op <;> decide

end AssignOp

end CfScript
