import CfScript.Token.Basic

/-!
# Skipping a broken statement

While the parser skips the rest of a broken statement it keeps track of the delimiters that it passes,
so that it never stops inside a group that it entered, and never passes the brace that closes the
block around the statement.

## Main results

* `inside_update`: a token that opens a group puts the stack inside that group;
* `skipped_le`: no more tokens are skipped than are there.
-/

namespace CfScript

/-- The pairs of delimiters. -/
inductive Delimiter where
  | paren
  | bracket
  | brace
deriving DecidableEq, Inhabited

namespace Delimiter

/-- The delimiter that a token opens. -/
def opened? : TokenKind → Option Delimiter
  | .symbol .lParen => some paren
  | .symbol .lBracket => some bracket
  | .symbol .lBrace => some brace
  | _ => none

/-- The delimiter that a token closes. -/
def closed? : TokenKind → Option Delimiter
  | .symbol .rParen => some paren
  | .symbol .rBracket => some bracket
  | .symbol .rBrace => some brace
  | _ => none

end Delimiter

/-- The delimiters that are open, the innermost first. -/
structure DelimiterStack where
  open_ : List Delimiter := []
deriving DecidableEq, Inhabited

namespace DelimiterStack

/-- The stack with nothing open. -/
def empty : DelimiterStack := {}

/-- The number of open delimiters. -/
def depth (stack : DelimiterStack) : Nat := stack.open_.length

/-- Whether nothing is open. -/
def isEmpty (stack : DelimiterStack) : Bool := stack.open_.isEmpty

/-- Whether a delimiter of the pair is open. -/
def inside (stack : DelimiterStack) (d : Delimiter) : Bool := stack.open_.contains d

/-- What is open after the innermost `d` is closed: all that was open before it. -/
def closing (d : Delimiter) : List Delimiter → Option (List Delimiter)
  | [] => none
  | e :: es => if e = d then some es else closing d es

/-- The stack after a token, and whether the token closes nothing that was never opened. -/
def update (stack : DelimiterStack) (kind : TokenKind) : DelimiterStack × Bool :=
  match Delimiter.opened? kind with
  | some d => (⟨d :: stack.open_⟩, true)
  | none =>
    match Delimiter.closed? kind with
    | none => (stack, true)
    | some d =>
      match closing d stack.open_ with
      | some rest => (⟨rest⟩, true)
      | none => (stack, false)

theorem inside_update {stack : DelimiterStack} {kind : TokenKind} {d : Delimiter}
    (h : Delimiter.opened? kind = some d) : (stack.update kind).1.inside d = true := by
  simp [update, h, inside]

theorem closing_eq_none_iff {d : Delimiter} {ds : List Delimiter} :
    closing d ds = none ↔ d ∉ ds := by
  induction ds with
  | nil => simp [closing]
  | cons e es ih =>
    by_cases h : e = d
    · simp [closing, h]
    · simp [closing, h, ih, Ne.symm h]

end DelimiterStack

namespace Token

/-- The keywords that start a statement and never go on with an expression. -/
def statementStarts : List Keyword :=
  [.var, .if_, .for_, .while_, .do_, .switch, .try_, .return_, .break_, .continue_, .throw_,
    .import_, .component, .interface, .property]

/-- Whether a token of the kind starts a statement and never goes on with an expression. -/
def startsStatement : TokenKind → Bool
  | .keyword k => statementStarts.contains k
  | _ => false

/-- The tokens that are skipped from a broken statement on, and the semicolon that ends it, if there
is one. The skipping ends before a brace that closes an enclosing block and, outside all groups that
it entered, before a statement. -/
def skipStatement (stack : DelimiterStack) : List Token → List Token × Option Token
  | [] => ([], none)
  | t :: ts =>
    if t.isEnd then ([], none)
    else if t.kind = .symbol .rBrace ∧ stack.inside .brace = false then ([], none)
    else if stack.isEmpty ∧ t.kind = .symbol .semicolon then ([], some t)
    else if stack.isEmpty ∧ startsStatement t.kind then ([], none)
    else
      let (skipped, semicolon) := skipStatement (stack.update t.kind).1 ts
      (t :: skipped, semicolon)

theorem skipped_le (stack : DelimiterStack) (ts : List Token) :
    (skipStatement stack ts).1.length + (skipStatement stack ts).2.toList.length ≤ ts.length := by
  induction ts generalizing stack with
  | nil => simp [skipStatement]
  | cons t ts ih =>
    unfold skipStatement
    split
    · simp
    split
    · simp
    split
    · simp
    split
    · simp
    · have := ih (stack.update t.kind).1
      simp only [List.length_cons]
      omega

end Token

end CfScript
