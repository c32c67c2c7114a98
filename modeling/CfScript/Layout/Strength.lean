import CfScript.Ast.Basic

/-!
# How strongly expressions hold together

An expression needs parentheses where it holds together less strongly than its place asks for. The
binary operators have ten levels, the loosest first, all of which group to the left: so a right operand
has to be one step stronger than a left one.

The word `NOT` has two strengths. At the head of an expression it applies to a whole comparison; in a
tight place, to the right of a comparison or of a stronger operator, it applies to one operand.

## Main results

* `strength_binary_lt_prefixed`: every binary operator is looser than an operator before its operand.
-/

namespace CfScript

namespace BinaryOp

/-- The level of an operator, the loosest first. -/
def level : BinaryOp → Nat
  | imp => 0
  | eqv => 1
  | xor => 2
  | or | orWord => 3
  | and | andWord => 4
  | eq | strictEq | ne | strictNe | ltGt | lt | le | gt | ge | eqWord | neqWord | is | isNot
  | gtWord | gteWord | geWord | ltWord | lteWord | leWord | contains | doesNotContain => 5
  | concat => 6
  | add | sub => 7
  | mul | div | mod | modWord | intDiv => 8
  | pow => 9

/-- The level of comparisons. -/
def comparisonLevel : Nat := 5

/-- Whether the operand to the right of the operator is a tight place. -/
def tightens (op : BinaryOp) : Bool := comparisonLevel ≤ op.level

end BinaryOp

namespace Strength

/-- The strength of an assignment. -/
def assignment : Nat := 0

/-- The strength of conditional expressions and of functions with an arrow. -/
def conditional : Nat := 1

/-- The strength of the loosest binary operator. -/
def loosestBinary : Nat := 10

/-- The strength of a binary operator. -/
def binary (op : BinaryOp) : Nat := loosestBinary + 2 * op.level

/-- The strength of the word `NOT` at the head of an expression: just looser than a comparison. -/
def leadingNot : Nat := loosestBinary + 2 * BinaryOp.comparisonLevel - 1

/-- The strength of an operator before its operand. -/
def prefixed : Nat := 40

/-- The strength of an operator, an access or a call after its operand. -/
def suffixed : Nat := 42

/-- The strength of what needs no operand. -/
def primary : Nat := 44

/-- The strength of an expression, in a tight place or not. -/
def ofExpression (tight : Bool) : Expression → Nat
  | .assignment .. => assignment
  | .ternary .. | .elvis .. => conditional
  | .binary op .. => binary op
  | .unary .notWord .. => if tight then prefixed else leadingNot
  | .unary .. => prefixed
  | .postfixOp .. | .call .. | .member .. | .index .. => suffixed
  | .function arrow .. | .lambda arrow .. => if arrow then conditional else primary
  | _ => primary

theorem strength_binary_lt_prefixed (op : BinaryOp) : binary op < prefixed := by
  cases op <;> decide

end Strength

end CfScript
