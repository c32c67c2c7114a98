import CfScript.Token.Basic
import CfScript.Tree.Rule

/-!
# Parse trees

A parse tree has rules at its nodes. Its leaves are the tokens that were matched, the tokens that were
skipped while recovering from an error, and the parts that had to be assumed because they were not
there. The leaves of a tree, from left to right, say all about its text.

## Main results

* `hasErrors_eq_leaves`: a tree has errors exactly when one of its leaves stems from an error;
* `leavesAll_append`: the leaves of two lists of trees are those of the first, then those of the second.
-/

namespace CfScript

/-- What a parse tree ends in. -/
inductive Leaf where
  /-- A token that the grammar asked for. -/
  | matched (t : Token)
  /-- A token that was skipped. -/
  | skipped (t : Token)
  /-- A part that was required but absent. -/
  | assumed (what : String)
deriving DecidableEq, Inhabited

namespace Leaf

/-- The token of the leaf, if it has one. -/
def token? : Leaf → Option Token
  | matched t => some t
  | skipped t => some t
  | assumed _ => none

/-- The source text of the leaf. -/
def text (leaf : Leaf) : String := (leaf.token?.map (·.lexeme)).getD ""

/-- Whether the leaf stems from an error. -/
def isError : Leaf → Bool
  | matched _ => false
  | skipped _ => true
  | assumed _ => true

/-- The span of the leaf; the end of the input and an assumed part have none. -/
def span? (leaf : Leaf) : Option Span :=
  leaf.token?.bind fun t => if t.isEnd then none else some t.span

/-- The leaf in the written form of a tree. -/
def written : Leaf → String
  | assumed what => "<missing " ++ what ++ ">"
  | matched t => if t.isEnd then "<EOF>" else t.lexeme
  | skipped t => if t.isEnd then "<EOF>" else t.lexeme

end Leaf

/-- A parse tree. -/
inductive Tree where
  | node (rule : Rule) (children : List Tree)
  | leaf (leaf : Leaf)
deriving Inhabited

namespace Tree

/-- The leaf of a matched token. -/
def token (t : Token) : Tree := leaf (.matched t)

/-- The leaf of a skipped token. -/
def skipped (t : Token) : Tree := leaf (.skipped t)

/-- The leaf of an assumed part. -/
def assumed (what : String) : Tree := leaf (.assumed what)

/-- The rule of a node. -/
def rule? : Tree → Option Rule
  | node r _ => some r
  | leaf _ => none

/-- The children of a node; a leaf has none. -/
def children : Tree → List Tree
  | node _ cs => cs
  | leaf _ => []

/-- The matched token of a leaf. -/
def token? : Tree → Option Token
  | leaf (.matched t) => some t
  | _ => none

/-- Whether the tree itself is a leaf that stems from an error. -/
def isError : Tree → Bool
  | node _ _ => false
  | leaf l => l.isError

mutual

/-- The leaves of the tree, from left to right. -/
def leaves : Tree → List Leaf
  | node _ cs => leavesAll cs
  | leaf l => [l]

/-- The leaves of the trees, from left to right. -/
def leavesAll : List Tree → List Leaf
  | [] => []
  | t :: ts => t.leaves ++ leavesAll ts

end

mutual

/-- Whether some leaf stems from an error. -/
def hasErrors : Tree → Bool
  | node _ cs => hasErrorsAny cs
  | leaf l => l.isError

/-- Whether some leaf of some tree stems from an error. -/
def hasErrorsAny : List Tree → Bool
  | [] => false
  | t :: ts => t.hasErrors || hasErrorsAny ts

end

/-- The first token of the tree, matched or skipped. -/
def firstToken? (t : Tree) : Option Token := t.leaves.findSome? (·.token?)

/-- The text of the tokens of the tree, put together without spaces. -/
def text (t : Tree) : String := String.join (t.leaves.map (·.text))

/-- The smallest span around those that are there, or else the span of nothing. -/
def mergeSpans : List (Option Span) → Span
  | [] => .dummy
  | none :: spans => mergeSpans spans
  | some s :: spans => (spans.filterMap id).foldl Span.merge s

mutual

/-- The span of the tree, if it covers any source. -/
def span? : Tree → Option Span
  | node _ cs =>
    let span := mergeSpans (spans cs)
    if span = .dummy then none else some span
  | leaf l => l.span?

/-- The spans of the trees. -/
def spans : List Tree → List (Option Span)
  | [] => []
  | t :: ts => t.span? :: spans ts

end

/-- The span from the first to the last child that covers any source. -/
def span (t : Tree) : Span := mergeSpans (spans t.children)

mutual

/-- The tree in parentheses: a rule and its children, leaves as their text. -/
def written : Tree → String
  | node r cs => "(" ++ r.name ++ writtenAll cs ++ ")"
  | leaf l => l.written

/-- The trees in parentheses, each after a space. -/
def writtenAll : List Tree → String
  | [] => ""
  | t :: ts => " " ++ t.written ++ writtenAll ts

end

/-- The children that are nodes of a rule. -/
def nodes (t : Tree) (r : Rule) : List Tree := t.children.filter (·.rule? == some r)

/-- The first child that is a node of a rule. -/
def node? (t : Tree) (r : Rule) : Option Tree := t.children.find? (·.rule? == some r)

/-- The matched tokens among the children. -/
def tokens (t : Tree) : List Token := t.children.filterMap (·.token?)

/-- The first matched token of a kind among the children. -/
def tokenOfKind? (t : Tree) (kind : TokenKind) : Option Token := t.tokens.find? (·.kind == kind)

/-- The part of the tree at a path of child positions. -/
def part? (t : Tree) : List Nat → Option Tree
  | [] => some t
  | i :: path => t.children[i]?.bind (·.part? path)

@[simp] theorem leavesAll_append (ts us : List Tree) :
    leavesAll (ts ++ us) = leavesAll ts ++ leavesAll us := by
  induction ts with
  | nil => simp [leavesAll]
  | cons t ts ih => simp [leavesAll, ih]

mutual

theorem hasErrors_eq_leaves : (t : Tree) → t.hasErrors = t.leaves.any (·.isError)
  | node _ cs => by simpa [hasErrors, leaves] using hasErrorsAny_eq_leaves cs
  | leaf _ => by simp [hasErrors, leaves]

theorem hasErrorsAny_eq_leaves : (ts : List Tree) →
    hasErrorsAny ts = (leavesAll ts).any (·.isError)
  | [] => rfl
  | t :: ts => by
    simp [hasErrorsAny, leavesAll, hasErrors_eq_leaves t, hasErrorsAny_eq_leaves ts]

end

end Tree

end CfScript
