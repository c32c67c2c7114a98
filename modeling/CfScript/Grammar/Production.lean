import CfScript.Grammar.Fault
import CfScript.Tree.Rule

/-!
# Productions

The grammar is data: for every goal a production says, action by action, what the parser does at the
cursor. A production collects *parts* — leaves and nodes of the parse tree — and hands them to the
goal that asked for it. An action that takes a token, or asks for one that is not there, adds a leaf;
`close` turns all parts so far into one node; `again` goes on with another goal on the same parts.

What a decision may look at is part of the action: `look` sees the kinds of three tokens, `spell` the
current word in small letters, `scan` the kinds of all tokens that are left, `trial` the outcome of a
parse that is taken back. Only the first two are open to a parse with bounded lookahead.
-/

namespace CfScript

/-- What the grammar can ask for. -/
inductive Goal where
  /-- Statements up to the end of the input. -/
  | script
  /-- One expression, then the end of the input. -/
  | standalone
  /-- Tokens that are left over after the expression. -/
  | leftovers
  /-- Statements up to a token of one of the kinds. -/
  | statements (stop : List TokenKind)
  | statement
  | switchClauses
  | catchClauses
  /-- The words before the return type or `function`. -/
  | modifiers
  /-- A word, and more words after dots. -/
  | dottedName
  | dottedTail
  /-- A name, or a type and a name. -/
  | typedName
  /-- The name of a property, or its type and its name. -/
  | propertyName
  | attributes
  | parameters
  | expression
  | ternary
  /-- Operands and the binary operators of a level and of all tighter ones. -/
  | binary (level : Nat)
  /-- What follows an operand: binary operators of the level. -/
  | binaryTail (level : Nat)
  | unary
  /-- An operand and all that is applied to it. -/
  | applied
  /-- What is applied to an operand: arguments, members, indices and steps. -/
  | appliedTail
  | arguments
  | elements
  | structEntries
deriving DecidableEq, Inhabited

/-- The kinds of the three tokens from the cursor on. -/
structure Window where
  here : TokenKind
  next : TokenKind
  second : TokenKind
deriving DecidableEq, Inhabited

/-- What the parser does for a goal. -/
inductive Production where
  /-- Hand the parts over. -/
  | done
  /-- Take the current token, whatever it is. -/
  | take (next : Production)
  /-- Take a token of the kind, or assume it. -/
  | expect (kind : TokenKind) (next : Production)
  /-- Take a word, or assume an identifier. -/
  | word (next : Production)
  /-- Report a fault and assume what is required. -/
  | assume (fault : Fault) (next : Production)
  /-- Report a fault and skip the current token. -/
  | reject (fault : Fault) (next : Production)
  /-- Skip the current token, about which a finding is already made. -/
  | skip (next : Production)
  /-- Skip the rest of a broken statement. -/
  | recover (next : Production)
  /-- Parse a goal and add its parts. -/
  | parse (goal : Goal) (next : Production)
  /-- Run `inner` on parts of its own and add them as one node. -/
  | node (rule : Rule) (inner next : Production)
  /-- Turn all parts so far into one node. -/
  | close (rule : Rule) (next : Production)
  /-- Go on with a goal on the same parts. -/
  | again (goal : Goal)
  /-- Parse a statement and add it; if it takes no token, take back what it found and go on with
  `stuck` instead. -/
  | progress (goal : Goal) (stuck next : Production)
  /-- Choose by the kinds of the next three tokens. -/
  | look (choose : Window → Production)
  /-- Choose by the current word in small letters. -/
  | spell (choose : String → Production)
  /-- Choose by the kinds of all tokens that are left. A parse with bounded lookahead bails with the
  decision, or without one goes on with `no`. -/
  | scan (decision : Option Ambiguity) (test : List TokenKind → Bool) (yes no : Production)
  /-- Try `attempt` and take it back; choose by whether it succeeds in front of a token of the kind
  `follow`. A parse with bounded lookahead bails with the decision. -/
  | trial (decision : Ambiguity) (attempt : Production) (follow : TokenKind) (yes no : Production)
  /-- Choose by whether there is exactly one part so far. -/
  | single (yes no : Production)
  /-- Choose by whether anything was found wrong since the goal began. -/
  | troubled (yes no : Production)
deriving Inhabited

end CfScript
