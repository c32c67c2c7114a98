import CfScript.Diagnostic.Log
import CfScript.Grammar.Rules
import CfScript.Token.Stream
import CfScript.Tree.Basic

/-!
# Running productions

`exec` carries out a production at the cursor of a stream. What it asks of other goals is given to it
as a function, so each action is explained once and for all goals. `run` ties the knot: it carries out
the production of a goal, counting the goals it enters so that it ends on any grammar; `enough` is a
count that no parse of a stream uses up.

A parse runs in one of two modes. With `fast` prediction no decision sees more than three tokens, and
the first fault ends the parse. With `general` prediction decisions see all that is left, and a fault
is reported and repaired on the spot — except inside an attempt that will be taken back, which a fault
ends.
-/

namespace CfScript

/-- How far decisions may look ahead, and what a fault does. -/
inductive Prediction where
  | fast
  | general
deriving DecidableEq, Inhabited

/-- The conditions a production runs under. -/
structure Setting where
  prediction : Prediction
  /-- Whether the parse will be taken back. -/
  trying : Bool := false
deriving DecidableEq, Inhabited

/-- Whether a fault ends the parse. -/
def Setting.strict (setting : Setting) : Bool := setting.prediction == .fast || setting.trying

/-- Where a parse stands and what it has found. -/
structure ParserState where
  stream : TokenStream
  findings : Log
deriving DecidableEq, Inhabited

/-- What a goal has collected. -/
structure Frame where
  /-- The number of findings when the goal began. -/
  mark : Nat
  parts : List Tree
deriving Inhabited

/-- How a parse ends. -/
inductive Outcome where
  | parsed (parts : List Tree) (state : ParserState)
  | bailed (bail : Bail) (state : ParserState)
  /-- The steps are used up. -/
  | unfinished
deriving Inhabited

namespace ParserState

/-- The token at the cursor. -/
def current (s : ParserState) : Token := s.stream.current

/-- The kinds of the three tokens from the cursor on. -/
def window (s : ParserState) : Window :=
  ⟨(s.stream.peek 0).kind, (s.stream.peek 1).kind, (s.stream.peek 2).kind⟩

/-- The kinds of all tokens from the cursor on. -/
def kindsAhead (s : ParserState) : List TokenKind :=
  s.stream.rest.map (·.kind) ++ [s.stream.last.kind]

/-- The state one token further. -/
def advance (s : ParserState) : ParserState := { s with stream := s.stream.advance }

/-- The state with a fault at the cursor reported. -/
def report (s : ParserState) (fault : Fault) : ParserState :=
  { s with findings := s.findings.push (fault.diagnostic s.current) }

/-- The bail at the cursor. -/
def bail (s : ParserState) (reason : BailReason) : Bail := ⟨s.current, reason⟩

end ParserState

namespace Frame

/-- The frame of a goal that begins. -/
def start (s : ParserState) : Frame := ⟨s.findings.length, []⟩

/-- The frame with more parts. -/
def append (f : Frame) (parts : List Tree) : Frame := { f with parts := f.parts ++ parts }

/-- The frame with one more part. -/
def push (f : Frame) (part : Tree) : Frame := f.append [part]

/-- The frame with all its parts turned into one node. -/
def close (f : Frame) (rule : Rule) : Frame := { f with parts := [.node rule f.parts] }

end Frame

namespace Production

/-- Carries out a production; `call` parses the goals that it asks for. -/
def exec (call : Setting → Goal → Frame → ParserState → Outcome) :
    Production → Setting → Frame → ParserState → Outcome
  | done, _, f, s => .parsed f.parts s
  | take next, σ, f, s => exec call next σ (f.push (.token s.current)) s.advance
  | expect kind next, σ, f, s =>
    if s.current.kind = kind then exec call next σ (f.push (.token s.current)) s.advance
    else if σ.strict then .bailed (s.bail (.fault (.expectedToken kind))) s
    else exec call next σ (f.push (.assumed kind.describe)) (s.report (.expectedToken kind))
  | word next, σ, f, s =>
    if s.current.kind.isWord then exec call next σ (f.push (.token s.current)) s.advance
    else if σ.strict then .bailed (s.bail (.fault .expectedIdentifier)) s
    else
      exec call next σ (f.push (.assumed Fault.expectedIdentifier.assumption))
        (s.report .expectedIdentifier)
  | assume fault next, σ, f, s =>
    if σ.strict then .bailed (s.bail (.fault fault)) s
    else exec call next σ (f.push (.assumed fault.assumption)) (s.report fault)
  | reject fault next, σ, f, s =>
    if σ.strict then .bailed (s.bail (.fault fault)) s
    else exec call next σ (f.push (.skipped s.current)) (s.report fault).advance
  | skip next, σ, f, s =>
    if σ.strict then .bailed (s.bail .invalidToken) s
    else exec call next σ (f.push (.skipped s.current)) s.advance
  | recover next, σ, f, s =>
    let (skipped, semicolon) := Token.skipStatement .empty s.stream.rest
    let passed := skipped.length + semicolon.toList.length
    exec call next σ
      (f.append (skipped.map .skipped ++ semicolon.toList.map .token))
      { s with stream := s.stream.advanceBy passed }
  | parse goal next, σ, f, s =>
    match call σ goal (.start s) s with
    | .parsed parts s => exec call next σ (f.append parts) s
    | outcome => outcome
  | node rule inner next, σ, f, s =>
    match exec call inner σ (.start s) s with
    | .parsed parts s => exec call next σ (f.push (.node rule parts)) s
    | outcome => outcome
  | close rule next, σ, f, s => exec call next σ (f.close rule) s
  | again goal, σ, f, s => call σ goal f s
  | progress goal stuck next, σ, f, s =>
    match call σ goal (.start s) s with
    | .parsed parts s' =>
      if s'.stream.pos = s.stream.pos then
        exec call stuck σ f { s' with findings := s'.findings.truncate s.findings.length }
      else exec call next σ (f.append parts) s'
    | outcome => outcome
  | look choose, σ, f, s => exec call (choose s.window) σ f s
  | spell choose, σ, f, s => exec call (choose (Text.fold s.current.lexeme)) σ f s
  | scan decision test yes no, σ, f, s =>
    match σ.prediction, decision with
    | .fast, some decision => .bailed (s.bail (.ambiguous decision)) s
    | .fast, none => exec call no σ f s
    | .general, _ =>
      if test s.kindsAhead then exec call yes σ f s else exec call no σ f s
  | trial decision attempt follow yes no, σ, f, s =>
    match σ.prediction with
    | .fast => .bailed (s.bail (.ambiguous decision)) s
    | .general =>
      match exec call attempt { σ with trying := true } (.start s) s with
      | .unfinished => .unfinished
      | .bailed _ _ => exec call no σ f s
      | .parsed _ s' =>
        if s'.current.kind = follow then exec call yes σ f s else exec call no σ f s
  | single yes no, σ, f, s =>
    if f.parts.length = 1 then exec call yes σ f s else exec call no σ f s
  | troubled yes no, σ, f, s =>
    if f.mark < s.findings.length then exec call yes σ f s else exec call no σ f s

end Production

/-- Parses a goal, entering no more than `steps` goals inside one another. -/
def run : Nat → Setting → Goal → Frame → ParserState → Outcome
  | 0, _, _, _, _ => .unfinished
  | steps + 1, σ, goal, f, s => goal.production.exec (run steps) σ f s

/-- A number of steps that no parse from the state uses up: between two tokens that are taken, fewer
than thirty goals are entered. -/
def enough (s : ParserState) : Nat := 64 * (s.stream.rest.length + 2)

/-- Parses a goal. -/
def parseGoal (σ : Setting) (goal : Goal) (s : ParserState) : Outcome :=
  run (enough s) σ goal (.start s) s

end CfScript
