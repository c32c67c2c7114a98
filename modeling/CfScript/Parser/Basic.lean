import CfScript.Parser.Engine
import CfScript.Token.Lexer

/-!
# Parsing

A parser holds a stream and a log. A parse from an entry rule gives a tree or bails; `parseOrSkip`
always gives a tree, if need be one in which every token is skipped.

`parse` reads a source. The adaptive strategy first tries fast prediction, which most sources get by
with; if that bails, the same source is parsed again, from the start, with general prediction.

## Main results

* `reset_new`: a new parser that is reset is a new parser at the first token of its stream.
-/

namespace CfScript

/-- The rule a parse starts from. -/
inductive Entry where
  /-- Statements up to the end of the input. -/
  | script
  /-- One expression, then the end of the input. -/
  | expression
deriving DecidableEq, Inhabited

namespace Entry

/-- The rule at the root of the tree. -/
def rule : Entry → Rule
  | script => .scriptBlock
  | expression => .standaloneExpression

/-- The goal that gives the children of the root. -/
def goal : Entry → Goal
  | script => .script
  | expression => .standalone

end Entry

/-- A parser at some place of a stream. -/
structure Parser where
  stream : TokenStream
  prediction : Prediction
  findings : Log
deriving DecidableEq, Inhabited

namespace Parser

/-- A parser on a stream with nothing found yet. -/
def new (stream : TokenStream) (prediction : Prediction) : Parser := ⟨stream, prediction, .empty⟩

/-- The parser at the first token of its stream, with nothing found. -/
def reset (p : Parser) (prediction : Prediction) : Parser := new p.stream.rewind prediction

/-- Parses from an entry rule. -/
def parse (p : Parser) (entry : Entry) : Except Bail Tree × Parser :=
  let state : ParserState := ⟨p.stream, p.findings⟩
  match parseGoal ⟨p.prediction, false⟩ entry.goal state with
  | .parsed parts s =>
    (.ok (.node entry.rule parts), { p with stream := s.stream, findings := s.findings })
  | .bailed bail s => (.error bail, { p with stream := s.stream, findings := s.findings })
  | .unfinished => (.error (state.bail .outOfSteps), p)

/-- The tree in which every token of a stream is skipped. -/
def skippedTree (entry : Entry) (stream : TokenStream) : Tree :=
  let passed := stream.body.takeWhile (!·.isEnd)
  .node entry.rule
    (passed.map .skipped ++ [.token ((stream.body[passed.length]?).getD stream.last)])

/-- The parser after it has skipped every token because of a bail. -/
def abandon (p : Parser) (bail : Bail) : Parser :=
  let passed := p.stream.body.takeWhile (!·.isEnd)
  { p with stream := p.stream.seek passed.length, findings := Log.empty.push bail.diagnostic }

/-- Parses from an entry rule, or skips every token. -/
def parseOrSkip (p : Parser) (entry : Entry) : Tree × Parser :=
  match p.parse entry with
  | (.ok tree, p) => (tree, p)
  | (.error bail, p) => (skippedTree entry p.stream, p.abandon bail)

end Parser

/-- Which kinds of prediction a parse may use. -/
inductive Strategy where
  /-- Fast prediction, and general prediction if the fast one bails. -/
  | adaptive
  | fastOnly
  | generalOnly
deriving DecidableEq, Inhabited

/-- How a source is parsed. -/
structure ParseOptions where
  entry : Entry := .script
  strategy : Strategy := .adaptive
deriving DecidableEq, Inhabited

/-- The tree of a stream, what was found, and the prediction that gave the tree. -/
def parseStream (stream : TokenStream) (options : ParseOptions) : Tree × Log × Prediction :=
  let skipping (prediction : Prediction) : Tree × Log × Prediction :=
    let (tree, p) := (Parser.new stream prediction).parseOrSkip options.entry
    (tree, p.findings, prediction)
  match options.strategy with
  | .generalOnly => skipping .general
  | .fastOnly => skipping .fast
  | .adaptive =>
    match (Parser.new stream .fast).parse options.entry with
    | (.ok tree, p) => (tree, p.findings, .fast)
    | (.error _, p) =>
      let (tree, p) := (p.reset .general).parseOrSkip options.entry
      (tree, p.findings, .general)

/-- All that a parse gives. -/
structure ParseOutput where
  tree : Tree
  /-- All tokens, comments included. -/
  tokens : List Token
  /-- What was found wrong with the tokens, then what the parser found. -/
  findings : Log
  prediction : Prediction
deriving Inhabited

/-- Whether the source is unusable. -/
def ParseOutput.hasErrors (output : ParseOutput) : Bool := output.findings.hasErrors

/-- Parses a source. -/
def parse (source : String) (options : ParseOptions) : ParseOutput :=
  let tokens := Token.tokens source
  let (tree, found, prediction) := parseStream (.ofTokens tokens) options
  let findings := (Log.mk (Token.complaints tokens)).append found.entries
  { tree, tokens, findings := findings.locate source, prediction }

namespace Parser

theorem reset_new (stream : TokenStream) (a b : Prediction) :
    (new stream a).reset b = new stream.rewind b := rfl

end Parser

end CfScript
