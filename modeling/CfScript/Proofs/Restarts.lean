import CfScript.Proofs.Machine

/-!
# Starting over

A parser can be asked again and again, whether its parses give trees or bail, and it can be reset. Each
answer is how a parse ended and what was found. After a reset a parser answers as a new one does,
whatever it was asked before: the machine with all its registers is the machine it was at first, and
without the registers the answers are the same. So the second stage of a parse, which begins on the
parser that the first one left, answers as if there had been no first stage.

## Main results

* `Machine.reset_of_tokens`: a machine that is reset remembers nothing but its tokens;
* `Machine.serveAll_answers`: the registers do not show in the answers;
* `reset_restarts`: after a reset everything is answered as at first.
-/

namespace CfScript

namespace Parser

/-- What can be asked of a parser. -/
inductive Query where
  /-- A parse from an entry rule. -/
  | parse (entry : Entry)
  /-- A parse from an entry rule, or the skipping of every token. -/
  | parseOrSkip (entry : Entry)
  /-- A new start. -/
  | reset (prediction : Prediction)
deriving DecidableEq, Inhabited

/-- How a parse ended, if there was one, and what the parser has found. -/
structure Answer where
  result : Option (Except Bail Tree)
  findings : Log

end Parser

open CfScript.Parser (Query Answer)

/-- What is answered to queries, one after the other, and what is left afterwards. -/
def serveAll {Server : Type} (serve : Server → Query → Answer × Server) (server : Server) :
    List Query → List Answer × Server
  | [] => ([], server)
  | query :: queries =>
    let (answer, server) := serve server query
    let (answers, server) := serveAll serve server queries
    (answer :: answers, server)

/-- What a parser answers to a query, and the parser afterwards. -/
def Parser.serve (p : Parser) : Query → Answer × Parser
  | .parse entry => (⟨some (p.parse entry).1, (p.parse entry).2.findings⟩, (p.parse entry).2)
  | .parseOrSkip entry =>
    (⟨some (.ok (p.parseOrSkip entry).1), (p.parseOrSkip entry).2.findings⟩,
      (p.parseOrSkip entry).2)
  | .reset prediction => (⟨none, (p.reset prediction).findings⟩, p.reset prediction)

/-! ## The machine as a parser -/

namespace Machine

/-- A machine on a stream with nothing found yet. -/
def new (stream : TokenStream) (prediction : Prediction) : Machine :=
  ⟨stream, prediction, .empty, 0, .empty⟩

/-- The machine at the first token of its stream, with nothing in its other registers. -/
def reset (m : Machine) (prediction : Prediction) : Machine :=
  { m with
    stream := m.stream.rewind
    prediction := prediction
    findings := .empty
    attempts := 0
    delimiters := .empty }

/-- Parses from an entry rule. -/
def parse (m : Machine) (entry : Entry) : Except Bail Tree × Machine :=
  match m.run (enough m.state) entry.goal (.start m.state) with
  | .parsed parts m => (.ok (.node entry.rule parts), m)
  | .bailed bail m => (.error bail, m)
  | .unfinished => (.error (m.bail .outOfSteps), m)

/-- The machine after it has skipped every token because of a bail. -/
def abandon (m : Machine) (bail : Bail) : Machine :=
  let passed := m.stream.body.takeWhile (!·.isEnd)
  { m with stream := m.stream.seek passed.length, findings := Log.empty.push bail.diagnostic }

/-- Parses from an entry rule, or skips every token. -/
def parseOrSkip (m : Machine) (entry : Entry) : Tree × Machine :=
  match m.parse entry with
  | (.ok tree, m) => (tree, m)
  | (.error bail, m) => (Parser.skippedTree entry m.stream, m.abandon bail)

/-- What a machine answers to a query, and the machine afterwards. -/
def serve (m : Machine) : Query → Answer × Machine
  | .parse entry => (⟨some (m.parse entry).1, (m.parse entry).2.findings⟩, (m.parse entry).2)
  | .parseOrSkip entry =>
    (⟨some (.ok (m.parseOrSkip entry).1), (m.parseOrSkip entry).2.findings⟩,
      (m.parseOrSkip entry).2)
  | .reset prediction => (⟨none, (m.reset prediction).findings⟩, m.reset prediction)

/-- The parser that a machine is, if its other registers are left out. -/
def parser (m : Machine) : Parser := ⟨m.stream, m.prediction, m.findings⟩

/-- What a machine that has no attempt under way has in common with the parser, after it was asked
something: what it answers and the parser that it is. No attempt is under way, and it has its tokens. -/
structure Follows {α : Type} (m : Machine) (asked : α × Machine) (plain : α × Parser) : Prop where
  answer : asked.1 = plain.1
  parser : asked.2.parser = plain.2
  attempts : asked.2.attempts = 0
  tokens : asked.2.stream.tokens = m.stream.tokens

theorem follows_parse {m : Machine} (hIdle : m.attempts = 0) (entry : Entry) :
    m.Follows (m.parse entry) (m.parser.parse entry) := by
  have hSetting : m.setting = ⟨m.prediction, false⟩ := by simp [setting, hIdle]
  have hRun := run_matches (enough m.state) entry.goal (.start m.state) m m.clear_start
  rw [hSetting] at hRun
  have hParse : parseGoal ⟨m.parser.prediction, false⟩ entry.goal ⟨m.parser.stream, m.parser.findings⟩ =
      CfScript.run (enough m.state) ⟨m.prediction, false⟩ entry.goal (.start m.state) m.state := rfl
  unfold parse Parser.parse
  dsimp only
  rw [hParse]
  generalize m.run (enough m.state) entry.goal (.start m.state) = halt at hRun ⊢
  generalize CfScript.run (enough m.state) _ entry.goal (.start m.state) m.state = o at hRun ⊢
  cases hRun with
  | @parsed parts m' h hClean =>
    exact ⟨rfl, congrArg (Parser.mk _ · _) h.prediction, h.attempts.trans hIdle, h.tokens⟩
  | @bailed bail m' h =>
    exact ⟨rfl, congrArg (Parser.mk _ · _) h.prediction, h.attempts.trans hIdle, h.tokens⟩
  | unfinished => exact ⟨rfl, rfl, hIdle, rfl⟩

theorem follows_parseOrSkip {m : Machine} (hIdle : m.attempts = 0) (entry : Entry) :
    m.Follows (m.parseOrSkip entry) (m.parser.parseOrSkip entry) := by
  obtain ⟨hAnswer, hParser, hAttempts, hTokens⟩ := follows_parse hIdle entry
  unfold parseOrSkip Parser.parseOrSkip
  generalize m.parse entry = asked at *
  generalize m.parser.parse entry = plain at *
  obtain ⟨result, m'⟩ := asked
  obtain ⟨result', p⟩ := plain
  cases hAnswer
  cases hParser
  cases result with
  | ok tree => exact ⟨rfl, rfl, hAttempts, hTokens⟩
  | error bail => exact ⟨rfl, rfl, hAttempts, (TokenStream.tokens_seek _ _).trans hTokens⟩

theorem follows_serve {m : Machine} (hIdle : m.attempts = 0) (query : Query) :
    m.Follows (m.serve query) (m.parser.serve query) := by
  cases query with
  | parse entry =>
    obtain ⟨hAnswer, hParser, hAttempts, hTokens⟩ := follows_parse hIdle entry
    exact ⟨by simp only [serve, Parser.serve, hAnswer, ← hParser]; rfl, hParser, hAttempts, hTokens⟩
  | parseOrSkip entry =>
    obtain ⟨hAnswer, hParser, hAttempts, hTokens⟩ := follows_parseOrSkip hIdle entry
    exact ⟨by simp only [serve, Parser.serve, hAnswer, ← hParser]; rfl, hParser, hAttempts, hTokens⟩
  | reset prediction => exact ⟨rfl, rfl, rfl, TokenStream.tokens_seek _ 0⟩

/-- The registers do not show in the answers to queries, however many there are. -/
theorem follows_serveAll {m : Machine} (hIdle : m.attempts = 0) (queries : List Query) :
    m.Follows (serveAll serve m queries) (serveAll Parser.serve m.parser queries) := by
  induction queries generalizing m with
  | nil => exact ⟨rfl, rfl, hIdle, rfl⟩
  | cons query queries ih =>
    obtain ⟨hAnswer, hParser, hAttempts, hTokens⟩ := follows_serve hIdle query
    obtain ⟨hAnswers, hParser', hAttempts', hTokens'⟩ := ih hAttempts
    rw [hParser] at hAnswers hParser'
    exact ⟨congrArg₂ List.cons hAnswer hAnswers, hParser', hAttempts', hTokens'.trans hTokens⟩

end Machine

/-! ## Resets -/

theorem TokenStream.rewind_of_pos {stream : TokenStream} (hStart : stream.pos = 0) :
    stream.rewind = stream := by
  have hSeek := stream.seek_pos
  rwa [hStart] at hSeek

/-- A machine that is reset remembers nothing but its tokens. -/
theorem Machine.reset_of_tokens {m : Machine} {stream : TokenStream} (hStart : stream.pos = 0)
    (hTokens : m.stream.tokens = stream.tokens) (prediction : Prediction) :
    m.reset prediction = .new stream prediction := by
  rw [Machine.reset, TokenStream.rewind_eq_of_tokens hTokens, TokenStream.rewind_of_pos hStart,
    Machine.new]

/-- After a reset, whatever was asked before, a parser on a stream at its first token answers as a new
one does: the machine with all its registers is as new, and so is the parser without them, and both
give the answers of a new parser. Hence, if a source is first parsed with fast prediction, which bails,
and then with general prediction, all is as if it were parsed with general prediction only. -/
theorem reset_restarts {stream : TokenStream} (hStart : stream.pos = 0)
    (first mode : Prediction) (history : List Query) :
    let machine := (serveAll Machine.serve (.new stream first) history).2
    let parser := (serveAll Parser.serve (.new stream first) history).2
    machine.reset mode = .new stream mode ∧
      (∀ queries,
        (serveAll Machine.serve (machine.reset mode) queries).1 =
            (serveAll Parser.serve (.new stream mode) queries).1 ∧
          (serveAll Parser.serve (parser.reset mode) queries).1 =
            (serveAll Parser.serve (.new stream mode) queries).1) ∧
      ∀ (source : String) (entry : Entry) (bail : Bail) (p : Parser),
        (Parser.new (.ofTokens (Token.tokens source)) .fast).parse entry = (.error bail, p) →
          parse source ⟨entry, .adaptive⟩ = parse source ⟨entry, .generalOnly⟩ := by
  intro machine parser
  have hHistory := Machine.follows_serveAll (m := .new stream first) rfl history
  have hMachine : machine.reset mode = .new stream mode :=
    Machine.reset_of_tokens hStart hHistory.tokens mode
  have hParser : parser.reset mode = .new stream mode := by
    have hSame : machine.parser = parser := hHistory.parser
    have hTokens : parser.stream.tokens = stream.tokens := by
      rw [← hSame]
      exact hHistory.tokens
    rw [Parser.reset, TokenStream.rewind_eq_of_tokens hTokens, TokenStream.rewind_of_pos hStart]
  refine ⟨hMachine, fun queries => ⟨?_, ?_⟩, ?_⟩
  · rw [hMachine]
    exact (Machine.follows_serveAll (m := .new stream mode) rfl queries).answer
  · rw [hParser]
  · intro source entry bail p hBail
    simp only [parse]
    rw [parseStream_adaptive_of_bailed (TokenStream.rewind_ofTokens _) hBail]

/-- A parser that has bailed behind a statement that is not ended, and was asked for more, is as new after
a reset; and the source is parsed with general prediction for either strategy. -/
theorem reset_restarts_unended :
    let stream : TokenStream := .ofTokens (Token.tokens "a = b c")
    let history : List Query := [.parse .script, .parseOrSkip .expression, .parse .script]
    let machine := (serveAll Machine.serve (.new stream .fast) history).2
    stream.pos = 0 ∧ machine ≠ .new stream .fast ∧
      machine.reset .general = .new stream .general ∧
      (∃ bail p, (Parser.new stream .fast).parse .script = (.error bail, p) ∧ p.stream.pos = 3) ∧
      parse "a = b c" ⟨.script, .adaptive⟩ = parse "a = b c" ⟨.script, .generalOnly⟩ := by
  intro stream history machine
  have hStart : stream.pos = 0 := by decide +kernel
  have hChanged : machine ≠ .new stream .fast := by decide +kernel
  have hBails : ((Parser.new stream .fast).parse .script).1.toOption = none := by decide +kernel
  have hPos : ((Parser.new stream .fast).parse .script).2.stream.pos = 3 := by decide +kernel
  obtain ⟨hMachine, -, hSource⟩ := reset_restarts hStart .fast .general history
  cases hParse : (Parser.new stream .fast).parse .script with
  | mk result p =>
    rw [hParse] at hBails hPos
    cases result with
    | ok tree => cases hBails
    | error bail =>
      exact ⟨hStart, hChanged, hMachine, ⟨bail, p, rfl, hPos⟩, hSource "a = b c" .script bail p hParse⟩

end CfScript
