import CfScript.Proofs.Agreement
import CfScript.Proofs.WholeTree
import Mathlib.Order.Filter.AtTopBot.Basic

/-!
# Reading without a fault

A production that finds nothing wrong is a plain grammar: it takes tokens, and puts the trees of its
parts together. `Production.Reads` says this with one rule for each action, without states, steps or
findings. Every such reading is what the parser does.

The tokens are those inside a source without arrows. Among these a parenthesis never opens the
parameters of a function, so no decision looks further than three tokens.

## Main results

* `Reads.exec`: a production that reads tokens is carried out that way;
* `Reads.parseGoal_standalone`, `Reads.parseGoal_script`: an expression or a statement that is read up
  to the end of the input is parsed so;
* `Reads.parseStream_of_parseGoal`: in whichever way the parse is predicted.
-/

namespace CfScript

/-- A token inside a source: neither its end nor an arrow. -/
abbrev Token.Inner := {t : Token // t.isEnd = false ∧ t.kind ≠ .symbol .arrow}

namespace Token.Inner

/-- The kind of a token from the cursor on. -/
def kindAt : List Token.Inner → Nat → TokenKind
  | [], _ => .endOfInput
  | t :: _, 0 => t.1.kind
  | _ :: ts, n + 1 => kindAt ts n

@[simp] theorem kindAt_nil (n : Nat) : kindAt [] n = .endOfInput := rfl

@[simp] theorem kindAt_zero (t : Token.Inner) (ts : List Token.Inner) :
    kindAt (t :: ts) 0 = t.1.kind := rfl

@[simp] theorem kindAt_succ (t : Token.Inner) (ts : List Token.Inner) (n : Nat) :
    kindAt (t :: ts) (n + 1) = kindAt ts n := rfl

/-- The kinds of the three tokens from the cursor on. -/
def window (ts : List Token.Inner) : Window := ⟨kindAt ts 0, kindAt ts 1, kindAt ts 2⟩

/-- The kinds of all tokens from the cursor on. -/
def kinds (ts : List Token.Inner) : List TokenKind := ts.map (·.1.kind) ++ [.endOfInput]

/-- No parenthesis closes in front of an arrow. -/
theorem closesBeforeArrow_kinds (depth : Nat) (ts : List Token.Inner) :
    Grammar.closesBeforeArrow depth (kinds ts) = false := by
  induction ts generalizing depth with
  | nil => rfl
  | cons t ts ih =>
    have hNext : (kinds ts).head? ≠ some (.symbol .arrow) := by
      cases ts with
      | nil => simp [kinds]
      | cons u us => simpa [kinds] using u.2.2
    have hHead : ((kinds ts).head? == some (.symbol .arrow)) = false := by simpa using hNext
    have hEnd : t.1.kind ≠ .endOfInput := by simpa [Token.isEnd] using t.2.1
    rw [show kinds (t :: ts) = t.1.kind :: kinds ts from rfl, Grammar.closesBeforeArrow, if_neg hEnd]
    simp only [ih, hHead, ite_self]

end Token.Inner

open Token.Inner

/-- What a production reads without a fault: from the parts so far and the tokens at the cursor it
comes to the parts that it hands over and the tokens that are left. -/
inductive Production.Reads :
    Production → List Tree → List Token.Inner → List Tree → List Token.Inner → Prop
  | done {ps : List Tree} {ts : List Token.Inner} : Reads .done ps ts ps ts
  | take {next : Production} {ps qs : List Tree} {t : Token.Inner} {ts us : List Token.Inner}
      (h : Reads next (ps ++ [.token t.1]) ts qs us) : Reads (.take next) ps (t :: ts) qs us
  | expect {kind : TokenKind} {next : Production} {ps qs : List Tree} {t : Token.Inner}
      {ts us : List Token.Inner} (hKind : t.1.kind = kind)
      (h : Reads next (ps ++ [.token t.1]) ts qs us) : Reads (.expect kind next) ps (t :: ts) qs us
  | word {next : Production} {ps qs : List Tree} {t : Token.Inner} {ts us : List Token.Inner}
      (hWord : t.1.kind.isWord = true) (h : Reads next (ps ++ [.token t.1]) ts qs us) :
      Reads (.word next) ps (t :: ts) qs us
  | parse {goal : Goal} {next : Production} {ps ms qs : List Tree} {ts us vs : List Token.Inner}
      (hGoal : Reads goal.production [] ts ms us) (h : Reads next (ps ++ ms) us qs vs) :
      Reads (.parse goal next) ps ts qs vs
  | node {rule : Rule} {inner next : Production} {ps ms qs : List Tree}
      {ts us vs : List Token.Inner} (hInner : Reads inner [] ts ms us)
      (h : Reads next (ps ++ [.node rule ms]) us qs vs) : Reads (.node rule inner next) ps ts qs vs
  | close {rule : Rule} {next : Production} {ps qs : List Tree} {ts us : List Token.Inner}
      (h : Reads next [.node rule ps] ts qs us) : Reads (.close rule next) ps ts qs us
  | again {goal : Goal} {ps qs : List Tree} {ts us : List Token.Inner}
      (h : Reads goal.production ps ts qs us) : Reads (.again goal) ps ts qs us
  | look {choose : Window → Production} {ps qs : List Tree} {ts us : List Token.Inner}
      (h : Reads (choose (window ts)) ps ts qs us) : Reads (.look choose) ps ts qs us
  | scan {decision : Option Ambiguity} {test : List TokenKind → Bool} {yes no : Production}
      {ps qs : List Tree} {ts us : List Token.Inner} (hTest : test (kinds ts) = false)
      (h : Reads no ps ts qs us) : Reads (.scan decision test yes no) ps ts qs us
  /-- Only a goal that takes a token makes progress. -/
  | progress {goal : Goal} {stuck next : Production} {ps ms qs : List Tree}
      {ts us vs : List Token.Inner} (hGoal : Reads goal.production [] ts ms us)
      (hMoves : us.length < ts.length) (h : Reads next (ps ++ ms) us qs vs) :
      Reads (.progress goal stuck next) ps ts qs vs

namespace Production.Reads

/-- The state in front of tokens inside a source. -/
def state (last : Token) (hLast : last.isEnd = true) (findings : Log) (before : List Token)
    (ts : List Token.Inner) : ParserState :=
  ⟨⟨before, ts.map (·.1), last, hLast⟩, findings⟩

section

variable {last : Token} {hLast : last.isEnd = true} {findings : Log} {before : List Token}
  {t : Token.Inner} {ts us : List Token.Inner}

theorem kind_peek (n : Nat) :
    ((state last hLast findings before ts).stream.peek n).kind = kindAt ts n := by
  have hEnd : last.kind = .endOfInput := by simpa [Token.isEnd] using hLast
  simp only [state, TokenStream.peek]
  induction ts generalizing n with
  | nil => simpa using hEnd
  | cons t ts ih =>
    cases n with
    | zero => rfl
    | succ n => simpa using ih n

theorem window_state : (state last hLast findings before ts).window = window ts := by
  simp only [ParserState.window, kind_peek, window]

theorem kindsAhead_state : (state last hLast findings before ts).kindsAhead = kinds ts := by
  have hEnd : last.kind = .endOfInput := by simpa [Token.isEnd] using hLast
  simp [ParserState.kindsAhead, state, kinds, hEnd]

theorem current_state : (state last hLast findings before (t :: ts)).current = t.1 := rfl

theorem advance_state : (state last hLast findings before (t :: ts)).advance =
    state last hLast findings (t.1 :: before) ts := by
  simp [ParserState.advance, state, TokenStream.advance, t.2.1]

open Filter

/-- A goal is parsed as its production is carried out, one step deeper. -/
theorem run_of_exec {goal : Goal} {f : Frame} {s : ParserState} {o : Outcome}
    (h : ∀ᶠ n in atTop, goal.production.exec (run n) .lenient f s = o) :
    ∀ᶠ n in atTop, run n .lenient goal f s = o := by
  obtain ⟨least, hLeast⟩ := eventually_atTop.1 h
  refine eventually_atTop.2 ⟨least + 1, fun n hn => ?_⟩
  obtain ⟨m, rfl⟩ : ∃ m, n = m + 1 := ⟨n - 1, by omega⟩
  exact hLeast m (by omega)

/-- A production that reads tokens is carried out that way, with any number of steps from some number
on. The tokens that are read stand before the cursor afterwards. -/
theorem exec {p : Production} {ps qs : List Tree} (h : p.Reads ps ts qs us) (mark : Nat)
    (before : List Token) :
    ∃ before', before'.length + us.length = before.length + ts.length ∧
      ∀ᶠ n in atTop, p.exec (run n) .lenient ⟨mark, ps⟩ (state last hLast findings before ts) =
        .parsed qs (state last hLast findings before' us) := by
  induction h generalizing mark before with
  | done => exact ⟨before, rfl, .of_forall fun n => rfl⟩
  | @take _ _ _ t _ _ _ ih =>
    obtain ⟨before', hLength, hNext⟩ := ih mark (t.1 :: before)
    refine ⟨before', by simpa [Nat.succ_add_eq_add_succ] using hLength, hNext.mono fun n hNext => ?_⟩
    rwa [Production.exec, advance_state]
  | @expect _ _ _ _ t _ _ hKind _ ih =>
    obtain ⟨before', hLength, hNext⟩ := ih mark (t.1 :: before)
    refine ⟨before', by simpa [Nat.succ_add_eq_add_succ] using hLength, hNext.mono fun n hNext => ?_⟩
    rwa [Production.exec, current_state, if_pos hKind, advance_state]
  | @word _ _ _ t _ _ hWord _ ih =>
    obtain ⟨before', hLength, hNext⟩ := ih mark (t.1 :: before)
    refine ⟨before', by simpa [Nat.succ_add_eq_add_succ] using hLength, hNext.mono fun n hNext => ?_⟩
    rwa [Production.exec, current_state, if_pos hWord, advance_state]
  | parse _ _ ihGoal ih =>
    obtain ⟨middle, hLength, hGoal⟩ := ihGoal findings.length before
    obtain ⟨before', hLength', hNext⟩ := ih mark middle
    refine ⟨before', hLength'.trans hLength, ((run_of_exec hGoal).and hNext).mono fun n hBoth => ?_⟩
    rw [Production.exec, Frame.start, show (state last hLast findings before _).findings = findings
      from rfl, hBoth.1]
    exact hBoth.2
  | node _ _ ihInner ih =>
    obtain ⟨middle, hLength, hInner⟩ := ihInner findings.length before
    obtain ⟨before', hLength', hNext⟩ := ih mark middle
    refine ⟨before', hLength'.trans hLength, (hInner.and hNext).mono fun n hBoth => ?_⟩
    rw [Production.exec, Frame.start, show (state last hLast findings before _).findings = findings
      from rfl, hBoth.1]
    exact hBoth.2
  | close _ ih => exact ih mark before
  | again _ ih =>
    obtain ⟨before', hLength, hGoal⟩ := ih mark before
    exact ⟨before', hLength, run_of_exec hGoal⟩
  | look _ ih =>
    obtain ⟨before', hLength, hNext⟩ := ih mark before
    refine ⟨before', hLength, hNext.mono fun n hNext => ?_⟩
    rwa [Production.exec, window_state]
  | scan hTest _ ih =>
    obtain ⟨before', hLength, hNext⟩ := ih mark before
    refine ⟨before', hLength, hNext.mono fun n hNext => ?_⟩
    simp only [Production.exec, Setting.lenient, kindsAhead_state, hTest]
    exact hNext
  | progress _ hMoves _ ihGoal ih =>
    obtain ⟨middle, hLength, hGoal⟩ := ihGoal findings.length before
    obtain ⟨before', hLength', hNext⟩ := ih mark middle
    refine ⟨before', hLength'.trans hLength, ((run_of_exec hGoal).and hNext).mono fun n hBoth => ?_⟩
    rw [Production.exec, Frame.start, show (state last hLast findings before _).findings = findings
      from rfl, hBoth.1]
    have hPos : middle.length ≠ before.length := by omega
    exact (if_neg hPos).trans hBoth.2

/-! ## Whole sources -/

/-- What a goal comes to with any number of steps from some number on is what it is parsed to. -/
theorem parseGoal_of_run {goal : Goal} {s : ParserState} {o : Outcome}
    (hBlame : goal.NeedsBlame → 0 < s.findings.length)
    (h : ∀ᶠ n in atTop, run n .lenient goal (.start s) s = o) : parseGoal .lenient goal s = o := by
  obtain ⟨n, hRun, hSteps⟩ := (h.and (eventually_ge_atTop (enough s))).exists
  rw [← (run_eq_parseGoal .lenient goal hBlame hSteps).1, hRun]

/-- The end of the input is taken, and the cursor stays in front of it. -/
theorem exec_takeEnd (call : Setting → Goal → Frame → ParserState → Outcome) (f : Frame) :
    (Production.take .done).exec call .lenient f (state last hLast findings before []) =
      .parsed (f.parts ++ [.token last]) (state last hLast findings before []) := by
  have hTake : (state last hLast findings before []).advance = state last hLast findings before [] := by
    simp [ParserState.advance, state, TokenStream.advance]
  rw [Production.exec, hTake]
  rfl

theorem here_state_nil : (state last hLast findings before []).window.here = .endOfInput := by
  rw [window_state]
  rfl

/-- The parse of an expression that is read up to the end of the input. -/
theorem parseGoal_standalone {trees : List Tree}
    (h : Goal.expression.production.Reads [] ts trees []) :
    ∃ before', parseGoal .lenient .standalone (state last hLast findings [] ts) =
      .parsed (trees ++ [.token last]) (state last hLast findings before' []) := by
  obtain ⟨before', -, hExpression⟩ := h.exec findings.length []
  refine ⟨before', parseGoal_of_run (fun hBlame => nomatch hBlame) ?_⟩
  refine run_of_exec ((run_of_exec hExpression).mono fun n hGoal => ?_)
  rw [Goal.production, Grammar.standalone, Production.exec, Frame.start,
    show (state last hLast findings [] ts).findings = findings from rfl, hGoal]
  dsimp only
  rw [Production.exec, here_state_nil, if_pos rfl]
  exact exec_takeEnd _ _

/-- The parse of a statement that is read up to the end of the input. -/
theorem parseGoal_script {trees : List Tree} (hEnd : kindAt ts 0 ≠ .endOfInput)
    (hBrace : kindAt ts 0 ≠ .symbol .rBrace) (h : Goal.statement.production.Reads [] ts trees []) :
    ∃ before', parseGoal .lenient .script (state last hLast findings [] ts) =
      .parsed (trees ++ [.token last]) (state last hLast findings before' []) := by
  obtain ⟨before', hLength, hStatement⟩ :=
    @exec last hLast findings _ _ _ _ _ h findings.length []
  have hMoves : before'.length ≠ 0 := by
    rw [List.length_nil, Nat.add_zero, List.length_nil, Nat.zero_add] at hLength
    rw [hLength, Ne, List.length_eq_zero_iff]
    rintro rfl
    exact hEnd rfl
  have hFinish : ∀ᶠ n in atTop, run n .lenient .script ⟨findings.length, trees⟩
      (state last hLast findings before' []) =
        .parsed (trees ++ [.token last]) (state last hLast findings before' []) := by
    refine run_of_exec (.of_forall fun n => ?_)
    rw [Goal.production, Grammar.script, Production.exec, here_state_nil, if_pos rfl]
    exact exec_takeEnd _ _
  refine ⟨before', parseGoal_of_run (by rintro ⟨⟩) (run_of_exec ?_)⟩
  refine ((run_of_exec hStatement).and hFinish).mono fun n hBoth => ?_
  have hHere : (state last hLast findings [] ts).window.here = kindAt ts 0 := by
    rw [window_state]
    rfl
  rw [Goal.production, Grammar.script, Production.exec, hHere, if_neg hEnd, if_neg hBrace,
    Grammar.listed, Production.exec, Frame.start,
    show (state last hLast findings [] ts).findings = findings from rfl, hBoth.1]
  exact (if_neg hMoves).trans hBoth.2

end

/-- A stream that general prediction parses with nothing found is parsed so, in whichever way its parse
is predicted. -/
theorem parseStream_of_parseGoal {stream : TokenStream} (hWhole : stream.Whole)
    {ts : List Token.Inner} (hRest : stream.rest = ts.map (·.1)) {options : ParseOptions}
    {parts : List Tree}
    (h : ∃ before', parseGoal .lenient options.entry.goal
      (state stream.last stream.last_isEnd .empty [] ts) =
        .parsed parts (state stream.last stream.last_isEnd .empty before' []))
    (hStrategy : options.strategy ≠ .fastOnly) :
    (parseStream stream options).1 = .node options.entry.rule parts ∧
      (parseStream stream options).2.1 = .empty := by
  obtain ⟨before, rest, last, hLast⟩ := stream
  obtain rfl : before = [] := hWhole.before
  obtain rfl : rest = ts.map (·.1) := hRest
  obtain ⟨before', hGeneral⟩ := h
  obtain ⟨prediction, q, hParse, hFindings⟩ | ⟨hFast, -⟩ := parseStream_parsed options hWhole
  · rw [hFindings]
    obtain ⟨parts', hTree, -, hParsed⟩ := Parser.parse_eq_ok_iff.1 hParse
    rw [hTree]
    have hParts : parts' = parts ∧ q.findings = .empty := by
      cases prediction with
      | general =>
        have hSame := hGeneral.symm.trans hParsed
        injection hSame with hParts hState
        injection hState with _ hFound
        exact ⟨hParts.symm, hFound.symm⟩
      | fast =>
        -- What general prediction finds out of line with fast prediction it reports.
        have hGoal : options.entry.goal ≠ .statement := by cases options.entry <;> nofun
        have hAgrees : Agrees [] (state last hLast .empty [] ts) parts' ⟨q.stream, q.findings⟩
            (parseGoal .lenient options.entry.goal (state last hLast .empty [] ts)) :=
          run_agrees _ options.entry.goal _ _ _ _ (absurd · hGoal) hParsed
        rw [hGeneral] at hAgrees
        generalize hOutcome : Outcome.parsed parts (state last hLast .empty before' []) = o at hAgrees
        cases hAgrees with
        | same _ =>
          injection hOutcome with hParts hState
          injection hState with _ hFound
          exact ⟨hParts.symm, hFound.symm⟩
        | strays _ hStrays =>
          exact absurd (hStrays _ _ hOutcome.symm).1 (Nat.lt_irrefl _)
    rw [hParts.1]
    exact ⟨rfl, hParts.2⟩
  · exact absurd hFast hStrategy

end Production.Reads

end CfScript
