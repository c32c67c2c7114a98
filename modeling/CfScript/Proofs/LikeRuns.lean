import CfScript.Parser.Basic
import CfScript.Proofs.Likeness

/-!
# Parses of streams that are alike

On two streams that are alike a parse takes the same decisions. It ends in the same way, after the same
number of tokens, with parts that are alike and with findings that are alike. Whether the parse is
strict, tries something that it takes back, or gives up and skips all tokens makes no difference.

The two runs are followed side by side, action by action.

## Main results

* `exec_like`, `run_like`: what runs on streams that are alike come to;
* `parseStream_like`: the trees and the findings of two streams under any strategy.
-/

namespace CfScript

variable {v : View}

/-! ## States and outcomes -/

/-- States that are alike: they stand at the same place of streams that are alike. -/
structure ParserState.Like (v : View) (s t : ParserState) : Prop where
  stream : s.stream.Like v t.stream
  findings : s.findings.Like v t.findings

/-- Frames with parts that are alike. -/
structure Frame.Like (v : View) (f g : Frame) : Prop where
  mark : f.mark = g.mark
  parts : List.Forall₂ (Tree.Like v) f.parts g.parts

/-- Bails at tokens that are alike, for the same reason. -/
structure Bail.Like (v : View) (bail other : Bail) : Prop where
  token : bail.token.Like v other.token
  reason : bail.reason = other.reason

/-- Outcomes that are alike. -/
inductive Outcome.Like (v : View) : Outcome → Outcome → Prop where
  | parsed {ps qs : List Tree} {s t : ParserState} (hParts : List.Forall₂ (Tree.Like v) ps qs)
      (hState : s.Like v t) : Like v (.parsed ps s) (.parsed qs t)
  | bailed {bail other : Bail} {s t : ParserState} (hBail : bail.Like v other)
      (hState : s.Like v t) : Like v (.bailed bail s) (.bailed other t)
  | unfinished : Like v .unfinished .unfinished

theorem Fault.text_like (fault : Fault) {t u : Token} (h : t.Like v u)
    (hSeen : v.spelling = true) : fault.text t = fault.text u := by
  unfold Fault.text
  rw [h.found hSeen]

theorem Fault.diagnostic_like (fault : Fault) {t u : Token} (h : t.Like v u) :
    (fault.diagnostic t).Like v (fault.diagnostic u) :=
  ⟨rfl, rfl, rfl, rfl, rfl, fault.text_like h, h.span⟩

theorem Bail.Like.diagnostic {bail other : Bail} (h : bail.Like v other) :
    bail.diagnostic.Like v other.diagnostic := by
  refine ⟨rfl, rfl, rfl, rfl, rfl, fun hSeen => ?_, h.token.span⟩
  simp only [Bail.diagnostic, Bail.text, h.reason]
  cases other.reason with
  | fault fault => exact fault.text_like h.token hSeen
  | ambiguous decision => rfl
  | invalidToken => rfl
  | outOfSteps => rfl

namespace ParserState.Like

variable {s t : ParserState}

theorem current (h : s.Like v t) : s.current.Like v t.current := h.stream.current

theorem kind (h : s.Like v t) : s.current.kind = t.current.kind := h.current.kind

theorem window (h : s.Like v t) : s.window = t.window := by
  simp only [ParserState.window, (h.stream.peek 0).kind, (h.stream.peek 1).kind,
    (h.stream.peek 2).kind]

theorem kindsAhead (h : s.Like v t) : s.kindsAhead = t.kindsAhead := by
  have hRest : s.stream.rest.map (·.kind) = t.stream.rest.map (·.kind) := by
    refine List.forall₂_eq_eq_eq ▸ List.rel_map (fun _ _ h => h.kind) h.stream.rest
  rw [ParserState.kindsAhead, ParserState.kindsAhead, hRest, h.stream.last.kind]

theorem spelt (h : s.Like v t) : Text.fold s.current.lexeme = Text.fold t.current.lexeme :=
  h.current.lexeme.fold

theorem advance (h : s.Like v t) : s.advance.Like v t.advance := ⟨h.stream.advance, h.findings⟩

theorem report (h : s.Like v t) (fault : Fault) : (s.report fault).Like v (t.report fault) :=
  ⟨h.stream, h.findings.push (fault.diagnostic_like h.current)⟩

theorem bail (h : s.Like v t) (reason : BailReason) : (s.bail reason).Like v (t.bail reason) :=
  ⟨h.current, rfl⟩

end ParserState.Like

namespace Frame.Like

variable {f g : Frame}

theorem start {s t : ParserState} (h : s.Like v t) : (Frame.start s).Like v (.start t) :=
  ⟨h.findings.length, .nil⟩

theorem append (h : f.Like v g) {ps qs : List Tree} (hMore : List.Forall₂ (Tree.Like v) ps qs) :
    (f.append ps).Like v (g.append qs) :=
  ⟨h.mark, List.rel_append h.parts hMore⟩

theorem push (h : f.Like v g) {p q : Tree} (hMore : p.Like v q) : (f.push p).Like v (g.push q) :=
  h.append (.cons hMore .nil)

theorem take (h : f.Like v g) {s t : ParserState} (hState : s.Like v t) :
    (f.push (.token s.current)).Like v (g.push (.token t.current)) :=
  h.push (.leaf (.matched hState.current))

theorem skip (h : f.Like v g) {s t : ParserState} (hState : s.Like v t) :
    (f.push (.skipped s.current)).Like v (g.push (.skipped t.current)) :=
  h.push (.leaf (.skipped hState.current))

theorem assume (h : f.Like v g) (what : String) :
    (f.push (.assumed what)).Like v (g.push (.assumed what)) :=
  h.push (.leaf (.assumed what))

theorem close (h : f.Like v g) (rule : Rule) : (f.close rule).Like v (g.close rule) :=
  ⟨h.mark, .cons (.node rule h.parts) .nil⟩

end Frame.Like

/-- Of broken statements that are alike the same tokens are skipped. -/
theorem Token.skipStatement_like {ts us : List Token} (h : List.Forall₂ (Token.Like v) ts us)
    (stack : DelimiterStack) :
    List.Forall₂ (Token.Like v) (skipStatement stack ts).1 (skipStatement stack us).1 ∧
      List.Forall₂ (Token.Like v) (skipStatement stack ts).2.toList
        (skipStatement stack us).2.toList := by
  induction h generalizing stack with
  | nil => exact ⟨.nil, .nil⟩
  | cons hToken _ ih =>
    unfold skipStatement
    rw [hToken.isEnd, hToken.kind]
    split
    · exact ⟨.nil, .nil⟩
    split
    · exact ⟨.nil, .nil⟩
    split
    · exact ⟨.nil, .cons hToken .nil⟩
    split
    · exact ⟨.nil, .nil⟩
    · exact ⟨.cons hToken (ih _).1, (ih _).2⟩

/-! ## Runs -/

/-- Outcomes that go on in the same way are alike if they go on alike. -/
theorem Outcome.Like.andThen {o p : Outcome} (h : o.Like v p)
    {next other : List Tree → ParserState → Outcome}
    (hNext : ∀ ps qs s t, List.Forall₂ (Tree.Like v) ps qs → s.Like v t →
      (next ps s).Like v (other qs t)) :
    (match (motive := Outcome → Outcome) o with
      | .parsed ps s => next ps s
      | outcome => outcome).Like v
      (match (motive := Outcome → Outcome) p with
      | .parsed qs t => other qs t
      | outcome => outcome) := by
  cases h with
  | parsed hParts hState => exact hNext _ _ _ _ hParts hState
  | bailed hBail hState => exact .bailed hBail hState
  | unfinished => exact .unfinished

/-- A production on states that are alike, if all that it calls keeps them alike. -/
theorem exec_like {call : Setting → Goal → Frame → ParserState → Outcome}
    (hCall : ∀ σ goal f g s t, f.Like v g → s.Like v t →
      (call σ goal f s).Like v (call σ goal g t)) (p : Production) :
    ∀ σ f g s t, f.Like v g → s.Like v t → (p.exec call σ f s).Like v (p.exec call σ g t) := by
  induction p with
  | done => exact fun σ f g s t hf hs => .parsed hf.parts hs
  | take next ih => exact fun σ f g s t hf hs => ih _ _ _ _ _ (hf.take hs) hs.advance
  | expect kind next ih =>
    intro σ f g s t hf hs
    unfold Production.exec
    rw [hs.kind]
    split
    · exact ih _ _ _ _ _ (hf.take hs) hs.advance
    · split
      · exact .bailed (hs.bail _) hs
      · exact ih _ _ _ _ _ (hf.assume _) (hs.report _)
  | word next ih =>
    intro σ f g s t hf hs
    unfold Production.exec
    rw [hs.kind]
    split
    · exact ih _ _ _ _ _ (hf.take hs) hs.advance
    · split
      · exact .bailed (hs.bail _) hs
      · exact ih _ _ _ _ _ (hf.assume _) (hs.report _)
  | assume fault next ih =>
    intro σ f g s t hf hs
    unfold Production.exec
    split
    · exact .bailed (hs.bail _) hs
    · exact ih _ _ _ _ _ (hf.assume _) (hs.report _)
  | reject fault next ih =>
    intro σ f g s t hf hs
    unfold Production.exec
    split
    · exact .bailed (hs.bail _) hs
    · exact ih _ _ _ _ _ (hf.skip hs) (hs.report _).advance
  | skip next ih =>
    intro σ f g s t hf hs
    unfold Production.exec
    split
    · exact .bailed (hs.bail _) hs
    · exact ih _ _ _ _ _ (hf.skip hs) hs.advance
  | recover next ih =>
    intro σ f g s t hf hs
    obtain ⟨hSkipped, hSemicolon⟩ := Token.skipStatement_like hs.stream.rest .empty
    unfold Production.exec
    dsimp only
    rw [hSkipped.length_eq, hSemicolon.length_eq]
    refine ih _ _ _ _ _ (hf.append (List.rel_append ?_ ?_)) ⟨hs.stream.advanceBy _, hs.findings⟩
    · exact List.rel_map (fun _ _ h => .leaf (.skipped h)) hSkipped
    · exact List.rel_map (fun _ _ h => .leaf (.matched h)) hSemicolon
  | parse goal next ih =>
    intro σ f g s t hf hs
    exact (hCall _ _ _ _ _ _ (.start hs) hs).andThen fun _ _ _ _ hParts hState =>
      ih _ _ _ _ _ (hf.append hParts) hState
  | node rule inner next ihInner ih =>
    intro σ f g s t hf hs
    exact (ihInner _ _ _ _ _ (.start hs) hs).andThen fun _ _ _ _ hParts hState =>
      ih _ _ _ _ _ (hf.push (.node rule hParts)) hState
  | close rule next ih => exact fun σ f g s t hf hs => ih _ _ _ _ _ (hf.close rule) hs
  | again goal => exact fun σ f g s t hf hs => hCall _ _ _ _ _ _ hf hs
  | progress goal stuck next ihStuck ih =>
    intro σ f g s t hf hs
    refine (hCall _ _ _ _ _ _ (.start hs) hs).andThen fun _ _ _ _ hParts hState => ?_
    rw [hState.stream.pos, hs.stream.pos, hs.findings.length]
    split
    · exact ihStuck _ _ _ _ _ hf ⟨hState.stream, hState.findings.truncate _⟩
    · exact ih _ _ _ _ _ (hf.append hParts) hState
  | look choose ih =>
    intro σ f g s t hf hs
    unfold Production.exec
    rw [hs.window]
    exact ih _ _ _ _ _ _ hf hs
  | spell choose ih =>
    intro σ f g s t hf hs
    unfold Production.exec
    rw [hs.spelt]
    exact ih _ _ _ _ _ _ hf hs
  | scan decision test yes no ihYes ihNo =>
    intro σ f g s t hf hs
    unfold Production.exec
    split
    · exact .bailed (hs.bail _) hs
    · exact ihNo _ _ _ _ _ hf hs
    · rw [hs.kindsAhead]
      split
      · exact ihYes _ _ _ _ _ hf hs
      · exact ihNo _ _ _ _ _ hf hs
  | trial decision attempt follow yes no ihAttempt ihYes ihNo =>
    intro σ f g s t hf hs
    unfold Production.exec
    split
    · exact .bailed (hs.bail _) hs
    · have hAttempt := ihAttempt { σ with trying := true } _ _ _ _ (.start hs) hs
      revert hAttempt
      generalize attempt.exec call { σ with trying := true } (.start s) s = o
      generalize attempt.exec call { σ with trying := true } (.start t) t = p
      intro hAttempt
      cases hAttempt with
      | unfinished => exact .unfinished
      | bailed _ _ => exact ihNo _ _ _ _ _ hf hs
      | parsed _ hState =>
        dsimp only
        rw [hState.kind]
        split
        · exact ihYes _ _ _ _ _ hf hs
        · exact ihNo _ _ _ _ _ hf hs
  | single yes no ihYes ihNo =>
    intro σ f g s t hf hs
    unfold Production.exec
    rw [hf.parts.length_eq]
    split
    · exact ihYes _ _ _ _ _ hf hs
    · exact ihNo _ _ _ _ _ hf hs
  | troubled yes no ihYes ihNo =>
    intro σ f g s t hf hs
    unfold Production.exec
    rw [hf.mark, hs.findings.length]
    split
    · exact ihYes _ _ _ _ _ hf hs
    · exact ihNo _ _ _ _ _ hf hs

theorem run_like (steps : Nat) : ∀ σ goal f g s t, Frame.Like v f g → ParserState.Like v s t →
    (run steps σ goal f s).Like v (run steps σ goal g t) := by
  induction steps with
  | zero => exact fun σ goal f g s t hf hs => .unfinished
  | succ steps ih => exact fun σ goal => exec_like ih goal.production σ

theorem parseGoal_like (σ : Setting) (goal : Goal) {s t : ParserState} (h : s.Like v t) :
    (parseGoal σ goal s).Like v (parseGoal σ goal t) := by
  have hEnough : enough s = enough t := by rw [enough, enough, h.stream.rest.length_eq]
  rw [parseGoal, parseGoal, hEnough]
  exact run_like _ _ _ _ _ _ _ (.start h) h

/-! ## Parsers -/

/-- Parsers that stand at the same place of streams that are alike. -/
structure Parser.Like (v : View) (p q : Parser) : Prop where
  stream : p.stream.Like v q.stream
  prediction : p.prediction = q.prediction
  findings : p.findings.Like v q.findings

/-- What a parse comes to, if two parses are alike: trees or bails that are alike. -/
inductive Parser.LikeResult (v : View) : Except Bail Tree → Except Bail Tree → Prop where
  | ok {t u : Tree} (h : t.Like v u) : LikeResult v (.ok t) (.ok u)
  | error {bail other : Bail} (h : bail.Like v other) : LikeResult v (.error bail) (.error other)

namespace Parser.Like

variable {p q : Parser}

theorem new {s t : TokenStream} (h : s.Like v t) (prediction : Prediction) :
    (Parser.new s prediction).Like v (.new t prediction) :=
  ⟨h, rfl, .empty⟩

theorem reset (h : p.Like v q) (prediction : Prediction) :
    (p.reset prediction).Like v (q.reset prediction) :=
  .new (h.stream.seek 0) prediction

theorem parse (h : p.Like v q) (entry : Entry) :
    LikeResult v (p.parse entry).1 (q.parse entry).1 ∧
      (p.parse entry).2.Like v (q.parse entry).2 := by
  have hState : ParserState.Like v ⟨p.stream, p.findings⟩ ⟨q.stream, q.findings⟩ :=
    ⟨h.stream, h.findings⟩
  have hRun := parseGoal_like ⟨p.prediction, false⟩ entry.goal hState
  unfold Parser.parse
  dsimp only
  rw [← h.prediction]
  revert hRun
  generalize parseGoal ⟨p.prediction, false⟩ entry.goal ⟨p.stream, p.findings⟩ = o
  generalize parseGoal ⟨p.prediction, false⟩ entry.goal ⟨q.stream, q.findings⟩ = o'
  intro hRun
  cases hRun with
  | parsed hParts hEnd =>
    exact ⟨.ok (.node _ hParts), ⟨hEnd.stream, rfl, hEnd.findings⟩⟩
  | bailed hBail hEnd => exact ⟨.error hBail, ⟨hEnd.stream, rfl, hEnd.findings⟩⟩
  | unfinished => exact ⟨.error (hState.bail _), h⟩

end Parser.Like

/-- The tokens before the end of the input, of streams that are alike. -/
theorem TokenStream.Like.passed {s t : TokenStream} (h : s.Like v t) :
    List.Forall₂ (Token.Like v) (s.body.takeWhile (!·.isEnd)) (t.body.takeWhile (!·.isEnd)) := by
  have hBody := h.body
  generalize s.body = ts, t.body = us at hBody
  induction hBody with
  | nil => exact .nil
  | cons hToken _ ih =>
    simp only [List.takeWhile_cons, hToken.isEnd]
    split
    · exact .cons hToken ih
    · exact .nil

theorem Parser.skippedTree_like (entry : Entry) {s t : TokenStream} (h : s.Like v t) :
    (skippedTree entry s).Like v (skippedTree entry t) := by
  have hPassed := h.passed
  unfold skippedTree
  refine .node _ (List.rel_append ?_ (.cons (.leaf (.matched ?_)) .nil))
  · exact List.rel_map (fun _ _ h => .leaf (.skipped h)) hPassed
  · rw [hPassed.length_eq]
    generalize (t.body.takeWhile _).length = n
    have hBody := h.body
    generalize s.body = ts, t.body = us at hBody
    induction hBody generalizing n with
    | nil => exact h.last
    | cons hToken _ ih =>
      cases n with
      | zero => exact hToken
      | succ n => exact ih n

theorem Parser.Like.abandon {p q : Parser} (h : p.Like v q) {bail other : Bail}
    (hBail : bail.Like v other) : (p.abandon bail).Like v (q.abandon other) := by
  unfold Parser.abandon
  dsimp only
  rw [h.stream.passed.length_eq]
  exact ⟨h.stream.seek _, h.prediction, Log.Like.empty.push hBail.diagnostic⟩

theorem Parser.Like.parseOrSkip {p q : Parser} (h : p.Like v q) (entry : Entry) :
    (p.parseOrSkip entry).1.Like v (q.parseOrSkip entry).1 ∧
      (p.parseOrSkip entry).2.Like v (q.parseOrSkip entry).2 := by
  obtain ⟨hResult, hParser⟩ := h.parse entry
  unfold Parser.parseOrSkip
  revert hResult hParser
  generalize p.parse entry = x
  generalize q.parse entry = y
  obtain ⟨x, p'⟩ := x
  obtain ⟨y, q'⟩ := y
  intro hResult hParser
  cases hResult with
  | ok hTree => exact ⟨hTree, hParser⟩
  | error hBail => exact ⟨skippedTree_like entry hParser.stream, hParser.abandon hBail⟩

/-- Streams that are alike are parsed to trees that are alike, with findings that are alike, by the
same prediction. -/
theorem parseStream_like {s t : TokenStream} (h : s.Like v t) (options : ParseOptions) :
    (parseStream s options).1.Like v (parseStream t options).1 ∧
      (parseStream s options).2.1.Like v (parseStream t options).2.1 ∧
      (parseStream s options).2.2 = (parseStream t options).2.2 := by
  obtain ⟨entry, strategy⟩ := options
  have hSkipping (prediction : Prediction) :=
    (Parser.Like.new h prediction).parseOrSkip entry
  cases strategy with
  | generalOnly => exact ⟨(hSkipping .general).1, (hSkipping .general).2.findings, rfl⟩
  | fastOnly => exact ⟨(hSkipping .fast).1, (hSkipping .fast).2.findings, rfl⟩
  | adaptive =>
    obtain ⟨hResult, hParser⟩ := (Parser.Like.new h .fast).parse entry
    simp only [parseStream]
    revert hResult hParser
    generalize (Parser.new s .fast).parse entry = x
    generalize (Parser.new t .fast).parse entry = y
    obtain ⟨x, p⟩ := x
    obtain ⟨y, q⟩ := y
    intro hResult hParser
    cases hResult with
    | ok hTree => exact ⟨hTree, hParser.findings, rfl⟩
    | error hBail =>
      have hAgain := (hParser.reset .general).parseOrSkip entry
      exact ⟨hAgain.1, hAgain.2.findings, rfl⟩

end CfScript
