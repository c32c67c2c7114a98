import CfScript.Proofs.Agreement
import CfScript.Proofs.Careful

/-!
# How far fast prediction looks ahead

A parse with fast prediction sees three tokens at a time, and it never goes back. So where it bails
depends on nothing that stands more than two tokens further on: on any other stream that shows the
same tokens up to there it bails at the same place, at the same token and for the same reason.

Two runs are followed side by side. They stand at the same place, and as long as that place is not
behind the one where the first run ends, each decision sees the same tokens in both. The actions that
look at more — a scan of all words, an attempt, the skipping of a broken statement — are not carried
out with fast prediction.

## Main results

* `exec_pos_le`, `run_pos_le`: no run goes back, however it ends;
* `exec_sameTo`, `run_sameTo`: two runs on streams that show the same tokens for long enough;
* `parse_fast_bailed`: where fast prediction bails on two such streams.
-/

namespace CfScript

/-! ## No run goes back -/

/-- Whether a run that ends, ends no earlier than at the place `n`. -/
def Outcome.ReachedFrom (n : Nat) : Outcome → Prop
  | .parsed _ s => n ≤ s.stream.pos
  | .bailed _ s => n ≤ s.stream.pos
  | .unfinished => True

theorem Outcome.ReachedFrom.of_le {m n : Nat} {o : Outcome} (h : o.ReachedFrom n) (hLe : m ≤ n) :
    o.ReachedFrom m := by
  cases o with
  | parsed parts s => exact Nat.le_trans hLe h
  | bailed bail s => exact Nat.le_trans hLe h
  | unfinished => trivial

theorem TokenStream.pos_le_advanceBy (s : TokenStream) (n : Nat) :
    s.pos ≤ (s.advanceBy n).pos := by
  induction n generalizing s with
  | zero => exact Nat.le_refl _
  | succ n ih => exact Nat.le_trans (ParserState.pos_le_advance ⟨s, .empty⟩) (ih s.advance)

/-- A production never goes back if nothing that it calls does. -/
theorem exec_pos_le {call : Setting → Goal → Frame → ParserState → Outcome}
    (hCall : ∀ σ goal f s, (call σ goal f s).ReachedFrom s.stream.pos) (p : Production) :
    ∀ σ f s, (p.exec call σ f s).ReachedFrom s.stream.pos := by
  induction p with
  | done => exact fun σ f s => Nat.le_refl _
  | take next ih => exact fun σ f s => (ih σ _ s.advance).of_le s.pos_le_advance
  | expect kind next ih =>
    intro σ f s
    unfold Production.exec
    split
    · exact (ih σ _ s.advance).of_le s.pos_le_advance
    · split
      · exact Nat.le_refl _
      · exact ih σ _ (s.report _)
  | word next ih =>
    intro σ f s
    unfold Production.exec
    split
    · exact (ih σ _ s.advance).of_le s.pos_le_advance
    · split
      · exact Nat.le_refl _
      · exact ih σ _ (s.report _)
  | assume fault next ih =>
    intro σ f s
    unfold Production.exec
    split
    · exact Nat.le_refl _
    · exact ih σ _ (s.report fault)
  | reject fault next ih =>
    intro σ f s
    unfold Production.exec
    split
    · exact Nat.le_refl _
    · exact (ih σ _ (s.report fault).advance).of_le (s.report fault).pos_le_advance
  | skip next ih =>
    intro σ f s
    unfold Production.exec
    split
    · exact Nat.le_refl _
    · exact (ih σ _ s.advance).of_le s.pos_le_advance
  | recover next ih =>
    exact fun σ f s => (ih σ _ { s with stream := s.stream.advanceBy _ }).of_le
      (s.stream.pos_le_advanceBy _)
  | parse goal next ih =>
    intro σ f s
    have hGoal := hCall σ goal (.start s) s
    unfold Production.exec
    split
    next parts s' hParsed =>
      rw [hParsed] at hGoal
      exact (ih σ _ s').of_le hGoal
    next => exact hGoal
  | node rule inner next ihInner ih =>
    intro σ f s
    have hInner := ihInner σ (.start s) s
    unfold Production.exec
    split
    next parts s' hParsed =>
      rw [hParsed] at hInner
      exact (ih σ _ s').of_le hInner
    next => exact hInner
  | close rule next ih => exact fun σ f s => ih σ _ s
  | again goal => exact fun σ f s => hCall σ goal f s
  | progress goal stuck next ihStuck ih =>
    intro σ f s
    have hGoal := hCall σ goal (.start s) s
    unfold Production.exec
    split
    next parts s' hParsed =>
      rw [hParsed] at hGoal
      split
      · exact (ihStuck σ f { s' with findings := _ }).of_le hGoal
      · exact (ih σ _ s').of_le hGoal
    next => exact hGoal
  | look choose ih => exact fun σ f s => ih s.window σ f s
  | spell choose ih => exact fun σ f s => ih (Text.fold s.current.lexeme) σ f s
  | scan decision test yes no ihYes ihNo =>
    intro σ f s
    unfold Production.exec
    split
    · exact Nat.le_refl _
    · exact ihNo σ f s
    · split
      · exact ihYes σ f s
      · exact ihNo σ f s
  | trial decision attempt follow yes no ihAttempt ihYes ihNo =>
    intro σ f s
    unfold Production.exec
    split
    · exact Nat.le_refl _
    · split
      · trivial
      · exact ihNo σ f s
      · split
        · exact ihYes σ f s
        · exact ihNo σ f s
  | single yes no ihYes ihNo =>
    intro σ f s
    unfold Production.exec
    split
    · exact ihYes σ f s
    · exact ihNo σ f s
  | troubled yes no ihYes ihNo =>
    intro σ f s
    unfold Production.exec
    split
    · exact ihYes σ f s
    · exact ihNo σ f s

theorem run_pos_le (steps : Nat) :
    ∀ σ goal f s, (run steps σ goal f s).ReachedFrom s.stream.pos := by
  induction steps with
  | zero => exact fun σ goal f s => trivial
  | succ steps ih => exact fun σ goal f s => exec_pos_le ih goal.production σ f s

/-! ## Streams that show the same tokens -/

namespace TokenStream

/-- The token at a place of a stream; past the end this is the last one. -/
def tokenAt (s : TokenStream) (i : Nat) : Token := s.body[i]?.getD s.last

theorem peek_eq_tokenAt (s : TokenStream) (n : Nat) : s.peek n = s.tokenAt (s.pos + n) := by
  have hLength : s.before.reverse.length ≤ s.pos + n := by simp [pos]
  have hPlace : s.pos + n - s.before.reverse.length = n := by simp [pos]
  rw [peek, tokenAt, body, List.getElem?_append_right hLength, hPlace]

@[simp] theorem tokenAt_advance (s : TokenStream) (i : Nat) : s.advance.tokenAt i = s.tokenAt i := by
  simp [tokenAt]

/-- A step forward changes the place as the current token says. -/
theorem pos_advance (s : TokenStream) :
    s.advance.pos = if s.current.isEnd then s.pos else s.pos + 1 := by
  split
  next hEnd => rw [advance_of_atEnd hEnd]
  next hOpen => exact (passes_advance (Bool.eq_false_iff.2 hOpen)).pos_eq

end TokenStream

/-- States with the same findings, at the same place of two streams that show the same tokens up to
two places behind the place `n`. -/
structure ParserState.SameTo (n : Nat) (s t : ParserState) : Prop where
  pos : s.stream.pos = t.stream.pos
  shown : ∀ i ≤ n + 2, s.stream.tokenAt i = t.stream.tokenAt i
  findings : s.findings = t.findings

namespace ParserState.SameTo

variable {n : Nat} {s t : ParserState}

theorem peek (h : s.SameTo n t) (hPos : s.stream.pos ≤ n) {k : Nat} (hK : k ≤ 2) :
    s.stream.peek k = t.stream.peek k := by
  rw [TokenStream.peek_eq_tokenAt, TokenStream.peek_eq_tokenAt, ← h.pos]
  exact h.shown _ (by omega)

theorem current (h : s.SameTo n t) (hPos : s.stream.pos ≤ n) : s.current = t.current := by
  have hPeek := h.peek hPos (Nat.zero_le 2)
  rwa [TokenStream.peek_zero, TokenStream.peek_zero] at hPeek

theorem window (h : s.SameTo n t) (hPos : s.stream.pos ≤ n) : s.window = t.window := by
  rw [ParserState.window, ParserState.window, h.peek hPos (Nat.zero_le 2),
    h.peek hPos (Nat.le_succ 1), h.peek hPos (Nat.le_refl 2)]

theorem advance (h : s.SameTo n t) (hPos : s.stream.pos ≤ n) : s.advance.SameTo n t.advance where
  pos := by
    have hCurrent : s.stream.current = t.stream.current := h.current hPos
    simp only [ParserState.advance, TokenStream.pos_advance, hCurrent, h.pos]
  shown i hi := by simpa [ParserState.advance] using h.shown i hi
  findings := h.findings

theorem truncate (h : s.SameTo n t) (count : Nat) :
    ParserState.SameTo n { s with findings := s.findings.truncate count }
      { t with findings := t.findings.truncate count } :=
  ⟨h.pos, h.shown, congrArg (·.truncate count) h.findings⟩

theorem bail (h : s.SameTo n t) (hPos : s.stream.pos ≤ n) (reason : BailReason) :
    s.bail reason = t.bail reason := by
  rw [ParserState.bail, ParserState.bail, h.current hPos]

theorem start (h : s.SameTo n t) : Frame.start s = .start t := by
  rw [Frame.start, Frame.start, h.findings]

end ParserState.SameTo

namespace Outcome

/-- Whether a run ends no later than at the place `n`. -/
def EndsBy (n : Nat) : Outcome → Prop
  | .parsed _ s => s.stream.pos ≤ n
  | .bailed _ s => s.stream.pos ≤ n
  | .unfinished => False

/-- Outcomes that are the same, up to what the streams show later. -/
inductive SameTo (n : Nat) : Outcome → Outcome → Prop where
  | parsed {parts : List Tree} {s t : ParserState} (h : s.SameTo n t) :
      SameTo n (.parsed parts s) (.parsed parts t)
  | bailed {bail : Bail} {s t : ParserState} (h : s.SameTo n t) :
      SameTo n (.bailed bail s) (.bailed bail t)

/-- A run that ends by a place begins by it. -/
theorem EndsBy.pos_le {n : Nat} {o : Outcome} {s : ParserState} (h : o.EndsBy n)
    (hFrom : o.ReachedFrom s.stream.pos) : s.stream.pos ≤ n := by
  cases o with
  | parsed parts s' => exact Nat.le_trans hFrom h
  | bailed bail s' => exact Nat.le_trans hFrom h
  | unfinished => exact h.elim

/-- Two runs that go on from what two runs give come to the same if the first ones do. -/
theorem SameTo.andThen {n : Nat} {o o' : Outcome} {next next' : List Tree → ParserState → Outcome}
    (h : o.SameTo n o')
    (hNext : ∀ parts s t, o = .parsed parts s → s.SameTo n t →
      (next parts s).SameTo n (next' parts t)) :
    (o.andThen next).SameTo n (o'.andThen next') := by
  cases h with
  | parsed hState => exact hNext _ _ _ rfl hState
  | bailed hState => exact .bailed hState

/-- A run that others follow ends by a place if the last of them does. -/
theorem EndsBy.of_andThen {n : Nat} {o : Outcome} {next : List Tree → ParserState → Outcome}
    (h : (o.andThen next).EndsBy n)
    (hNext : ∀ parts s, o = .parsed parts s → (next parts s).ReachedFrom s.stream.pos) :
    o.EndsBy n := by
  cases o with
  | parsed parts s => exact EndsBy.pos_le (s := s) h (hNext parts s rfl)
  | bailed bail s => exact h
  | unfinished => exact h

end Outcome

theorem Log.length_truncate_le (log : Log) (count : Nat) :
    (log.truncate count).length ≤ log.length :=
  List.length_take_le' count log.entries

/-! ## Two runs side by side -/

/-- Whether runs of goals with fast prediction, where nothing was found since the goal began, come to
the same on streams that show the same tokens to the place where the first of them ends. -/
def CallsSameTo (n steps : Nat) : Prop :=
  ∀ goal f s t, s.SameTo n t → s.findings.length ≤ f.mark → (run steps .fast goal f s).EndsBy n →
    (run steps .fast goal f s).SameTo n (run steps .fast goal f t)

theorem exec_parse (call : Setting → Goal → Frame → ParserState → Outcome) (goal : Goal)
    (next : Production) (σ : Setting) (f : Frame) (s : ParserState) :
    (Production.parse goal next).exec call σ f s =
      (call σ goal (.start s) s).andThen fun parts => next.exec call σ (f.append parts) := rfl

theorem exec_node (call : Setting → Goal → Frame → ParserState → Outcome) (rule : Rule)
    (inner next : Production) (σ : Setting) (f : Frame) (s : ParserState) :
    (Production.node rule inner next).exec call σ f s =
      (inner.exec call σ (.start s) s).andThen fun parts =>
        next.exec call σ (f.push (.node rule parts)) := rfl

theorem exec_progress (call : Setting → Goal → Frame → ParserState → Outcome) (goal : Goal)
    (stuck next : Production) (σ : Setting) (f : Frame) (s : ParserState) :
    (Production.progress goal stuck next).exec call σ f s =
      (call σ goal (.start s) s).andThen fun parts s' =>
        if s'.stream.pos = s.stream.pos then
          stuck.exec call σ f { s' with findings := s'.findings.truncate s.findings.length }
        else next.exec call σ (f.append parts) s' := rfl

/-- A careful production comes to the same in two runs if all goals that it calls do. -/
theorem exec_sameTo {n steps : Nat} (hCall : CallsSameTo n steps) (p : Production) :
    ∀ f s t, p.Careful false → s.SameTo n t → s.findings.length ≤ f.mark →
      (p.exec (run steps) .fast f s).EndsBy n →
        (p.exec (run steps) .fast f s).SameTo n (p.exec (run steps) .fast f t) := by
  have hFrom : ∀ (p : Production) (f : Frame) (s : ParserState),
      (p.exec (run steps) .fast f s).ReachedFrom s.stream.pos :=
    fun p f s => exec_pos_le (run_pos_le steps) p .fast f s
  -- Runs with fast prediction find nothing, so nothing was found when the next action begins.
  have hQuiet : ∀ {p : Production} {f : Frame} {s s' : ParserState} {parts : List Tree},
      p.exec (run steps) .fast f s = .parsed parts s' → s'.findings = s.findings := by
    intro p f s s' parts hParsed
    obtain ⟨ls, hAdds⟩ := exec_adds (run_adds steps) p _ _ _ _ _ hParsed
    exact hAdds.quiet rfl
  induction p with
  | done => exact fun f s t _ h _ _ => .parsed h
  | take next ih =>
    intro f s t hCareful h hMark hEnds
    have hPos := hEnds.pos_le (hFrom (.take next) f s)
    rw [Production.exec, Production.exec, ← h.current hPos]
    exact ih _ _ _ hCareful (h.advance hPos) hMark hEnds
  | expect kind next ih =>
    intro f s t hCareful h hMark hEnds
    have hPos := hEnds.pos_le (hFrom (.expect kind next) f s)
    rw [Production.exec] at hEnds
    rw [Production.exec, Production.exec, ← h.current hPos, ← h.bail hPos]
    split at hEnds
    next hKind =>
      rw [if_pos hKind, if_pos hKind]
      exact ih _ _ _ hCareful (h.advance hPos) hMark hEnds
    next hKind =>
      rw [if_neg hKind, if_neg hKind]
      exact .bailed h
  | word next ih =>
    intro f s t hCareful h hMark hEnds
    have hPos := hEnds.pos_le (hFrom (.word next) f s)
    rw [Production.exec] at hEnds
    rw [Production.exec, Production.exec, ← h.current hPos, ← h.bail hPos]
    split at hEnds
    next hWord =>
      rw [if_pos hWord, if_pos hWord]
      exact ih _ _ _ hCareful (h.advance hPos) hMark hEnds
    next hWord =>
      rw [if_neg hWord, if_neg hWord]
      exact .bailed h
  | assume fault next ih =>
    intro f s t hCareful h hMark hEnds
    have hBail : (Production.assume fault next).exec (run steps) .fast f t =
        .bailed (t.bail (.fault fault)) t := rfl
    rw [hBail, ← h.bail hEnds]
    exact .bailed h
  | reject fault next ih =>
    intro f s t hCareful h hMark hEnds
    have hBail : (Production.reject fault next).exec (run steps) .fast f t =
        .bailed (t.bail (.fault fault)) t := rfl
    rw [hBail, ← h.bail hEnds]
    exact .bailed h
  | skip next ih =>
    intro f s t hCareful h hMark hEnds
    have hBail : (Production.skip next).exec (run steps) .fast f t =
        .bailed (t.bail .invalidToken) t := rfl
    rw [hBail, ← h.bail hEnds]
    exact .bailed h
  | recover next ih => exact fun f s t hCareful => by cases hCareful.1
  | parse goal next ih =>
    intro f s t hCareful h hMark hEnds
    rw [exec_parse] at hEnds ⊢
    rw [exec_parse, ← h.start]
    have hGoal := hCall goal (.start s) s t h (Nat.le_refl _)
      (hEnds.of_andThen fun parts s' _ => hFrom next _ s')
    refine hGoal.andThen fun parts s' t' hParsed h' => ?_
    rw [hParsed] at hEnds
    obtain ⟨ls, hAdds⟩ := run_adds steps _ _ _ _ _ _ hParsed
    exact ih _ _ _ hCareful h' (by rw [hAdds.quiet rfl]; exact hMark) hEnds
  | node rule inner next ihInner ih =>
    intro f s t hCareful h hMark hEnds
    rw [exec_node] at hEnds ⊢
    rw [exec_node, ← h.start]
    have hInner := ihInner (.start s) s t hCareful.1 h (Nat.le_refl _)
      (hEnds.of_andThen fun parts s' _ => hFrom next _ s')
    refine hInner.andThen fun parts s' t' hParsed h' => ?_
    rw [hParsed] at hEnds
    exact ih _ _ _ hCareful.2 h' (by rw [hQuiet hParsed]; exact hMark) hEnds
  | close rule next ih => exact fun f s t hCareful h hMark hEnds => ih _ s t hCareful h hMark hEnds
  | again goal => exact fun f s t _ h hMark hEnds => hCall goal f s t h hMark hEnds
  | progress goal stuck next ihStuck ih =>
    intro f s t hCareful h hMark hEnds
    rw [exec_progress] at hEnds ⊢
    rw [exec_progress, ← h.start, ← h.pos, ← h.findings]
    have hGoal := hCall goal (.start s) s t h (Nat.le_refl _) <|
      hEnds.of_andThen fun parts s' _ => by
        split
        · exact hFrom stuck f { s' with findings := _ }
        · exact hFrom next _ s'
    refine hGoal.andThen fun parts s' t' hParsed h' => ?_
    rw [hParsed] at hEnds
    obtain ⟨ls, hAdds⟩ := run_adds steps _ _ _ _ _ _ hParsed
    have hMark' : s'.findings.length ≤ f.mark := by rw [hAdds.quiet rfl]; exact hMark
    rw [Outcome.andThen] at hEnds
    rw [← h'.pos]
    split at hEnds
    next hPos =>
      rw [if_pos hPos, if_pos hPos]
      exact ihStuck _ _ _ hCareful.1 (h'.truncate _)
        (Nat.le_trans (Log.length_truncate_le _ _) hMark') hEnds
    next hPos =>
      rw [if_neg hPos, if_neg hPos]
      exact ih _ _ _ hCareful.2 h' hMark' hEnds
  | look choose ih =>
    intro f s t hCareful h hMark hEnds
    have hPos := hEnds.pos_le (hFrom (.look choose) f s)
    rw [Production.exec, Production.exec, ← h.window hPos]
    exact ih _ f s t (hCareful _) h hMark hEnds
  | spell choose ih =>
    intro f s t hCareful h hMark hEnds
    have hPos := hEnds.pos_le (hFrom (.spell choose) f s)
    rw [Production.exec, Production.exec, ← h.current hPos]
    exact ih _ f s t (hCareful _) h hMark hEnds
  | scan decision test yes no ihYes ihNo =>
    intro f s t hCareful h hMark hEnds
    cases decision with
    | none => exact ihNo f s t hCareful.2 h hMark hEnds
    | some decision =>
      have hBail : (Production.scan (some decision) test yes no).exec (run steps) .fast f t =
          .bailed (t.bail (.ambiguous decision)) t := rfl
      rw [hBail, ← h.bail hEnds]
      exact .bailed h
  | trial decision attempt follow yes no ihAttempt ihYes ihNo =>
    intro f s t hCareful h hMark hEnds
    have hBail : (Production.trial decision attempt follow yes no).exec (run steps) .fast f t =
        .bailed (t.bail (.ambiguous decision)) t := rfl
    rw [hBail, ← h.bail hEnds]
    exact .bailed h
  | single yes no ihYes ihNo =>
    intro f s t hCareful h hMark hEnds
    unfold Production.exec at hEnds ⊢
    split at hEnds
    next hSingle =>
      rw [if_pos hSingle, if_pos hSingle]
      exact ihYes f s t hCareful.1 h hMark hEnds
    next hSingle =>
      rw [if_neg hSingle, if_neg hSingle]
      exact ihNo f s t hCareful.2 h hMark hEnds
  | troubled yes no ihYes ihNo =>
    intro f s t hCareful h hMark hEnds
    have hClean : ∀ u : ParserState, u.findings = s.findings → ¬ f.mark < u.findings.length :=
      fun u hSame => hSame ▸ Nat.not_lt.2 hMark
    rw [Production.exec, if_neg (hClean s rfl)] at hEnds ⊢
    rw [Production.exec, if_neg (hClean t h.findings.symm)]
    exact ihNo f s t hCareful.2 h hMark hEnds

theorem run_sameTo (n steps : Nat) : CallsSameTo n steps := by
  induction steps with
  | zero => exact fun goal f s t h hMark hEnds => hEnds.elim
  | succ steps ih =>
    exact fun goal f s t => exec_sameTo ih goal.production f s t (Grammar.careful_production goal)

/-! ## Parses -/

theorem Parser.parse_eq_error_iff {p q : Parser} {entry : Entry} {bail : Bail} :
    p.parse entry = (.error bail, q) ↔
      q.prediction = p.prediction ∧
        parseGoal ⟨p.prediction, false⟩ entry.goal ⟨p.stream, p.findings⟩ =
          .bailed bail ⟨q.stream, q.findings⟩ := by
  obtain ⟨-, hEnds⟩ := run_eq_parseGoal (s := ⟨p.stream, p.findings⟩) ⟨p.prediction, false⟩ entry.goal
    (entry.not_needsBlame · |>.elim) (Nat.le_refl _)
  obtain ⟨stream, prediction, findings⟩ := q
  simp only [Parser.parse]
  split
  next parts s' hParsed => simp [hParsed]
  next bail' s' hBailed =>
    obtain ⟨stream', findings'⟩ := s'
    rw [hBailed]
    simp only [Prod.mk.injEq, Except.error.injEq, Parser.mk.injEq, Outcome.bailed.injEq,
      ParserState.mk.injEq]
    tauto
  next hUnfinished => exact absurd hUnfinished hEnds

/-- Where fast prediction bails on a stream, it bails on every stream that shows the same tokens up
to two places further on: at the same place, at the same token and for the same reason. -/
theorem parse_fast_bailed {entry : Entry} {stream other : TokenStream} {bail : Bail} {p : Parser}
    (hPos : stream.pos = other.pos)
    (h : (Parser.new stream .fast).parse entry = (.error bail, p))
    (hShown : ∀ i ≤ p.stream.pos + 2, stream.tokenAt i = other.tokenAt i) :
    ∃ q, (Parser.new other .fast).parse entry = (.error bail, q) ∧
      q.stream.pos = p.stream.pos := by
  obtain ⟨-, hBailed⟩ := Parser.parse_eq_error_iff.1 h
  set s : ParserState := ⟨stream, .empty⟩ with hS
  set t : ParserState := ⟨other, .empty⟩ with hT
  set steps := max (enough s) (enough t)
  have hFirst : run steps .fast entry.goal (.start s) s =
      .bailed bail ⟨p.stream, p.findings⟩ :=
    (run_eq_parseGoal .fast entry.goal (entry.not_needsBlame · |>.elim) (Nat.le_max_left _ _)).1.trans
      hBailed
  have hSecond : run steps .fast entry.goal (.start t) t = parseGoal .fast entry.goal t :=
    (run_eq_parseGoal .fast entry.goal (entry.not_needsBlame · |>.elim) (Nat.le_max_right _ _)).1
  have hSame : s.SameTo p.stream.pos t := ⟨hPos, hShown, rfl⟩
  have hRuns := run_sameTo p.stream.pos steps entry.goal (.start s) s t hSame (Nat.le_refl _)
    (by rw [hFirst]; exact Nat.le_refl _)
  rw [hFirst, hSame.start, hSecond] at hRuns
  generalize hOther : parseGoal .fast entry.goal t = o at hRuns
  cases hRuns with
  | @bailed _ _ t' hState =>
    exact ⟨⟨t'.stream, .fast, t'.findings⟩, Parser.parse_eq_error_iff.2 ⟨rfl, hOther⟩,
      hState.pos.symm⟩

/-- The tokens of `for (a.b`, with which a loop over a collection begins, or one that counts. -/
def memberLoop : List Token := [
  ⟨.keyword .for_, "for", ⟨.ofNat 0, .ofNat 3, by decide⟩, 1⟩,
  ⟨.symbol .lParen, "(", ⟨.ofNat 4, .ofNat 5, by decide⟩, 1⟩,
  ⟨.identifier, "a", ⟨.ofNat 5, .ofNat 6, by decide⟩, 1⟩,
  ⟨.symbol .dot, ".", ⟨.ofNat 6, .ofNat 7, by decide⟩, 1⟩,
  ⟨.identifier, "b", ⟨.ofNat 7, .ofNat 8, by decide⟩, 1⟩]

/-- Fast prediction bails at the target of a loop whether `in` follows it or a semicolon. -/
theorem parse_fast_bailed_memberLoop :
    let inLoop : TokenStream :=
      ⟨[], memberLoop ++ [⟨.keyword .in_, "in", ⟨.ofNat 9, .ofNat 11, by decide⟩, 1⟩],
        .endAt 11 1, rfl⟩
    let clauseLoop : TokenStream :=
      ⟨[], memberLoop ++ [⟨.symbol .semicolon, ";", ⟨.ofNat 8, .ofNat 9, by decide⟩, 1⟩],
        .endAt 9 1, rfl⟩
    ∃ p, inLoop.pos = clauseLoop.pos ∧
      (Parser.new inLoop .fast).parse .script =
        (.error ⟨inLoop.tokenAt 2, .ambiguous .loopTarget⟩, p) ∧
      (∀ i ≤ p.stream.pos + 2, inLoop.tokenAt i = clauseLoop.tokenAt i) ∧
      inLoop.tokenAt (p.stream.pos + 3) ≠ clauseLoop.tokenAt (p.stream.pos + 3) ∧
      ∃ q, (Parser.new clauseLoop .fast).parse .script =
          (.error ⟨inLoop.tokenAt 2, .ambiguous .loopTarget⟩, q) ∧
        q.stream.pos = p.stream.pos := by
  intro inLoop clauseLoop
  have hParse : (Parser.new inLoop .fast).parse .script =
      (.error ⟨inLoop.tokenAt 2, .ambiguous .loopTarget⟩, ⟨inLoop.seek 2, .fast, .empty⟩) := rfl
  have hShown : ∀ i ≤ (inLoop.seek 2).pos + 2, inLoop.tokenAt i = clauseLoop.tokenAt i := by decide
  exact ⟨_, rfl, hParse, hShown, by decide,
    @parse_fast_bailed .script inLoop clauseLoop _ _ rfl hParse hShown⟩

end CfScript
