import CfScript.Proofs.FastLookahead
import CfScript.Proofs.Machine
import CfScript.Proofs.Seam

/-!
# Attempts tell the truth

Whether a loop is over a collection may only be seen by trying: the target is parsed, one looks whether
`in` follows, and all is taken back. Taking back means that the machine is what it was, in every
register, whether the attempt succeeded or a fault ended it, and however deep in other attempts it was
made.

What is tried and what is done afterwards run under different rules: a fault ends the attempt, but the
parse that follows reports it and goes on. An attempt that succeeds came to no fault, and where there
is no fault both do the same. So behind an attempt that found `in` the parse takes the same tokens,
finds nothing, and stands in front of `in`.

## Main results

* `exec_of_trying`, `run_of_trying`: what succeeds where a fault ends the run succeeds elsewhere;
* `applied_moves`: an operand that is parsed without a fault takes a token;
* `Machine.isForIn_faithful`: the decision about a loop changes nothing and is right.
-/

namespace CfScript

open CfScript.Tree (hasErrorsAny leavesAll)

/-! ## Attempts that succeed -/

/-- A production that gives parts where a fault ends the run gives them elsewhere, if all goals do that
it calls. -/
theorem exec_of_trying {call : Setting → Goal → Frame → ParserState → Outcome} (trying : Bool)
    (hCall : ∀ goal f s parts s', call (.general true) goal f s = .parsed parts s' →
      call (.general trying) goal f s = .parsed parts s') (p : Production) :
    ∀ f s parts s', p.exec call (.general true) f s = .parsed parts s' →
      p.exec call (.general trying) f s = .parsed parts s' := by
  induction p with
  | done => exact fun f s parts s' h => h
  | take next ih => exact fun f s parts s' h => ih _ _ _ _ h
  | expect kind next ih =>
    intro f s parts s' h
    unfold Production.exec at h ⊢
    split at h
    next hKind =>
      rw [if_pos hKind]
      exact ih _ _ _ _ h
    next => cases h
  | word next ih =>
    intro f s parts s' h
    unfold Production.exec at h ⊢
    split at h
    next hWord =>
      rw [if_pos hWord]
      exact ih _ _ _ _ h
    next => cases h
  | assume fault next ih => exact fun f s parts s' h => by cases h
  | reject fault next ih => exact fun f s parts s' h => by cases h
  | skip next ih => exact fun f s parts s' h => by cases h
  | recover next ih => exact fun f s parts s' h => ih _ _ _ _ h
  | parse goal next ih =>
    intro f s parts s' h
    unfold Production.exec at h ⊢
    split at h
    next mid s₁ hParsed =>
      rw [hCall _ _ _ _ _ hParsed]
      exact ih _ _ _ _ h
    next hNot => exact absurd h (hNot _ _)
  | node rule inner next ihInner ih =>
    intro f s parts s' h
    unfold Production.exec at h ⊢
    split at h
    next mid s₁ hParsed =>
      rw [ihInner _ _ _ _ hParsed]
      exact ih _ _ _ _ h
    next hNot => exact absurd h (hNot _ _)
  | close rule next ih => exact fun f s parts s' h => ih _ _ _ _ h
  | again goal => exact fun f s parts s' h => hCall _ _ _ _ _ h
  | progress goal stuck next ihStuck ih =>
    intro f s parts s' h
    unfold Production.exec at h ⊢
    split at h
    next mid s₁ hParsed =>
      rw [hCall _ _ _ _ _ hParsed]
      dsimp only
      split at h
      next hPos =>
        rw [if_pos hPos]
        exact ihStuck _ _ _ _ h
      next hPos =>
        rw [if_neg hPos]
        exact ih _ _ _ _ h
    next hNot => exact absurd h (hNot _ _)
  | look choose ih => exact fun f s parts s' h => ih _ _ _ _ _ h
  | spell choose ih => exact fun f s parts s' h => ih _ _ _ _ _ h
  | scan decision test yes no ihYes ihNo =>
    intro f s parts s' h
    simp only [Production.exec, Setting.prediction_general] at h ⊢
    split at h
    next hTest =>
      rw [if_pos hTest]
      exact ihYes _ _ _ _ h
    next hTest =>
      rw [if_neg hTest]
      exact ihNo _ _ _ _ h
  | trial decision attempt follow yes no ihAttempt ihYes ihNo =>
    intro f s parts s' h
    -- An attempt within the attempt runs under the same rules in both.
    simp only [Production.exec, Setting.prediction_general] at h ⊢
    split at h
    next => cases h
    next => exact ihNo _ _ _ _ h
    next s₁ hParsed =>
      split at h
      next hFollow =>
        rw [if_pos hFollow]
        exact ihYes _ _ _ _ h
      next hFollow =>
        rw [if_neg hFollow]
        exact ihNo _ _ _ _ h
  | single yes no ihYes ihNo =>
    intro f s parts s' h
    unfold Production.exec at h ⊢
    split at h
    next hSingle =>
      rw [if_pos hSingle]
      exact ihYes _ _ _ _ h
    next hSingle =>
      rw [if_neg hSingle]
      exact ihNo _ _ _ _ h
  | troubled yes no ihYes ihNo =>
    intro f s parts s' h
    unfold Production.exec at h ⊢
    split at h
    next hTrouble =>
      rw [if_pos hTrouble]
      exact ihYes _ _ _ _ h
    next hTrouble =>
      rw [if_neg hTrouble]
      exact ihNo _ _ _ _ h

theorem run_of_trying (trying : Bool) (steps : Nat) :
    ∀ goal f s parts s', run steps (.general true) goal f s = .parsed parts s' →
      run steps (.general trying) goal f s = .parsed parts s' := by
  induction steps with
  | zero => exact fun goal f s parts s' h => nomatch h
  | succ steps ih => exact fun goal f s => exec_of_trying trying ih goal.production f s

/-! ## Operands take tokens -/

/-- Whether a production begins with an action that takes a token or is a fault without it. -/
def Production.TakesFirst : Production → Prop
  | take _ | expect _ _ | word _ | assume _ _ | reject _ _ | skip _ => True
  | node _ inner _ => inner.TakesFirst
  | close _ next => next.TakesFirst
  | look choose => ∀ w, (choose w).TakesFirst
  | spell choose => ∀ text, (choose text).TakesFirst
  | scan _ _ yes no | trial _ _ _ yes no | single yes no | troubled yes no =>
    yes.TakesFirst ∧ no.TakesFirst
  | done | recover _ | parse _ _ | again _ | progress _ _ _ => False

theorem exec_moves {steps : Nat} (p : Production) :
    ∀ f s parts s', p.TakesFirst → s.current.kind ≠ .endOfInput →
      p.exec (run steps) (.general true) f s = .parsed parts s' → s.stream.pos < s'.stream.pos := by
  -- Whatever follows the token that is taken does not go back.
  have hTaken : ∀ {next : Production} {g : Frame} {s s' : ParserState} {parts : List Tree},
      s.current.kind ≠ .endOfInput →
        next.exec (run steps) (.general true) g s.advance = .parsed parts s' →
          s.stream.pos < s'.stream.pos := by
    intro next g s s' parts hOpen hNext
    have hBack := exec_pos_le (run_pos_le steps) next (.general true) g s.advance
    rw [hNext] at hBack
    have hStep : s.advance.stream.pos = s.stream.pos + 1 := (ParserState.passes_advance hOpen).pos_eq
    exact Nat.lt_of_lt_of_le (Nat.lt_of_lt_of_eq (Nat.lt_succ_self _) hStep.symm) hBack
  induction p with
  | done => exact fun f s parts s' hTakes => hTakes.elim
  | take next ih => exact fun f s parts s' _ hOpen h => hTaken hOpen h
  | expect kind next ih =>
    intro f s parts s' _ hOpen h
    unfold Production.exec at h
    split at h
    next => exact hTaken hOpen h
    next => cases h
  | word next ih =>
    intro f s parts s' _ hOpen h
    unfold Production.exec at h
    split at h
    next => exact hTaken hOpen h
    next => cases h
  | assume fault next ih => exact fun f s parts s' _ _ h => by cases h
  | reject fault next ih => exact fun f s parts s' _ _ h => by cases h
  | skip next ih => exact fun f s parts s' _ _ h => by cases h
  | recover next ih => exact fun f s parts s' hTakes => hTakes.elim
  | parse goal next ih => exact fun f s parts s' hTakes => hTakes.elim
  | node rule inner next ihInner ih =>
    intro f s parts s' hTakes hOpen h
    unfold Production.exec at h
    split at h
    next mid s₁ hParsed =>
      have hBack := exec_pos_le (run_pos_le steps) next (.general true) (f.push (.node rule mid)) s₁
      rw [h] at hBack
      exact Nat.lt_of_lt_of_le (ihInner _ _ _ _ hTakes hOpen hParsed) hBack
    next hNot => exact absurd h (hNot _ _)
  | close rule next ih => exact fun f s parts s' hTakes hOpen h => ih _ _ _ _ hTakes hOpen h
  | again goal => exact fun f s parts s' hTakes => hTakes.elim
  | progress goal stuck next ihStuck ih => exact fun f s parts s' hTakes => hTakes.elim
  | look choose ih => exact fun f s parts s' hTakes hOpen h => ih _ _ _ _ _ (hTakes _) hOpen h
  | spell choose ih => exact fun f s parts s' hTakes hOpen h => ih _ _ _ _ _ (hTakes _) hOpen h
  | scan decision test yes no ihYes ihNo =>
    intro f s parts s' hTakes hOpen h
    simp only [Production.exec, Setting.prediction_general] at h
    split at h
    · exact ihYes _ _ _ _ hTakes.1 hOpen h
    · exact ihNo _ _ _ _ hTakes.2 hOpen h
  | trial decision attempt follow yes no ihAttempt ihYes ihNo =>
    intro f s parts s' hTakes hOpen h
    simp only [Production.exec, Setting.prediction_general] at h
    split at h
    · cases h
    · exact ihNo _ _ _ _ hTakes.2 hOpen h
    · split at h
      · exact ihYes _ _ _ _ hTakes.1 hOpen h
      · exact ihNo _ _ _ _ hTakes.2 hOpen h
  | single yes no ihYes ihNo =>
    intro f s parts s' hTakes hOpen h
    unfold Production.exec at h
    split at h
    · exact ihYes _ _ _ _ hTakes.1 hOpen h
    · exact ihNo _ _ _ _ hTakes.2 hOpen h
  | troubled yes no ihYes ihNo =>
    intro f s parts s' hTakes hOpen h
    unfold Production.exec at h
    split at h
    · exact ihYes _ _ _ _ hTakes.1 hOpen h
    · exact ihNo _ _ _ _ hTakes.2 hOpen h

theorem Grammar.takesFirst_operand (next : Production) : (operand next).TakesFirst := by
  simp only [operand, Production.TakesFirst]
  intro w
  split
  case h_7 => split <;> trivial
  case h_8 =>
    unfold parenOrArrow
    split
    · split <;> trivial
    · split
      · exact ⟨trivial, trivial⟩
      · trivial
  case h_14 => split <;> trivial
  all_goals trivial

/-- An operand that is parsed where a fault ends the run takes a token. -/
theorem applied_moves {steps : Nat} {f : Frame} {s s' : ParserState} {parts : List Tree}
    (h : run steps (.general true) .applied f s = .parsed parts s') :
    s.stream.pos < s'.stream.pos := by
  have hOpen : s.current.kind ≠ .endOfInput := fun hEnd => no_operand (.inl hEnd) h (.inl rfl)
  cases steps with
  | zero => cases h
  | succ steps => exact exec_moves _ _ _ _ _ (Grammar.takesFirst_operand _) hOpen h

/-! ## Loops over a collection -/

namespace Machine

/-- Whether a loop is over a collection: whether a target and `in` stand at the cursor. -/
def isForIn (steps : Nat) (m : Machine) : Verdict :=
  let w := m.state.window
  let first := if w.here = .keyword .var then w.next else w.here
  let second := if w.here = .keyword .var then w.second else w.next
  if first.isWord = false then .decided false m
  else if second = .keyword .in_ then .decided true m
  else if Grammar.targetTails.contains second then
    m.decideBy .loopTarget ((Grammar.loopTarget .done).operate (run steps) (.start m.state))
      (.keyword .in_)
  else .decided false m

/-- A loop goes on as the decision says. -/
theorem operate_loopKind (steps : Nat) (yes no : Production) (f : Frame) (m : Machine) :
    (Grammar.loopKind yes no).operate (run steps) f m =
      (m.isForIn steps).choose (yes.operate (run steps) f) (no.operate (run steps) f) := by
  unfold Grammar.loopKind isForIn
  simp only [Production.operate]
  generalize (if m.state.window.here = .keyword .var then m.state.window.next
    else m.state.window.here) = first
  generalize (if m.state.window.here = .keyword .var then m.state.window.second
    else m.state.window.next) = second
  split
  · rfl
  split
  · rfl
  split
  · rfl
  · rfl

/-- The machine behind `var`, if that stands at the cursor. -/
def pastVar (m : Machine) : Machine :=
  if m.current.kind = .keyword .var then m.advance else m

/-- The leaf of `var`, if that stands at the cursor. -/
def varPart (m : Machine) : List Tree :=
  if m.current.kind = .keyword .var then [.token m.current] else []

theorem keeps_pastVar (m : Machine) : m.Keeps m.pastVar := by
  unfold pastVar
  split
  · exact .advance m
  · exact .refl m

theorem passes_pastVar (m : Machine) :
    m.stream.Passes (Leaf.passed (leavesAll m.varPart)) m.pastVar.stream := by
  unfold pastVar varPart
  split
  next hVar =>
    have hOpen : m.state.current.kind ≠ .endOfInput := by
      rw [show m.state.current = m.current from rfl, hVar]
      exact nofun
    have hPassed : Leaf.passed (leavesAll [.token m.current]) = [m.current] := by
      simp [leavesAll, Tree.leaves, Tree.token, Leaf.passed, Leaf.token?, Token.isEnd, hVar]
    rw [hPassed]
    exact ParserState.passes_advance hOpen
  next => exact .refl m.stream

/-- What a machine does at the target of a loop: it takes `var`, if that is there, and an operand. -/
theorem operate_loopTarget (call : Goal → Frame → Machine → Halt) (next : Production) (f : Frame)
    (m : Machine) {target : List Tree} {m' : Machine}
    (h : call .applied (.start m.pastVar.state) m.pastVar = .parsed target m') :
    (Grammar.loopTarget next).operate call f m =
      next.operate call (f.append (m.varPart ++ target)) m' := by
  have hHere : m.state.window.here = m.current.kind := m.state.window_here
  simp only [Grammar.loopTarget, Production.operate, hHere]
  unfold pastVar at h
  unfold varPart
  split at h
  next hVar =>
    simp only [hVar, if_true, Production.operate, h]
    simp [Frame.append, Frame.push]
  next hVar =>
    simp only [hVar, if_false, Production.operate, h]
    rfl

/-- The target of a loop, without the registers. -/
theorem exec_loopTarget (call : Setting → Goal → Frame → ParserState → Outcome) (σ : Setting)
    (m : Machine) :
    (Grammar.loopTarget .done).exec call σ (.start m.state) m.state =
      (call σ .applied (.start m.pastVar.state) m.pastVar.state).andThen fun target s =>
        .parsed (m.varPart ++ target) s := by
  have hHere : m.state.window.here = m.current.kind := m.state.window_here
  simp only [Grammar.loopTarget, Production.exec, hHere]
  unfold pastVar varPart
  split
  · rfl
  · rfl

/-- Where a loop could be over a collection with a target that is no plain name, the decision is an
attempt. -/
theorem isForIn_of_mayTarget {m : Machine} (h : Grammar.MayTarget m.state.window) (steps : Nat) :
    m.isForIn steps = m.decideBy .loopTarget
      ((Grammar.loopTarget .done).operate (run steps) (.start m.state)) (.keyword .in_) := by
  obtain ⟨hFirst, hSecond⟩ := h
  unfold isForIn
  rw [if_neg (by rw [hFirst]; exact nofun), if_neg, if_pos hSecond]
  intro hIn
  rw [hIn] at hSecond
  cases hSecond

/-- Elsewhere nothing is tried. -/
theorem isForIn_of_not_mayTarget {m : Machine} (h : ¬ Grammar.MayTarget m.state.window)
    (steps : Nat) : ∃ answer, m.isForIn steps = .decided answer m := by
  unfold Grammar.MayTarget at h
  unfold isForIn
  dsimp only
  generalize (if m.state.window.here = .keyword .var then m.state.window.next
    else m.state.window.here) = first at h ⊢
  generalize (if m.state.window.here = .keyword .var then m.state.window.second
    else m.state.window.next) = second at h ⊢
  split
  · exact ⟨false, rfl⟩
  next hFirst =>
    split
    · exact ⟨true, rfl⟩
    · rw [if_neg fun hSecond => h ⟨Bool.of_not_eq_false hFirst, hSecond⟩]
      exact ⟨false, rfl⟩

/-- The attempt at a target: what it comes to without the registers. -/
theorem matches_loopTarget (m : Machine) (hGeneral : m.prediction = .general) (steps : Nat) :
    m.enter.Matches [] ((Grammar.loopTarget .done).operate (run steps) (.start m.state) m.enter)
      ((Grammar.loopTarget .done).exec (CfScript.run steps) (.general true) (.start m.state)
        m.state) := by
  have hMatches := operate_matches (run_matches steps) (Grammar.loopTarget .done) false
    (.start m.state) m.enter (Grammar.careful_loopTarget.2 trivial) m.enter.clear_start
  rw [setting_enter hGeneral] at hMatches
  exact hMatches

/-- What is parsed without a fault in an attempt is parsed on the machine itself. -/
theorem run_of_attempt {m : Machine} (hGeneral : m.prediction = .general) {steps : Nat} {goal : Goal}
    {parts : List Tree} {s : ParserState}
    (h : CfScript.run steps (.general true) goal (.start m.state) m.state = .parsed parts s) :
    ∃ m', run steps goal (.start m.state) m = .parsed parts m' ∧ m'.state = s ∧
      m'.attempts = m.attempts := by
  have hSetting : m.setting = .general (decide (0 < m.attempts)) := by
    rw [setting, hGeneral, Setting.general]
  have hMatches := run_matches steps goal (.start m.state) m m.clear_start
  rw [hSetting, run_of_trying _ _ _ _ _ _ _ h] at hMatches
  generalize run steps goal (.start m.state) m = halt at hMatches ⊢
  cases hMatches with
  | @parsed _ m' hKeeps hClean => exact ⟨m', rfl, rfl, hKeeps.attempts⟩

/-- What is done behind an attempt at a target that found `in`. -/
theorem target_of_attempt {m : Machine} (hGeneral : m.prediction = .general) {steps : Nat}
    {target : List Tree} {s : ParserState}
    (h : CfScript.run steps (.general true) .applied (.start m.pastVar.state) m.pastVar.state =
      .parsed target s) :
    ∃ m', run steps .applied (.start m.pastVar.state) m.pastVar = .parsed target m' ∧
      m'.state = s ∧ hasErrorsAny (m.varPart ++ target) = false ∧
      m.stream.Passes (Leaf.passed (leavesAll (m.varPart ++ target))) m'.stream ∧
      m.pastVar.stream.pos < m'.stream.pos ∧
      m'.findings = m.findings ∧ m'.attempts = m.attempts := by
  have hKeeps := m.keeps_pastVar
  obtain ⟨m', hRun, hState, hAttempts⟩ := run_of_attempt (hKeeps.prediction.trans hGeneral) h
  obtain ⟨ls, hAdds⟩ := run_adds steps _ _ _ _ _ _ h
  have hLeaves : leavesAll target = ls := hAdds.leaves
  have hFindings : m.pastVar.findings = m.findings := by
    unfold pastVar
    split <;> rfl
  have hClean : hasErrorsAny (m.varPart ++ target) = false := by
    have hMatches := matches_loopTarget m hGeneral steps
    rw [exec_loopTarget, h] at hMatches
    generalize (Grammar.loopTarget .done).operate _ _ _ = halt at hMatches
    cases hMatches with
    | parsed _ hClean => exact hClean (by simp [strict, setting_enter hGeneral, Setting.strict])
  subst hState
  refine ⟨m', hRun, rfl, hClean, ?_, applied_moves h, (hAdds.quiet rfl).trans hFindings,
    hAttempts.trans hKeeps.attempts⟩
  rw [Tree.leavesAll_append, Leaf.passed_append, hLeaves]
  exact m.passes_pastVar.trans hAdds.passes

/-- Whether a loop is over a collection is found out without a trace, for any machine with general
prediction, in an attempt or not: afterwards every register holds what it held, and the loop goes on as
was decided. Where an attempt says that it is over a collection, the parse that follows takes `var`, if
it is there, and the target, without a finding, an assumed part or a skipped token, and stands at
`in`. The steps are those that an operand may need, of which a parse that comes to a loop has more. -/
theorem isForIn_faithful {m : Machine} {steps : Nat} (hGeneral : m.prediction = .general)
    (hSteps : 64 * m.stream.rest.length + Goal.applied.rank < steps) :
    ∃ answer, m.isForIn steps = .decided answer m ∧
      (∀ f, (Grammar.loopKind Grammar.forIn Grammar.forClauses).operate (run steps) f m =
        (if answer then Grammar.forIn else Grammar.forClauses).operate (run steps) f m) ∧
      (answer = true → Grammar.MayTarget m.state.window →
        ∃ target m', run steps .applied (.start m.pastVar.state) m.pastVar = .parsed target m' ∧
          (∀ next f, (Grammar.loopTarget next).operate (run steps) f m =
            next.operate (run steps) (f.append (m.varPart ++ target)) m') ∧
          hasErrorsAny (m.varPart ++ target) = false ∧
          m.stream.Passes (Leaf.passed (leavesAll (m.varPart ++ target))) m'.stream ∧
          m.pastVar.stream.pos < m'.stream.pos ∧
          m'.findings = m.findings ∧ m'.attempts = m.attempts ∧
          m'.current.kind = .keyword .in_) := by
  have hGoesOn : ∀ {answer}, m.isForIn steps = .decided answer m →
      ∀ f, (Grammar.loopKind Grammar.forIn Grammar.forClauses).operate (run steps) f m =
        (if answer then Grammar.forIn else Grammar.forClauses).operate (run steps) f m := by
    intro answer hAnswer f
    rw [operate_loopKind, hAnswer]
    cases answer <;> rfl
  by_cases hTarget : Grammar.MayTarget m.state.window
  · have hDecided := isForIn_of_mayTarget hTarget steps
    rw [decideBy, hGeneral] at hDecided
    dsimp only at hDecided
    rw [speculate_eq (matches_loopTarget m hGeneral steps), exec_loopTarget] at hDecided
    have hRest := (passes_pastVar m).length_rest
    have hAnswers := run_answers steps (.general true) .applied (.start m.pastVar.state)
      m.pastVar.state (by rintro ⟨⟩)
      (show 64 * m.pastVar.stream.rest.length + Goal.applied.rank < steps by omega)
    cases hAttempt : CfScript.run steps (.general true) .applied (.start m.pastVar.state)
        m.pastVar.state with
    | unfinished =>
      rw [hAttempt] at hAnswers
      exact hAnswers.elim
    | bailed bail s =>
      rw [hAttempt] at hDecided
      exact ⟨false, hDecided, hGoesOn hDecided, by rintro ⟨⟩⟩
    | parsed target s =>
      rw [hAttempt] at hDecided
      obtain ⟨m', hRun, rfl, hClean, hPasses, hMoved, hFound, hAttempts⟩ :=
        target_of_attempt hGeneral hAttempt
      refine ⟨decide (m'.current.kind = .keyword .in_), hDecided, hGoesOn hDecided, fun hYes _ => ?_⟩
      exact ⟨target, m', hRun, fun next f => operate_loopTarget _ next f m hRun, hClean, hPasses,
        hMoved, hFound, hAttempts, of_decide_eq_true hYes⟩
  · obtain ⟨answer, hDecided⟩ := isForIn_of_not_mayTarget hTarget steps
    exact ⟨answer, hDecided, hGoesOn hDecided, fun _ hMay => absurd hMay hTarget⟩

/-- A machine in the middle of an attempt, with a delimiter left over from earlier, at the target of
`for (var a.b in`: it finds `in` behind the target, and goes there. -/
theorem isForIn_faithful_member :
    let m : Machine := {
      stream := ⟨[], [
        ⟨.keyword .var, "var", ⟨.ofNat 5, .ofNat 8, by decide⟩, 1⟩,
        ⟨.identifier, "a", ⟨.ofNat 9, .ofNat 10, by decide⟩, 1⟩,
        ⟨.symbol .dot, ".", ⟨.ofNat 10, .ofNat 11, by decide⟩, 1⟩,
        ⟨.identifier, "b", ⟨.ofNat 11, .ofNat 12, by decide⟩, 1⟩,
        ⟨.keyword .in_, "in", ⟨.ofNat 13, .ofNat 15, by decide⟩, 1⟩], .endAt 15 1, rfl⟩
      prediction := .general
      findings := .empty
      attempts := 1
      delimiters := ⟨[.paren]⟩ }
    m.prediction = .general ∧ 64 * m.stream.rest.length + Goal.applied.rank < 400 ∧
      Grammar.MayTarget m.state.window ∧ m.isForIn 400 = .decided true m ∧
      ∃ target m', run 400 .applied (.start m.pastVar.state) m.pastVar = .parsed target m' ∧
        m'.findings = m.findings ∧ m'.current.kind = .keyword .in_ := by
  intro m
  have hTarget : Grammar.MayTarget m.state.window := ⟨rfl, rfl⟩
  have hYes : m.isForIn 400 = .decided true m := rfl
  obtain ⟨answer, hAnswer, -, hFollows⟩ := @isForIn_faithful m 400 rfl (by decide)
  rw [hYes] at hAnswer
  cases hAnswer
  obtain ⟨target, m', hRun, -, -, -, -, hFound, -, hIn⟩ := hFollows rfl hTarget
  exact ⟨rfl, by decide, hTarget, hYes, target, m', hRun, hFound, hIn⟩

end Machine

end CfScript
