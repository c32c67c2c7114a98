import CfScript.Parser.Engine

/-!
# What every run keeps

Two facts hold of every production, whatever the grammar says. A run moves the cursor and changes no
token, so a stream can be wound back after any run. And the number of steps is no part of the answer:
a run that ends within some number of steps ends the same way within every larger one.

Both are proved action by action, for any way of parsing the goals that a production asks for, and then
carried over to `run` by induction on the steps.

## Main results

* `stream_tokens_exec`, `stream_tokens_run`: a run ends on the tokens it began on;
* `run_succ_of_finished`, `run_mono`: more steps change no answer.
-/

namespace CfScript

/-! ## The tokens of the stream -/

/-- Whether a run that ends, ends on a stream with the given tokens. -/
def Outcome.On (tokens : List Token) : Outcome → Prop
  | .parsed _ s => s.stream.tokens = tokens
  | .bailed _ s => s.stream.tokens = tokens
  | .unfinished => True

@[simp] theorem ParserState.tokens_advance (s : ParserState) :
    s.advance.stream.tokens = s.stream.tokens :=
  s.stream.tokens_advance

@[simp] theorem ParserState.tokens_report (s : ParserState) (fault : Fault) :
    (s.report fault).stream.tokens = s.stream.tokens := rfl

theorem TokenStream.tokens_advanceBy (s : TokenStream) (n : Nat) :
    (s.advanceBy n).tokens = s.tokens := by
  induction n generalizing s with
  | zero => rfl
  | succ n ih => rw [advanceBy, ih, tokens_advance]

/-- A production keeps the tokens if all that it calls does. -/
theorem stream_tokens_exec {call : Setting → Goal → Frame → ParserState → Outcome}
    (hCall : ∀ σ goal f s, (call σ goal f s).On s.stream.tokens) (p : Production) :
    ∀ σ f s, (p.exec call σ f s).On s.stream.tokens := by
  induction p with
  | done => exact fun σ f s => rfl
  | take next ih =>
    intro σ f s
    have h := ih σ (f.push (.token s.current)) s.advance
    rw [ParserState.tokens_advance] at h
    exact h
  | expect kind next ih =>
    intro σ f s
    unfold Production.exec
    split
    · simpa using ih σ (f.push (.token s.current)) s.advance
    · split
      · rfl
      · simpa using ih σ (f.push (.assumed kind.describe)) (s.report (.expectedToken kind))
  | word next ih =>
    intro σ f s
    unfold Production.exec
    split
    · simpa using ih σ (f.push (.token s.current)) s.advance
    · split
      · rfl
      · exact ih σ _ (s.report .expectedIdentifier)
  | assume fault next ih =>
    intro σ f s
    unfold Production.exec
    split
    · rfl
    · exact ih σ _ (s.report fault)
  | reject fault next ih =>
    intro σ f s
    unfold Production.exec
    split
    · rfl
    · simpa using ih σ (f.push (.skipped s.current)) (s.report fault).advance
  | skip next ih =>
    intro σ f s
    unfold Production.exec
    split
    · rfl
    · simpa using ih σ (f.push (.skipped s.current)) s.advance
  | recover next ih =>
    intro σ f s
    unfold Production.exec
    have h := TokenStream.tokens_advanceBy s.stream
    simpa only [h] using ih σ _ { s with stream := s.stream.advanceBy _ }
  | parse goal next ih =>
    intro σ f s
    unfold Production.exec
    have hGoal := hCall σ goal (.start s) s
    split
    · next parts s' hParsed =>
      rw [hParsed] at hGoal
      have hTokens : s'.stream.tokens = s.stream.tokens := hGoal
      exact hTokens ▸ ih σ (f.append parts) s'
    · exact hGoal
  | node rule inner next ihInner ih =>
    intro σ f s
    unfold Production.exec
    have hInner := ihInner σ (.start s) s
    split
    · next parts s' hParsed =>
      rw [hParsed] at hInner
      have hTokens : s'.stream.tokens = s.stream.tokens := hInner
      exact hTokens ▸ ih σ (f.push (.node rule parts)) s'
    · exact hInner
  | close rule next ih => exact fun σ f s => ih σ (f.close rule) s
  | again goal => exact fun σ f s => hCall σ goal f s
  | progress goal stuck next ihStuck ih =>
    intro σ f s
    unfold Production.exec
    have hGoal := hCall σ goal (.start s) s
    split
    · next parts s' hParsed =>
      rw [hParsed] at hGoal
      have hTokens : s'.stream.tokens = s.stream.tokens := hGoal
      split
      · have h := ihStuck σ f
          { s' with findings := s'.findings.truncate s.findings.length }
        exact hTokens ▸ h
      · exact hTokens ▸ ih σ (f.append parts) s'
    · exact hGoal
  | look choose ih => exact fun σ f s => ih s.window σ f s
  | spell choose ih => exact fun σ f s => ih (Text.fold s.current.lexeme) σ f s
  | scan decision test yes no ihYes ihNo =>
    intro σ f s
    unfold Production.exec
    split
    · rfl
    · exact ihNo σ f s
    · split
      · exact ihYes σ f s
      · exact ihNo σ f s
  | trial decision attempt follow yes no ihAttempt ihYes ihNo =>
    intro σ f s
    unfold Production.exec
    split
    · rfl
    · split
      · trivial
      · exact ihNo σ f s
      · split
        · exact ihYes σ f s
        · exact ihNo σ f s
  | single yes no ihYes ihNo =>
    intro σ f s
    unfold Production.exec
    split
    · exact ihYes σ f s
    · exact ihNo σ f s
  | troubled yes no ihYes ihNo =>
    intro σ f s
    unfold Production.exec
    split
    · exact ihYes σ f s
    · exact ihNo σ f s

theorem stream_tokens_run (steps : Nat) :
    ∀ σ goal f s, (run steps σ goal f s).On s.stream.tokens := by
  induction steps with
  | zero => exact fun σ goal f s => trivial
  | succ steps ih => exact fun σ goal f s => stream_tokens_exec ih goal.production σ f s

/-! ## The number of steps -/

/-- Whether a second outcome is the first one, if the first one is an answer. -/
def Outcome.Refines (first second : Outcome) : Prop := first = .unfinished ∨ first = second

theorem Outcome.Refines.of_finished {first second : Outcome} (h : first.Refines second)
    (hFirst : first ≠ .unfinished) : second = first :=
  (h.resolve_left hFirst).symm

/-- A production that calls what answers more often answers more often itself, and no differently. -/
theorem exec_refines {call more : Setting → Goal → Frame → ParserState → Outcome}
    (hCall : ∀ σ goal f s, (call σ goal f s).Refines (more σ goal f s)) (p : Production) :
    ∀ σ f s, (p.exec call σ f s).Refines (p.exec more σ f s) := by
  induction p with
  | done => exact fun σ f s => Or.inr rfl
  | take next ih => exact fun σ f s => ih σ _ _
  | expect kind next ih =>
    intro σ f s
    unfold Production.exec
    split
    · exact ih σ _ _
    · split
      · exact Or.inr rfl
      · exact ih σ _ _
  | word next ih =>
    intro σ f s
    unfold Production.exec
    split
    · exact ih σ _ _
    · split
      · exact Or.inr rfl
      · exact ih σ _ _
  | assume fault next ih =>
    intro σ f s
    unfold Production.exec
    split
    · exact Or.inr rfl
    · exact ih σ _ _
  | reject fault next ih =>
    intro σ f s
    unfold Production.exec
    split
    · exact Or.inr rfl
    · exact ih σ _ _
  | skip next ih =>
    intro σ f s
    unfold Production.exec
    split
    · exact Or.inr rfl
    · exact ih σ _ _
  | recover next ih =>
    intro σ f s
    unfold Production.exec
    exact ih σ _ _
  | parse goal next ih =>
    intro σ f s
    unfold Production.exec
    rcases hCall σ goal (.start s) s with hGoal | hGoal
    · exact Or.inl (by rw [hGoal])
    · rw [hGoal]
      split
      · exact ih σ _ _
      · exact Or.inr rfl
  | node rule inner next ihInner ih =>
    intro σ f s
    unfold Production.exec
    rcases ihInner σ (.start s) s with hInner | hInner
    · exact Or.inl (by rw [hInner])
    · rw [hInner]
      split
      · exact ih σ _ _
      · exact Or.inr rfl
  | close rule next ih => exact fun σ f s => ih σ _ _
  | again goal => exact fun σ f s => hCall σ goal f s
  | progress goal stuck next ihStuck ih =>
    intro σ f s
    unfold Production.exec
    rcases hCall σ goal (.start s) s with hGoal | hGoal
    · exact Or.inl (by rw [hGoal])
    · rw [hGoal]
      split
      · split
        · exact ihStuck σ _ _
        · exact ih σ _ _
      · exact Or.inr rfl
  | look choose ih => exact fun σ f s => ih s.window σ f s
  | spell choose ih => exact fun σ f s => ih (Text.fold s.current.lexeme) σ f s
  | scan decision test yes no ihYes ihNo =>
    intro σ f s
    unfold Production.exec
    split
    · exact Or.inr rfl
    · exact ihNo σ f s
    · split
      · exact ihYes σ f s
      · exact ihNo σ f s
  | trial decision attempt follow yes no ihAttempt ihYes ihNo =>
    intro σ f s
    unfold Production.exec
    split
    · exact Or.inr rfl
    · rcases ihAttempt { σ with trying := true } (.start s) s with hAttempt | hAttempt
      · exact Or.inl (by rw [hAttempt])
      · rw [hAttempt]
        split
        · exact Or.inr rfl
        · exact ihNo σ f s
        · split
          · exact ihYes σ f s
          · exact ihNo σ f s
  | single yes no ihYes ihNo =>
    intro σ f s
    unfold Production.exec
    split
    · exact ihYes σ f s
    · exact ihNo σ f s
  | troubled yes no ihYes ihNo =>
    intro σ f s
    unfold Production.exec
    split
    · exact ihYes σ f s
    · exact ihNo σ f s

theorem run_refines_succ (steps : Nat) :
    ∀ σ goal f s, (run steps σ goal f s).Refines (run (steps + 1) σ goal f s) := by
  induction steps with
  | zero => exact fun σ goal f s => Or.inl rfl
  | succ steps ih => exact fun σ goal f s => exec_refines ih goal.production σ f s

theorem run_succ_of_finished {steps : Nat} {σ : Setting} {goal : Goal} {f : Frame}
    {s : ParserState} (h : run steps σ goal f s ≠ .unfinished) :
    run (steps + 1) σ goal f s = run steps σ goal f s :=
  (run_refines_succ steps σ goal f s).of_finished h

theorem run_mono {steps more : Nat} (hLe : steps ≤ more) {σ : Setting} {goal : Goal} {f : Frame}
    {s : ParserState} (h : run steps σ goal f s ≠ .unfinished) :
    run more σ goal f s = run steps σ goal f s := by
  obtain ⟨extra, rfl⟩ := Nat.exists_eq_add_of_le hLe
  induction extra with
  | zero => rfl
  | succ extra ih =>
    have hExtra := ih (Nat.le_add_right steps extra)
    rw [← hExtra] at h
    exact (run_succ_of_finished h).trans hExtra

end CfScript
