import CfScript.Parser.Engine

/-!
# Runs, action by action

A run puts one action behind another. What holds between the parts and the state before each action
and those after it therefore holds of every run that gives parts, as long as it carries over from
two runs in a row to both together.

`RunLaws` lists what that takes. Only actions that change something are in it: decisions leave parts
and state alone, and an attempt is taken back whatever it did.

## Main results

* `RunLaws.exec`: what holds of a production, if it holds of all that it calls;
* `RunLaws.run`: what holds of a goal.
-/

namespace CfScript

/-- A relation between the parts and the state before and after that every action respects and that
is passed on from runs to longer runs. -/
structure RunLaws
    (R : Setting → List Tree → ParserState → List Tree → ParserState → Prop) : Prop where
  refl : ∀ σ ps s, R σ ps s ps s
  trans : ∀ {σ ps s qs s' rs s''}, R σ ps s qs s' → R σ qs s' rs s'' → R σ ps s rs s''
  take : ∀ σ ps s, R σ ps s (ps ++ [.token s.current]) s.advance
  assume : ∀ {σ} ps s what fault, ¬ σ.strict = true →
    R σ ps s (ps ++ [.assumed what]) (s.report fault)
  reject : ∀ {σ} ps s fault, ¬ σ.strict = true →
    R σ ps s (ps ++ [.skipped s.current]) (s.report fault).advance
  skip : ∀ {σ} ps s, ¬ σ.strict = true → R σ ps s (ps ++ [.skipped s.current]) s.advance
  recover : ∀ σ ps s,
    R σ ps s
      (ps ++ ((Token.skipStatement .empty s.stream.rest).1.map .skipped ++
        (Token.skipStatement .empty s.stream.rest).2.toList.map .token))
      ⟨s.stream.advanceBy ((Token.skipStatement .empty s.stream.rest).1.length +
        (Token.skipStatement .empty s.stream.rest).2.toList.length), s.findings⟩
  close : ∀ σ ps s rule, R σ ps s [.node rule ps] s
  /-- The parts of a goal are put behind those that are there. -/
  child : ∀ {σ s qs s'} ps, R σ [] s qs s' → R σ ps s (ps ++ qs) s'
  node : ∀ {σ s qs s'} ps rule, R σ [] s qs s' → R σ ps s (ps ++ [.node rule qs]) s'
  /-- A goal that took no token loses its parts and its findings. -/
  undo : ∀ {σ s qs s'} ps, R σ [] s qs s' → s'.stream.pos = s.stream.pos →
    R σ ps s ps { s' with findings := s'.findings.truncate s.findings.length }

namespace RunLaws

variable {R : Setting → List Tree → ParserState → List Tree → ParserState → Prop}

/-- What all the goals respect that a production calls, the production respects. -/
theorem exec {call : Setting → Goal → Frame → ParserState → Outcome} (hLaws : RunLaws R)
    (hCall : ∀ σ goal f s parts s', call σ goal f s = .parsed parts s' → R σ f.parts s parts s')
    (p : Production) :
    ∀ σ f s parts s', p.exec call σ f s = .parsed parts s' → R σ f.parts s parts s' := by
  induction p with
  | done =>
    intro σ f s parts s' h
    cases h
    exact hLaws.refl σ f.parts s
  | take next ih =>
    intro σ f s parts s' h
    exact hLaws.trans (hLaws.take σ f.parts s) (ih _ _ _ _ _ h)
  | expect kind next ih =>
    intro σ f s parts s' h
    unfold Production.exec at h
    split at h
    · exact hLaws.trans (hLaws.take σ f.parts s) (ih _ _ _ _ _ h)
    · split at h
      · cases h
      next hLenient => exact hLaws.trans (hLaws.assume f.parts s _ _ hLenient) (ih _ _ _ _ _ h)
  | word next ih =>
    intro σ f s parts s' h
    unfold Production.exec at h
    split at h
    · exact hLaws.trans (hLaws.take σ f.parts s) (ih _ _ _ _ _ h)
    · split at h
      · cases h
      next hLenient => exact hLaws.trans (hLaws.assume f.parts s _ _ hLenient) (ih _ _ _ _ _ h)
  | assume fault next ih =>
    intro σ f s parts s' h
    unfold Production.exec at h
    split at h
    · cases h
    next hLenient => exact hLaws.trans (hLaws.assume f.parts s _ _ hLenient) (ih _ _ _ _ _ h)
  | reject fault next ih =>
    intro σ f s parts s' h
    unfold Production.exec at h
    split at h
    · cases h
    next hLenient => exact hLaws.trans (hLaws.reject f.parts s _ hLenient) (ih _ _ _ _ _ h)
  | skip next ih =>
    intro σ f s parts s' h
    unfold Production.exec at h
    split at h
    · cases h
    next hLenient => exact hLaws.trans (hLaws.skip f.parts s hLenient) (ih _ _ _ _ _ h)
  | recover next ih =>
    intro σ f s parts s' h
    exact hLaws.trans (hLaws.recover σ f.parts s) (ih _ _ _ _ _ h)
  | parse goal next ih =>
    intro σ f s parts s' h
    unfold Production.exec at h
    split at h
    next mid s₁ hParsed =>
      have hGoal := hCall _ _ _ _ _ _ hParsed
      exact hLaws.trans (hLaws.child f.parts hGoal) (ih _ _ _ _ _ h)
    next hNot => exact absurd h (hNot _ _)
  | node rule inner next ihInner ih =>
    intro σ f s parts s' h
    unfold Production.exec at h
    split at h
    next mid s₁ hParsed =>
      have hInner := ihInner _ _ _ _ _ hParsed
      exact hLaws.trans (hLaws.node f.parts rule hInner) (ih _ _ _ _ _ h)
    next hNot => exact absurd h (hNot _ _)
  | close rule next ih =>
    intro σ f s parts s' h
    exact hLaws.trans (hLaws.close σ f.parts s rule) (ih _ _ _ _ _ h)
  | again goal => exact fun σ f s parts s' h => hCall σ goal f s parts s' h
  | progress goal stuck next ihStuck ih =>
    intro σ f s parts s' h
    unfold Production.exec at h
    split at h
    next mid s₁ hParsed =>
      have hGoal := hCall _ _ _ _ _ _ hParsed
      split at h
      next hPos => exact hLaws.trans (hLaws.undo f.parts hGoal hPos) (ihStuck _ _ _ _ _ h)
      next => exact hLaws.trans (hLaws.child f.parts hGoal) (ih _ _ _ _ _ h)
    next hNot => exact absurd h (hNot _ _)
  | look choose ih => exact fun σ f s parts s' h => ih s.window σ f s parts s' h
  | spell choose ih =>
    exact fun σ f s parts s' h => ih (Text.fold s.current.lexeme) σ f s parts s' h
  | scan decision test yes no ihYes ihNo =>
    intro σ f s parts s' h
    unfold Production.exec at h
    split at h
    · cases h
    · exact ihNo _ _ _ _ _ h
    · split at h
      · exact ihYes _ _ _ _ _ h
      · exact ihNo _ _ _ _ _ h
  | trial decision attempt follow yes no ihAttempt ihYes ihNo =>
    intro σ f s parts s' h
    unfold Production.exec at h
    split at h
    · cases h
    · split at h
      · cases h
      · exact ihNo _ _ _ _ _ h
      · split at h
        · exact ihYes _ _ _ _ _ h
        · exact ihNo _ _ _ _ _ h
  | single yes no ihYes ihNo =>
    intro σ f s parts s' h
    unfold Production.exec at h
    split at h
    · exact ihYes _ _ _ _ _ h
    · exact ihNo _ _ _ _ _ h
  | troubled yes no ihYes ihNo =>
    intro σ f s parts s' h
    unfold Production.exec at h
    split at h
    · exact ihYes _ _ _ _ _ h
    · exact ihNo _ _ _ _ _ h

/-- What every action respects, every goal respects, however many steps it takes. -/
theorem run (hLaws : RunLaws R) (steps : Nat) :
    ∀ σ goal f s parts s', run steps σ goal f s = .parsed parts s' → R σ f.parts s parts s' := by
  induction steps with
  | zero => exact fun σ goal f s parts s' h => nomatch h
  | succ steps ih => exact fun σ goal f s => hLaws.exec ih goal.production σ f s

end RunLaws

end CfScript
