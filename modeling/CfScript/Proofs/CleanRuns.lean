import CfScript.Proofs.Agreement

/-!
# Runs without a fault

A run with general prediction is *sound* if it is strict or if the parts it gives hold no leaf that
stems from an error. Faults have no place in a sound run: a strict run ends with the first one, and
the leaf of any other one stays among the parts. So a sound run that begins with nothing found takes
all it passes, finds nothing, and closes what it opens.

## Main results

* `Sound.of_exec`: what a sound run begins with is sound;
* `no_fault`: a sound run does not go on from a fault;
* `run_nests`: what a sound run passes is nested;
* `applied_of_expression`: an expression without an operator in front begins with an operand.
-/

namespace CfScript

open CfScript.Tree (hasErrorsAny leavesAll)

/-- How a parse with general prediction runs. -/
def Setting.general (trying : Bool) : Setting := ⟨.general, trying⟩

@[simp] theorem Setting.strict_general (trying : Bool) : (general trying).strict = trying := rfl

@[simp] theorem Setting.prediction_general (trying : Bool) :
    (general trying).prediction = .general := rfl

/-- Whether a run that gives the parts is strict or has left no error among them. -/
def Sound (trying : Bool) (parts : List Tree) : Prop := trying = true ∨ hasErrorsAny parts = false

variable {trying : Bool} {steps : Nat} {goal : Goal} {f : Frame} {s s' : ParserState}
  {parts : List Tree}

theorem hasErrorsAny_append (ts us : List Tree) :
    hasErrorsAny (ts ++ us) = (hasErrorsAny ts || hasErrorsAny us) := by
  simp [Tree.hasErrorsAny_eq_leaves]

namespace Sound

theorem left {ts us : List Tree} (h : Sound trying (ts ++ us)) : Sound trying ts := by
  refine h.imp id fun hClean => ?_
  rw [hasErrorsAny_append, Bool.or_eq_false_iff] at hClean
  exact hClean.1

theorem right {ts us : List Tree} (h : Sound trying (ts ++ us)) : Sound trying us := by
  refine h.imp id fun hClean => ?_
  rw [hasErrorsAny_append, Bool.or_eq_false_iff] at hClean
  exact hClean.2

theorem of_node {rule : Rule} {cs : List Tree} (h : Sound trying [.node rule cs]) :
    Sound trying cs := by
  simpa [Sound, Tree.hasErrorsAny, Tree.hasErrors] using h

/-- The leaves that a sound run adds are no errors, unless it is strict. -/
theorem leaves {ps : List Tree} {ls : List Leaf} {σ : Setting} (h : Sound trying parts)
    (hAdds : Adds σ ps s ls parts s') : trying = true ∨ ls.any (·.isError) = false := by
  refine h.imp id fun hClean => ?_
  rw [Tree.hasErrorsAny_eq_leaves, hAdds.leaves, List.any_append, Bool.or_eq_false_iff] at hClean
  exact hClean.2

/-- What a sound run begins with is sound. -/
theorem of_adds {ps : List Tree} {ls : List Leaf} {σ : Setting} (h : Sound trying parts)
    (hAdds : Adds σ ps s ls parts s') : Sound trying ps := by
  refine h.imp id fun hClean => ?_
  rw [Tree.hasErrorsAny_eq_leaves, hAdds.leaves, List.any_append, Bool.or_eq_false_iff] at hClean
  rw [Tree.hasErrorsAny_eq_leaves]
  exact hClean.1

theorem of_exec {p : Production} (h : Sound trying parts)
    (hRun : p.exec (run steps) (.general trying) f s = .parsed parts s') :
    Sound trying f.parts := by
  obtain ⟨ls, hAdds⟩ := exec_adds (run_adds steps) p _ _ _ _ _ hRun
  exact h.of_adds hAdds

/-- A sound run finds nothing. -/
theorem findings_eq {ps : List Tree} {ls : List Leaf} (h : Sound trying parts)
    (hAdds : Adds (.general trying) ps s ls parts s') : s'.findings = s.findings := by
  rcases h.leaves hAdds with hTrying | hClean
  · exact hAdds.quiet hTrying
  · obtain ⟨ds, hDs, hError, -⟩ := hAdds.findings
    have hNone : ds = [] := by
      by_contra hSome
      rw [hError hSome] at hClean
      cases hClean
    rw [hDs, hNone]
    simp [Log.append]

end Sound

/-- A sound run does not go on from a fault, whose leaf would stay among the parts. -/
theorem no_fault {part : Tree} {next : Production} {bail : Bail} {s₁ : ParserState}
    (hPart : part.hasErrors = true)
    (h : (if (Setting.general trying).strict = true then .bailed bail s
      else next.exec (run steps) (.general trying) (f.push part) s₁) = .parsed parts s')
    (hSound : Sound trying parts) : False := by
  split at h
  · cases h
  next hLenient =>
    have hBefore := (hSound.of_exec h : Sound trying (f.parts ++ [part])).right
    rcases hBefore with hTrying | hClean
    · exact hLenient hTrying
    · simp [hasErrorsAny, hPart] at hClean

/-- A sound run takes a token where it asks for one of a kind. -/
theorem kind_of_expect {kind : TokenKind} {next : Production}
    (h : (Production.expect kind next).exec (run steps) (.general trying) f s = .parsed parts s')
    (hSound : Sound trying parts) :
    s.current.kind = kind ∧
      next.exec (run steps) (.general trying) (f.push (.token s.current)) s.advance =
        .parsed parts s' := by
  unfold Production.exec at h
  split at h
  next hKind => exact ⟨hKind, h⟩
  · exact (no_fault rfl h hSound).elim

/-- A sound run takes a word where it asks for one. -/
theorem isWord_of_word {next : Production}
    (h : (Production.word next).exec (run steps) (.general trying) f s = .parsed parts s')
    (hSound : Sound trying parts) :
    s.current.kind.isWord = true ∧
      next.exec (run steps) (.general trying) (f.push (.token s.current)) s.advance =
        .parsed parts s' := by
  unfold Production.exec at h
  split at h
  next hKind => exact ⟨hKind, h⟩
  · exact (no_fault rfl h hSound).elim

/-- What a run parses, a run with more steps does. -/
theorem run_more {more : Nat} (hLe : steps ≤ more) {σ : Setting}
    (h : run steps σ goal f s = .parsed parts s') : run more σ goal f s = .parsed parts s' := by
  rw [run_mono hLe (by simp [h]), h]

/-- The tokens that a sound run passes are nested. -/
theorem run_nests (hGoal : ¬ goal.NeedsBlame) (hQuiet : s.findings = .empty)
    (h : run steps (.general trying) goal f s = .parsed parts s') (hSound : Sound trying parts) :
    ∃ ts, s.stream.Passes ts s'.stream ∧ Delimiter.nestAll [] (ts.map (·.kind)) = some [] ∧
      ∀ t ∈ ts, t.isEnd = false := by
  have hMore := run_more (Nat.le_add_right steps (64 * s.stream.rest.length + goal.rank + 1)) h
  have hEnds := run_answers _ (.general trying) goal f s (hGoal · |>.elim)
    (by omega : _ < steps + (64 * s.stream.rest.length + goal.rank + 1))
  rw [hMore] at hEnds
  obtain ⟨ls, hAdds, hLawful⟩ := hEnds
  refine ⟨_, hAdds.passes, ?_, fun t ht => by simpa using (List.mem_filter.1 ht).2⟩
  rcases hLawful.nested with hFalse | hError | hNest
  · exact hFalse.elim
  · exfalso
    rcases hSound.leaves hAdds with rfl | hClean
    · -- A strict run has no findings that could excuse an error.
      rcases hLawful.excused hError with hFound | hLenient
      · rw [hAdds.quiet rfl, hQuiet] at hFound
        exact Nat.lt_irrefl _ hFound
      · cases hLenient.1
    · rw [hError] at hClean
      cases hClean
  · exact hNest

/-! ## What an expression begins with -/

section

open Grammar

variable (hHead : unaryOperators.contains s.current.kind = false)

include hHead

theorem applied_of_binary (steps : Nat) :
    ∀ {level parts s'},
      run steps (.general trying) (.binary level) (.start s) s = .parsed parts s' →
      Sound trying parts →
        ∃ qs t, run steps (.general trying) .applied (.start s) s = .parsed qs t ∧
          Sound trying qs := by
  induction steps with
  | zero =>
    intro level parts s' h
    cases h
  | succ steps ih =>
    intro level parts s' h hSound
    have hNot : ¬ (level = notLevel ∧ s.current.kind = .keyword .not) := by
      rintro ⟨-, hIs⟩
      rw [hIs] at hHead
      exact absurd hHead (by decide)
    simp only [run, Goal.production, binary, Production.exec, ParserState.window_here, if_neg hNot]
      at h
    split at h
    · simp only [Production.exec] at h
      split at h
      next mid s₁ hParsed =>
        obtain ⟨ls, hAdds⟩ := run_adds steps _ _ _ _ _ _ h
        obtain ⟨qs, t, hApplied, hClean⟩ := ih hParsed (hSound.of_adds hAdds)
        exact ⟨qs, t, run_more (Nat.le_succ steps) hApplied, hClean⟩
      next hBad => exact absurd h (hBad _ _)
    · simp only [Production.exec] at h
      cases steps with
      | zero => cases h
      | succ steps =>
        simp only [run, Goal.production, unary, Production.exec, ParserState.window_here, hHead]
          at h
        exact ⟨parts, s', run_more (Nat.le_add_right steps 2) h, hSound⟩

theorem applied_of_ternary (steps : Nat)
    (h : run steps (.general trying) .ternary (.start s) s = .parsed parts s')
    (hSound : Sound trying parts) :
    ∃ qs t, run steps (.general trying) .applied (.start s) s = .parsed qs t ∧
      Sound trying qs := by
  cases steps with
  | zero => cases h
  | succ steps =>
    simp only [run, Goal.production, ternary, Production.exec] at h
    split at h
    next mid s₁ hBinary =>
      have hMid : Sound trying mid := (hSound.of_exec h : Sound trying ([] ++ mid)).right
      obtain ⟨qs, t, hApplied, hClean⟩ := applied_of_binary hHead steps hBinary hMid
      exact ⟨qs, t, run_more (Nat.le_succ steps) hApplied, hClean⟩
    next hBad => exact absurd h (hBad _ _)

/-- An expression without an operator in front begins with an operand. -/
theorem applied_of_expression (steps : Nat)
    (h : run steps (.general trying) .expression (.start s) s = .parsed parts s')
    (hSound : Sound trying parts) :
    ∃ qs t, run steps (.general trying) .applied (.start s) s = .parsed qs t ∧
      Sound trying qs := by
  cases steps with
  | zero => cases h
  | succ steps =>
    simp only [run, Goal.production, expression, Production.exec] at h
    split at h
    next mid s₁ hTernary =>
      have hMid : Sound trying mid := (hSound.of_exec h : Sound trying ([] ++ mid)).right
      obtain ⟨qs, t, hApplied, hClean⟩ := applied_of_ternary hHead steps hTernary hMid
      exact ⟨qs, t, run_more (Nat.le_succ steps) hApplied, hClean⟩
    next hBad => exact absurd h (hBad _ _)

end

/-- A sound run of an operand does not begin at the end of the input or with `else`. -/
theorem no_operand (hHere : s.current.kind = .endOfInput ∨ s.current.kind = .keyword .else_)
    (h : run steps (.general trying) .applied f s = .parsed parts s')
    (hSound : Sound trying parts) : False := by
  cases steps with
  | zero => cases h
  | succ steps =>
    rw [run, Goal.production, Grammar.operand, Production.exec, ParserState.window_here] at h
    rcases hHere with hHere | hHere <;> rw [hHere] at h <;> exact no_fault rfl h hSound

theorem no_expression (hHere : s.current.kind = .endOfInput ∨ s.current.kind = .keyword .else_)
    (h : run steps (.general trying) .expression (.start s) s = .parsed parts s')
    (hSound : Sound trying parts) : False := by
  have hHead : Grammar.unaryOperators.contains s.current.kind = false := by
    rcases hHere with hHere | hHere <;> rw [hHere] <;> decide
  obtain ⟨qs, t, hApplied, hClean⟩ := applied_of_expression hHead steps h hSound
  exact no_operand hHere hApplied hClean

/-- A sound statement does not begin with `else`. -/
theorem no_statement (hHere : s.current.kind = .keyword .else_)
    (h : run steps (.general trying) .statement f s = .parsed parts s')
    (hSound : Sound trying parts) : False := by
  cases steps with
  | zero => cases h
  | succ steps =>
    rw [run, Goal.production, Grammar.statement, Production.exec, ParserState.window_here, hHere,
      Grammar.expressionStatement, Production.exec] at h
    split at h
    next mid s₁ hParsed => exact no_expression (.inr hHere) hParsed (hSound.of_exec h).right
    next hBad => exact absurd h (hBad _ _)

end CfScript
