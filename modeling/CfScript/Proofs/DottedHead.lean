import CfScript.Proofs.Totality

/-!
# Statements that begin with a dotted word

What begins with a dotted word is either an expression statement or a function with a dotted return
type. If the word `function` stands right behind the dotted word, a strict parse does not get an
expression statement out of it, since the expression ends there and no semicolon follows. If it does
not stand there, a parse that takes the statement for a function finds a fault. So whenever the one
succeeds, the other finds something wrong.

## Main results

* `expressionStatement_not_parsed`: no expression statement is parsed in front of `function`;
* `functionDeclaration_finds`: a function with a dotted return type needs `function` right behind
  it.
-/

namespace CfScript

open Grammar

/-- From `s` dots with words behind them lead to `u`. -/
inductive DotWords : ParserState → ParserState → Prop where
  | refl (s : ParserState) : DotWords s s
  | step {s u : ParserState} (hDot : s.current.kind = .symbol .dot)
    (hWord : s.advance.current.kind.isWord = true) (h : DotWords s.advance.advance u) : DotWords s u

namespace DotWords

variable {s u : ParserState}

theorem findings_eq (h : DotWords s u) : u.findings = s.findings := by
  induction h with
  | refl s => rfl
  | step hDot hWord h ih => exact ih

theorem pos_le (h : DotWords s u) : s.stream.pos ≤ u.stream.pos := by
  induction h with
  | refl s => exact Nat.le_refl _
  | @step s u hDot hWord h ih =>
    have hDotted := s.pos_le_advance
    have hNamed := s.advance.pos_le_advance
    omega

end DotWords

/-- The token behind the current one is the current one a step further. -/
theorem ParserState.window_next {s : ParserState} (h : s.current.kind ≠ .endOfInput) :
    s.window.next = s.advance.current.kind := by
  have hSees : [s.window.next, s.window.second] <+: s.advance.window.kinds :=
    ParserState.window_advance h
  exact (List.cons_prefix_cons.1 hSees).1.trans s.advance.window_here

/-- The words after dots that a goal takes. -/
theorem DotWords.of_dottedTail (steps : Nat) {σ : Setting} :
    ∀ {f s parts u}, run steps σ .dottedTail f s = .parsed parts u → DotWords s u := by
  induction steps with
  | zero =>
    intro f s parts u h
    cases h
  | succ steps ih =>
    intro f s parts u h
    simp only [run, Goal.production, dottedTail, Production.exec, ParserState.window_here] at h
    split at h
    next hDot =>
      have hOpen : s.current.kind ≠ .endOfInput := by simp [hDot.1]
      rw [ParserState.window_next hOpen] at hDot
      exact .step hDot.1 hDot.2 (ih h)
    next =>
      cases h
      exact .refl s

/-! ## Expressions in front of `function` -/

section

variable {σ : Setting} {s u : ParserState}

theorem appliedTail_stops (hFunction : u.current.kind = .keyword .function)
    (hWords : DotWords s u) :
    ∀ steps f parts v, run steps σ .appliedTail f s = .parsed parts v → v = u := by
  induction hWords with
  | refl s =>
    intro steps f parts v h
    cases steps with
    | zero => cases h
    | succ steps =>
      simp only [run, Goal.production, appliedTail, Production.exec, ParserState.window_here,
        hFunction] at h
      cases h
      rfl
  | step hDot hWord hWords ih =>
    intro steps f parts v h
    cases steps with
    | zero => cases h
    | succ steps =>
      simp only [run, Goal.production, appliedTail, Production.exec, ParserState.window_here, hDot,
        hWord, if_true] at h
      exact ih hFunction steps _ parts v h

/-- From a dotted word in front of `function` an operand ends there. -/
theorem applied_stops (hFunction : u.current.kind = .keyword .function)
    (hHead : s.current.kind = .identifier) (hNext : s.window.next = .symbol .dot)
    (hWords : DotWords s.advance u) (steps : Nat) {f : Frame} {parts : List Tree} {v : ParserState}
    (h : run steps σ .applied f s = .parsed parts v) : v = u := by
  cases steps with
  | zero => cases h
  | succ steps =>
    simp only [run, Goal.production, operand, Production.exec, ParserState.window_here, hHead,
      hNext] at h
    exact appliedTail_stops hFunction hWords steps _ _ _ h

/-- The word `function` is no binary operator. -/
theorem not_binary_function (level : Nat) :
    (binaryLevels.getD level []).contains (.keyword .function) = false := by
  have hAll : ∀ ks ∈ binaryLevels, .keyword .function ∉ ks := by decide
  refine Bool.eq_false_iff.2 fun hIs => ?_
  obtain ⟨ks, hLevel, hMem⟩ := exists_mem_binaryLevels hIs
  exact hAll ks hLevel hMem

theorem unary_stops (hFunction : u.current.kind = .keyword .function)
    (hHead : s.current.kind = .identifier) (hNext : s.window.next = .symbol .dot)
    (hWords : DotWords s.advance u) (steps : Nat) {f : Frame} {parts : List Tree} {v : ParserState}
    (h : run steps σ .unary f s = .parsed parts v) : v = u := by
  cases steps with
  | zero => cases h
  | succ steps =>
    simp only [run, Goal.production, unary, Production.exec, ParserState.window_here, hHead] at h
    exact applied_stops hFunction hHead hNext hWords steps h

theorem binaryTail_stops (hFunction : u.current.kind = .keyword .function) (level steps : Nat)
    {f : Frame} {parts : List Tree} {v : ParserState}
    (h : run steps σ (.binaryTail level) f u = .parsed parts v) : v = u := by
  have hOperator : (binaryLevels.getD level []).contains u.window.here = false := by
    rw [ParserState.window_here, hFunction]
    exact not_binary_function level
  cases steps with
  | zero => cases h
  | succ steps =>
    simp only [run, Goal.production, binaryTail, Production.exec, hOperator] at h
    cases h
    rfl

theorem binary_stops (hFunction : u.current.kind = .keyword .function)
    (hHead : s.current.kind = .identifier) (hNext : s.window.next = .symbol .dot)
    (hWords : DotWords s.advance u) (steps : Nat) :
    ∀ {level f parts v}, run steps σ (.binary level) f s = .parsed parts v → v = u := by
  induction steps with
  | zero =>
    intro level f parts v h
    cases h
  | succ steps ih =>
    intro level f parts v h
    simp only [run, Goal.production, binary, Production.exec, ParserState.window_here, hHead] at h
    split at h
    next hNot => cases hNot.2
    split at h
    next hLevel =>
      simp only [Production.exec] at h
      split at h
      next mid s₁ hParsed =>
        rw [ih hParsed] at h
        exact binaryTail_stops hFunction level steps h
      next hBad => exact absurd h (hBad _ _)
    next hLevel =>
      simp only [Production.exec] at h
      exact unary_stops hFunction hHead hNext hWords steps h

theorem ternary_stops (hFunction : u.current.kind = .keyword .function)
    (hHead : s.current.kind = .identifier) (hNext : s.window.next = .symbol .dot)
    (hWords : DotWords s.advance u) (steps : Nat) {f : Frame} {parts : List Tree} {v : ParserState}
    (h : run steps σ .ternary f s = .parsed parts v) : v = u := by
  cases steps with
  | zero => cases h
  | succ steps =>
    simp only [run, Goal.production, ternary, Production.exec] at h
    split at h
    next mid s₁ hParsed =>
      rw [binary_stops hFunction hHead hNext hWords steps hParsed, ParserState.window_here,
        hFunction] at h
      cases h
      rfl
    next hBad => exact absurd h (hBad _ _)

theorem expression_stops (hFunction : u.current.kind = .keyword .function)
    (hHead : s.current.kind = .identifier) (hNext : s.window.next = .symbol .dot)
    (hWords : DotWords s.advance u) (steps : Nat) {f : Frame} {parts : List Tree} {v : ParserState}
    (h : run steps σ .expression f s = .parsed parts v) : v = u := by
  cases steps with
  | zero => cases h
  | succ steps =>
    simp only [run, Goal.production, expression, Production.exec] at h
    split at h
    next mid s₁ hParsed =>
      rw [ternary_stops hFunction hHead hNext hWords steps hParsed, ParserState.window_here,
        hFunction] at h
      cases h
      rfl
    next hBad => exact absurd h (hBad _ _)

/-- A strict parse gets no expression statement out of a dotted word in front of `function`. -/
theorem expressionStatement_not_parsed (hStrict : σ.strict = true)
    (hFunction : u.current.kind = .keyword .function) (hHead : s.current.kind = .identifier)
    (hNext : s.window.next = .symbol .dot) (hWords : DotWords s.advance u) (steps : Nat)
    (parts : List Tree) (v : ParserState) :
    expressionStatement.exec (run steps) σ (.start s) s ≠ .parsed parts v := by
  intro h
  have hFindings : u.findings.length = s.findings.length := by
    rw [hWords.findings_eq]
    rfl
  simp only [expressionStatement, Production.exec] at h
  split at h
  next mid s₁ hParsed =>
    rw [expression_stops hFunction hHead hNext hWords steps hParsed] at h
    simp [terminated, ended, unended, Production.exec, hFunction, hStrict, hFindings, Frame.append,
      Frame.start, closers] at h
  next hBad => exact absurd h (hBad _ _)

end

/-! ## Functions with a dotted return type -/

/-- A parse that goes on without a token that is expected has found something. -/
theorem expect_finds {steps : Nat} {kind : TokenKind} {next : Production} {f : Frame}
    {s s' : ParserState} {parts : List Tree}
    (h : (Production.expect kind next).exec (run steps) .lenient f s = .parsed parts s') :
    s.current.kind = kind ∨
      (s.findings.length < s'.findings.length ∧ s.stream.pos ≤ s'.stream.pos) := by
  unfold Production.exec at h
  split at h
  next hKind => exact .inl hKind
  next hKind =>
    split at h
    · cases h
    · obtain ⟨ls, hAdds⟩ := exec_adds (run_adds steps) next _ _ _ _ _ h
      have hReport : (s.report (.expectedToken kind)).findings.length = s.findings.length + 1 :=
        s.findings.length_push _
      have hFindings := hAdds.length_findings_le
      have hPos : s'.stream.pos = s.stream.pos + (Leaf.passed ls).length := hAdds.passes.pos_eq
      refine .inr ⟨?_, ?_⟩
      · omega
      · omega

/-- A parse that takes what begins with a dotted word for a function finds a fault, unless
`function` stands right behind the dotted word. -/
theorem functionDeclaration_finds {s s' : ParserState} {parts : List Tree} (steps : Nat)
    (hHead : s.current.kind = .identifier) (hNext : s.window.next = .symbol .dot)
    (h : functionDeclaration.exec (run steps) .lenient (.start s) s = .parsed parts s') :
    (∃ u, DotWords s.advance u ∧ u.current.kind = .keyword .function) ∨
      (s.findings.length < s'.findings.length ∧ s.stream.pos < s'.stream.pos) := by
  cases steps with
  | zero => simp [functionDeclaration, Production.exec, run] at h
  | succ steps =>
    have hModifiers : run (steps + 1) .lenient .modifiers (.start s) s = .parsed [] s := by
      simp [run, Goal.production, modifierWords, Production.exec, hHead, hNext, Frame.start]
    have hOther : (TokenKind.identifier = .keyword .function) = False := by simp
    simp only [functionDeclaration, dottedName, Production.exec, hModifiers,
      ParserState.window_here, hHead, hOther, if_false, TokenKind.isWord, if_true] at h
    split at h
    next mid u hInner =>
      split at hInner
      next words v hWords =>
        cases hInner
        have hTail := DotWords.of_dottedTail (steps + 1) hWords
        have hStep : s.advance.stream.pos = s.stream.pos + 1 :=
          (ParserState.passes_advance (by simp [hHead])).pos_eq
        have hPos := hTail.pos_le
        have hFindings : u.findings.length = s.findings.length := by
          rw [hTail.findings_eq]
          rfl
        rcases expect_finds h with hFunction | ⟨hFound, hMoved⟩
        · exact .inl ⟨u, hTail, hFunction⟩
        · refine .inr ⟨?_, ?_⟩
          · omega
          · omega
      next hBad => exact absurd hInner (hBad _ _)
    next hBad => exact absurd h (hBad _ _)

end CfScript
