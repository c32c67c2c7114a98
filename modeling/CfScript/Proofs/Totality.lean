import CfScript.Proofs.Conduct
import CfScript.Proofs.Coverage

/-!
# Every input is parsed

A parse with general prediction that is not an attempt has an answer to every stream, from every
place of it: it gives a tree and stops at the end of the input. It never bails, since it repairs
each fault where it finds it, and it never runs out of steps, since a goal that takes no token only
asks for goals of lower rank. Its loops over statements move on by at least one token each time.

## Main results

* `exec_ne_bailed`, `run_ne_bailed`: only strict runs bail;
* `run_lenient`: every goal gives parts;
* `listed_moves`: a statement of a list takes a token;
* `run_eq_parseGoal`: more steps than are enough change nothing;
* `parse_general`: what a parse with general prediction gives.
-/

namespace CfScript

/-- How a parse with general prediction runs where it is not taken back. -/
def Setting.lenient : Setting := ⟨.general, false⟩

/-! ## No bail -/

/-- A production bails in a strict run only, if that holds of all that it calls. An attempt is
strict, but its bail goes no further. -/
theorem exec_ne_bailed {call : Setting → Goal → Frame → ParserState → Outcome}
    (hCall : ∀ σ goal f s, σ.strict = false → ∀ bail s', call σ goal f s ≠ .bailed bail s')
    (p : Production) :
    ∀ σ f s, σ.strict = false → ∀ bail s', p.exec call σ f s ≠ .bailed bail s' := by
  induction p with
  | done =>
    intro σ f s hLenient bail s' h
    cases h
  | take next ih =>
    intro σ f s hLenient
    exact ih σ _ s.advance hLenient
  | expect kind next ih =>
    intro σ f s hLenient bail s'
    simp only [Production.exec, hLenient]
    split
    · exact ih σ _ _ hLenient bail s'
    · exact ih σ _ _ hLenient bail s'
  | word next ih =>
    intro σ f s hLenient bail s'
    simp only [Production.exec, hLenient]
    split
    · exact ih σ _ _ hLenient bail s'
    · exact ih σ _ _ hLenient bail s'
  | assume fault next ih =>
    intro σ f s hLenient bail s'
    simp only [Production.exec, hLenient]
    exact ih σ _ _ hLenient bail s'
  | reject fault next ih =>
    intro σ f s hLenient bail s'
    simp only [Production.exec, hLenient]
    exact ih σ _ _ hLenient bail s'
  | skip next ih =>
    intro σ f s hLenient bail s'
    simp only [Production.exec, hLenient]
    exact ih σ _ _ hLenient bail s'
  | recover next ih =>
    intro σ f s hLenient
    exact ih σ _ _ hLenient
  | parse goal next ih =>
    intro σ f s hLenient bail s'
    have hGoal := hCall σ goal (.start s) s hLenient bail s'
    unfold Production.exec
    split
    · exact ih σ _ _ hLenient bail s'
    · exact hGoal
  | node rule inner next ihInner ih =>
    intro σ f s hLenient bail s'
    have hInner := ihInner σ (.start s) s hLenient bail s'
    unfold Production.exec
    split
    · exact ih σ _ _ hLenient bail s'
    · exact hInner
  | close rule next ih =>
    intro σ f s hLenient
    exact ih σ _ s hLenient
  | again goal => exact fun σ f s => hCall σ goal f s
  | progress goal stuck next ihStuck ih =>
    intro σ f s hLenient bail s'
    have hGoal := hCall σ goal (.start s) s hLenient bail s'
    unfold Production.exec
    split
    · split
      · exact ihStuck σ _ _ hLenient bail s'
      · exact ih σ _ _ hLenient bail s'
    · exact hGoal
  | look choose ih => exact fun σ f s => ih s.window σ f s
  | spell choose ih => exact fun σ f s => ih (Text.fold s.current.lexeme) σ f s
  | scan decision test yes no ihYes ihNo =>
    intro σ f s hLenient bail s'
    obtain ⟨prediction, trying⟩ := σ
    cases prediction with
    | fast => cases hLenient
    | general =>
      simp only [Production.exec]
      split
      · exact ihYes _ _ _ hLenient bail s'
      · exact ihNo _ _ _ hLenient bail s'
  | trial decision attempt follow yes no ihAttempt ihYes ihNo =>
    intro σ f s hLenient bail s'
    obtain ⟨prediction, trying⟩ := σ
    cases prediction with
    | fast => cases hLenient
    | general =>
      simp only [Production.exec]
      split
      · intro h
        cases h
      · exact ihNo _ _ _ hLenient bail s'
      · split
        · exact ihYes _ _ _ hLenient bail s'
        · exact ihNo _ _ _ hLenient bail s'
  | single yes no ihYes ihNo =>
    intro σ f s hLenient bail s'
    unfold Production.exec
    split
    · exact ihYes σ f s hLenient bail s'
    · exact ihNo σ f s hLenient bail s'
  | troubled yes no ihYes ihNo =>
    intro σ f s hLenient bail s'
    unfold Production.exec
    split
    · exact ihYes σ f s hLenient bail s'
    · exact ihNo σ f s hLenient bail s'

theorem run_ne_bailed (steps : Nat) :
    ∀ σ goal f s, σ.strict = false → ∀ bail s', run steps σ goal f s ≠ .bailed bail s' := by
  induction steps with
  | zero =>
    intro σ goal f s hLenient bail s' h
    cases h
  | succ steps ih => exact fun σ goal f s => exec_ne_bailed ih goal.production σ f s

/-! ## Parts for every goal -/

/-- With enough steps every goal gives parts, whatever the tokens are. -/
theorem run_lenient {steps : Nat} {goal : Goal} (f : Frame) (s : ParserState)
    (hBlame : goal.NeedsBlame → 0 < s.findings.length)
    (hSteps : 64 * s.stream.rest.length + goal.rank < steps) :
    ∃ parts s' ls, run steps .lenient goal f s = .parsed parts s' ∧
      Adds .lenient f.parts s ls parts s' ∧ Lawful .lenient False [] s ls [] s' := by
  have hEnds := run_answers steps .lenient goal f s hBlame hSteps
  cases hOutcome : run steps .lenient goal f s with
  | unfinished =>
    rw [hOutcome] at hEnds
    exact hEnds.elim
  | bailed bail s' => exact absurd hOutcome (run_ne_bailed steps .lenient goal f s rfl bail s')
  | parsed parts s' =>
    rw [hOutcome] at hEnds
    obtain ⟨ls, hAdds, hLawful⟩ := hEnds
    exact ⟨parts, s', ls, rfl, hAdds, hLawful⟩

/-- Before the end of the input a statement of a list takes a token, even if only to skip it. -/
theorem listed_moves {steps : Nat} (f : Frame) {s : ParserState} (hSteps : enough s ≤ steps)
    (hEnd : s.stream.atEnd = false) :
    ∃ parts s', (Grammar.listed .done).exec (run steps) .lenient f s = .parsed parts s' ∧
      s.stream.pos < s'.stream.pos := by
  have hEnough : 64 * s.stream.rest.length + Goal.statement.rank < steps := by
    have hRank := Goal.statement.rank_lt
    rw [enough] at hSteps
    omega
  obtain ⟨parts, s₁, ls, hParsed, hAdds, -⟩ :=
    run_lenient (.start s) s (by simp [Goal.NeedsBlame]) hEnough
  by_cases hPos : s₁.stream.pos = s.stream.pos
  · refine ⟨f.parts ++ [.skipped s.current], (s.report .expectedStatement).advance, ?_, ?_⟩
    · simp only [Grammar.listed, Production.exec, hParsed, hPos, if_true, hAdds.undone hPos]
      rfl
    · have hStep : (s.report .expectedStatement).advance.stream.pos = s.stream.pos + 1 :=
        (TokenStream.passes_advance hEnd).pos_eq
      omega
  · refine ⟨f.parts ++ parts, s₁, ?_, ?_⟩
    · simp only [Grammar.listed, Production.exec, hParsed, hPos, if_false]
      rfl
    · have hLe := hAdds.passes.pos_eq
      omega

/-! ## Parses -/

/-- More steps than are enough do not change how a goal is parsed. -/
theorem run_eq_parseGoal {steps : Nat} {s : ParserState} (σ : Setting) (goal : Goal)
    (hBlame : goal.NeedsBlame → 0 < s.findings.length) (hSteps : enough s ≤ steps) :
    run steps σ goal (.start s) s = parseGoal σ goal s ∧ parseGoal σ goal s ≠ .unfinished := by
  have hAnswers := parseGoal_answers σ goal s hBlame
  have hEnds : parseGoal σ goal s ≠ .unfinished := by
    intro hUnfinished
    rw [hUnfinished] at hAnswers
    exact hAnswers
  exact ⟨run_mono hSteps hEnds, hEnds⟩

theorem Entry.not_needsBlame (entry : Entry) : ¬ entry.goal.NeedsBlame := by
  cases entry <;> simp [Goal.NeedsBlame, Entry.goal]

/-- A parser with general prediction gives a tree of any stream. -/
theorem Parser.parse_lenient (p : Parser) (entry : Entry) (hGeneral : p.prediction = .general) :
    ∃ tree q, p.parse entry = (.ok tree, q) ∧ q.stream.atEnd = true ∧
      q.stream.tokens = p.stream.tokens := by
  obtain ⟨stream, prediction, findings⟩ := p
  cases hGeneral
  have hSteps : 64 * stream.rest.length + entry.goal.rank < enough ⟨stream, findings⟩ := by
    have hRank := entry.goal.rank_lt
    simp only [enough]
    omega
  obtain ⟨parts, s', ls, hParsed, hAdds, -⟩ := run_lenient (.start ⟨stream, findings⟩)
    ⟨stream, findings⟩ (entry.not_needsBlame · |>.elim) hSteps
  exact ⟨.node entry.rule parts, ⟨s'.stream, .general, s'.findings⟩,
    Parser.parse_eq_ok_iff.2 ⟨parts, rfl, rfl, hParsed⟩, (Finished.of_entry entry _ hParsed).1,
    hAdds.passes.tokens_eq⟩

/-- A parser with general prediction gives a tree and stops at the end of the input, whatever its
stream is, wherever it stands and whatever it has found. Before the end of the input it moves on
with each statement of a list. -/
theorem parse_general (p : Parser) (entry : Entry) (hGeneral : p.prediction = .general) :
    (∃ tree q, p.parse entry = (.ok tree, q) ∧ q.stream.atEnd = true ∧
        q.stream.tokens = p.stream.tokens) ∧
      (p.stream.atEnd = false → ∀ steps f, enough ⟨p.stream, p.findings⟩ ≤ steps →
        ∃ parts s', (Grammar.listed .done).exec (run steps) ⟨p.prediction, false⟩ f
            ⟨p.stream, p.findings⟩ = .parsed parts s' ∧
          p.stream.pos < s'.stream.pos) := by
  constructor
  · exact p.parse_lenient entry hGeneral
  · intro hEnd steps f hSteps
    rw [hGeneral]
    exact listed_moves f hSteps hEnd

/-- A closing parenthesis alone is no statement, and is passed all the same. -/
theorem parse_general_paren :
    let paren : Token := ⟨.symbol .rParen, ")", ⟨.ofNat 0, .ofNat 1, by decide⟩, 1⟩
    let p : Parser := ⟨⟨[], [paren], .endAt 1 1, rfl⟩, .general, .empty⟩
    let s : ParserState := ⟨p.stream, p.findings⟩
    p.prediction = .general ∧ p.stream.atEnd = false ∧ enough s ≤ 192 ∧
      (∃ tree q, p.parse .script = (.ok tree, q) ∧ q.stream.atEnd = true ∧
        q.stream.tokens = p.stream.tokens) ∧
      ∃ parts s', (Grammar.listed .done).exec (run 192) ⟨p.prediction, false⟩ (.start s) s =
          .parsed parts s' ∧
        p.stream.pos < s'.stream.pos := by
  intro paren p s
  have hParse := parse_general p .script rfl
  exact ⟨rfl, rfl, by decide, hParse.1, hParse.2 rfl 192 (.start s) (by decide)⟩

end CfScript
