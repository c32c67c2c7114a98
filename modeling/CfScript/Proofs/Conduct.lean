import CfScript.Proofs.GrammarContract
import CfScript.Proofs.Nesting
import Mathlib.Data.List.Infix

/-!
# What the contract is worth

A production that keeps the contract of the grammar ends on every stream, however broken, and what
it adds is *lawful*: where nothing is wrong the delimiters of its leaves are nested, an error among
them never comes without a finding, and no invalid token is taken as if nothing was wrong.

The facts of the check are read as statements about the state where an action begins. Each action is
shown to lead from facts that hold to facts that hold, which gives runs by induction on the
production. Runs of goals follow by induction on the steps: from one token that is taken to the next
the rank of the goals falls, so the steps of a goal are bounded by the tokens that are left and its
rank.

## Main results

* `Lawful.trans`, `Meets.after`: lawful runs one after the other;
* `Behaves`, with one theorem for each action;
* `exec_keeps`: what a production that keeps the contract does;
* `run_answers`, `parseGoal_answers`: what every goal does.
-/

namespace CfScript

/-! ## The tokens ahead -/

theorem TokenStream.current_mem_tokens (s : TokenStream) : s.current ∈ s.tokens := by
  cases hRest : s.rest <;> simp [current, tokens, body, hRest]

namespace ParserState

variable {s s' : ParserState} {ts : List Token}

theorem kindsAhead_eq (h : s.stream.Passes ts s'.stream) :
    s.kindsAhead = ts.map (·.kind) ++ s'.kindsAhead := by
  rw [kindsAhead, kindsAhead, h.rest, h.last, List.map_append, List.append_assoc]

theorem head?_kindsAhead (s : ParserState) : s.kindsAhead.head? = some s.current.kind := by
  cases hRest : s.stream.rest <;> simp [kindsAhead, current, TokenStream.current, hRest]

theorem length_report_pos (s : ParserState) (fault : Fault) :
    0 < (s.report fault).findings.length := by
  simp [report, Log.push, Log.length]

theorem window_eq_of_stream (h : s'.stream = s.stream) : s'.window = s.window := by
  rw [window, window, h]

/-- A step forward shows the next two tokens of the window first. -/
theorem window_advance (h : s.current.kind ≠ .endOfInput) :
    s.window.kinds.tail <+: s.advance.window.kinds := by
  have hPasses := passes_advance h
  have hPeek : ∀ n, s.advance.stream.peek n = s.stream.peek (n + 1) := by
    intro n
    simp [TokenStream.peek, hPasses.rest, hPasses.last]
  simp [Window.kinds, window, hPeek]

end ParserState

theorem Goal.opened_facts (goal : Goal) : goal.facts.opened = [] := by
  cases goal <;> rfl

/-! ## Facts that hold -/

/-- Whether facts hold at a state, in a goal that began with `n` tokens left. Once something was
found wrong, nothing is said of arrows. -/
structure Facts.Holds (φ : Facts) (spoilt : Prop) (n : Nat) (s : ParserState) : Prop where
  sees : φ.ahead <+: s.window.kinds
  fits : s.stream.rest.length ≤ n
  moved : φ.moved = true → s.stream.rest.length < n
  blamed : φ.blamed = true → 0 < s.findings.length
  arrow : spoilt ∨ φ.arrow.Stands s.kindsAhead

/-- Whether leaves of a run with setting `σ` are lawful: their delimiters are nested, errors among
them are reported, and invalid tokens are errors. What was found wrong excuses delimiters that are
not nested; an invalid token excuses an error without a finding: the scanner has reported it. -/
structure Lawful (σ : Setting) (spoilt : Prop) (ds : List Delimiter) (s : ParserState)
    (ls : List Leaf) (es : List Delimiter) (s' : ParserState) : Prop where
  nested : spoilt ∨ ls.any (·.isError) = true ∨
    Delimiter.nestAll ds ((Leaf.passed ls).map (·.kind)) = some es
  excused : ls.any (·.isError) = true →
    0 < s'.findings.length ∨ (σ.strict = false ∧ ∃ t ∈ s.stream.tokens, t.kind = .invalid)
  exposed : ∀ t, .matched t ∈ ls → t.kind = .invalid → spoilt ∨ ls.any (·.isError) = true

namespace Lawful

variable {σ : Setting} {spoilt : Prop} {ds es gs : List Delimiter} {s s' s'' : ParserState}
  {ls ms : List Leaf} {ps qs rs : List Tree}

theorem refl : Lawful σ spoilt ds s [] ds s' where
  nested := .inr (.inr rfl)
  excused h := by simp at h
  exposed t h := by simp at h

theorem trans (hAdds : Adds σ ps s ls qs s') (hAdds' : Adds σ qs s' ms rs s'')
    (h : Lawful σ spoilt ds s ls es s')
    (h' : Lawful σ (spoilt ∨ ls.any (·.isError) = true) es s' ms gs s'') :
    Lawful σ spoilt ds s (ls ++ ms) gs s'' where
  nested := by
    rw [List.any_append, Bool.or_eq_true]
    rcases h.nested with hSpoilt | hError | hNest
    · exact .inl hSpoilt
    · exact .inr (.inl (.inl hError))
    rcases h'.nested with (hSpoilt | hError) | hError | hNest'
    · exact .inl hSpoilt
    · exact .inr (.inl (.inl hError))
    · exact .inr (.inl (.inr hError))
    · refine .inr (.inr ?_)
      rw [Leaf.passed_append, List.map_append, Delimiter.nestAll_append hNest]
      exact hNest'
  excused hError := by
    rw [List.any_append, Bool.or_eq_true] at hError
    rcases hError with hError | hError
    · rcases h.excused hError with hFound | hInvalid
      · exact .inl (Nat.lt_of_lt_of_le hFound hAdds'.length_findings_le)
      · exact .inr hInvalid
    · rcases h'.excused hError with hFound | hInvalid
      · exact .inl hFound
      · rw [hAdds.passes.tokens_eq] at hInvalid
        exact .inr hInvalid
  exposed t hMem hKind := by
    rw [List.any_append, Bool.or_eq_true]
    rcases List.mem_append.1 hMem with hMem | hMem
    · rcases h.exposed t hMem hKind with hSpoilt | hError
      · exact .inl hSpoilt
      · exact .inr (.inl hError)
    · rcases h'.exposed t hMem hKind with (hSpoilt | hError) | hError
      · exact .inl hSpoilt
      · exact .inr (.inl hError)
      · exact .inr (.inr hError)

/-- Delimiters that were open before lawful leaves are open after them. -/
theorem frame (h : Lawful σ spoilt [] s ls [] s') (ds : List Delimiter) :
    Lawful σ spoilt ds s ls ds s' where
  nested := by
    rcases h.nested with hSpoilt | hError | hNest
    · exact .inl hSpoilt
    · exact .inr (.inl hError)
    · exact .inr (.inr (Delimiter.nestAll_frame hNest ds))
  excused := h.excused
  exposed := h.exposed

theorem weaken (h : Lawful σ False ds s ls es s') : Lawful σ spoilt ds s ls es s' where
  nested := h.nested.imp False.elim id
  excused := h.excused
  exposed t hMem hKind := (h.exposed t hMem hKind).imp False.elim id

/-- Errors are lawful if they are excused. -/
theorem of_isError (hError : ls.any (·.isError) = true)
    (hExcuse : 0 < s'.findings.length ∨
      (σ.strict = false ∧ ∃ t ∈ s.stream.tokens, t.kind = .invalid)) :
    Lawful σ spoilt ds s ls es s' where
  nested := .inr (.inl hError)
  excused _ := hExcuse
  exposed _ _ _ := .inr hError

/-- A token that is taken is lawful if its kind keeps the delimiters nested. -/
theorem take {t : Token} {kind : TokenKind} (hKind : t.kind = kind) (hEnd : kind ≠ .endOfInput)
    (hInvalid : kind ≠ .invalid) (hNest : Delimiter.nest ds kind = some es) :
    Lawful σ spoilt ds s [.matched t] es s' where
  nested := by
    have hPassed : Leaf.passed [.matched t] = [t] := by
      simp [Leaf.passed, Leaf.token?, Token.isEnd, hKind, hEnd]
    rw [hPassed, List.map_singleton, Delimiter.nestAll_singleton, hKind]
    exact .inr (.inr hNest)
  excused h := by simp [Leaf.isError] at h
  exposed u hMem hIs := by
    have hToken : u = t := by simpa using hMem
    rw [hToken, hKind] at hIs
    exact absurd hIs hInvalid

theorem takeEnd {t : Token} (hKind : t.kind = .endOfInput) :
    Lawful σ spoilt ds s [.matched t] ds s' where
  nested := by
    have hPassed : Leaf.passed [.matched t] = [] := by
      simp [Leaf.passed, Leaf.token?, Token.isEnd, hKind]
    rw [hPassed]
    exact .inr (.inr rfl)
  excused h := by simp [Leaf.isError] at h
  exposed u hMem hIs := by
    have hToken : u = t := by simpa using hMem
    rw [hToken, hKind] at hIs
    cases hIs

/-- Whatever is taken after something was found wrong is lawful. -/
theorem take_of_spoilt {t : Token} (hSpoilt : spoilt) :
    Lawful σ spoilt ds s [.matched t] es s' where
  nested := .inl hSpoilt
  excused h := by simp [Leaf.isError] at h
  exposed _ _ _ := .inl hSpoilt

/-- The semicolon after a broken statement is lawful, and so are the skipped tokens before it. -/
theorem recover (hFound : 0 < s'.findings.length) :
    Lawful σ spoilt ds s (Adds.recovered s) ds s' := by
  by_cases hError : (Adds.recovered s).any (·.isError) = true
  · exact .of_isError hError (.inl hFound)
  · have hSkipped : (Token.skipStatement .empty s.stream.rest).1 = [] := by
      cases hTokens : (Token.skipStatement .empty s.stream.rest).1 with
      | nil => rfl
      | cons t ts => simp [Adds.recovered, hTokens, Leaf.isError] at hError
    cases hLast : (Token.skipStatement .empty s.stream.rest).2 with
    | none =>
      rw [Adds.recovered, hSkipped, hLast]
      exact refl
    | some t =>
      rw [Adds.recovered, hSkipped, hLast]
      exact take (Token.skipStatement_semicolon hLast) (by simp) (by simp) rfl

end Lawful

namespace Facts.Holds

variable {φ : Facts} {spoilt : Prop} {n : Nat} {s s' : ParserState} {σ : Setting}
  {ps qs : List Tree} {ls : List Leaf}

/-- What is known where a goal begins holds there. -/
theorem of_goal {goal : Goal} (hBlame : goal.NeedsBlame → 0 < s.findings.length) :
    goal.facts.Holds False s.stream.rest.length s := by
  have hNothing : Facts.Holds {} False s.stream.rest.length s :=
    ⟨List.nil_prefix, Nat.le_refl _, by simp, by simp, .inr trivial⟩
  cases goal with
  | leftovers =>
    exact ⟨List.nil_prefix, Nat.le_refl _, by simp [Goal.facts], fun _ => hBlame rfl, .inr trivial⟩
  | _ => exact hNothing

theorem weaken {more : Prop} (h : φ.Holds spoilt n s) : φ.Holds (spoilt ∨ more) n s where
  sees := h.sees
  fits := h.fits
  moved := h.moved
  blamed := h.blamed
  arrow := h.arrow.imp .inl id

/-- The kinds that are known to stand ahead begin with the kind of the current token. -/
theorem eq_current {k : TokenKind} {ks : List TokenKind} (h : φ.Holds spoilt n s)
    (hAhead : φ.ahead = k :: ks) : s.current.kind = k := by
  have hSees := h.sees
  rw [hAhead] at hSees
  exact s.window_here.symm.trans (List.cons_prefix_cons.1 hSees).1.symm

theorem eq_of_mem_head? {k : TokenKind} (h : φ.Holds spoilt n s) (hHead : k ∈ φ.ahead.head?) :
    s.current.kind = k := by
  obtain ⟨ks, hAhead⟩ := List.head?_eq_some_iff.1 hHead
  exact h.eq_current hAhead

theorem take {kind : TokenKind} (h : φ.Holds spoilt n s) (hKind : s.current.kind = kind)
    (hEnd : kind ≠ .endOfInput) (es : List Delimiter) :
    (φ.take kind es).Holds spoilt n s.advance := by
  have hOpen : s.current.kind ≠ .endOfInput := by rwa [hKind]
  have hPasses := ParserState.passes_advance hOpen
  have hLength := hPasses.length_rest
  have hFits := h.fits
  rw [List.length_singleton] at hLength
  refine ⟨?_, ?_, fun _ => ?_, h.blamed, ?_⟩
  · have hTail : φ.ahead.tail <+: s.window.kinds.tail := by
      simpa using List.IsPrefix.drop h.sees 1
    exact hTail.trans (ParserState.window_advance hOpen)
  · omega
  · omega
  · refine h.arrow.imp id fun hStands => ?_
    rw [ParserState.kindsAhead_eq hPasses, List.map_singleton, hKind] at hStands
    exact Arrow.stands_pass hStands

/-- What is known without a look ahead is known after any step forward. -/
theorem step (h : φ.Holds spoilt n s) : (φ.blur .unknown).Holds spoilt n s.advance where
  sees := List.nil_prefix
  fits := Nat.le_trans s.length_rest_advance_le h.fits
  moved hMoved := Nat.lt_of_le_of_lt s.length_rest_advance_le (h.moved hMoved)
  blamed := h.blamed
  arrow := .inr trivial

theorem skip (h : φ.Holds spoilt n s) : φ.skip.Holds spoilt n s.advance where
  sees := List.nil_prefix
  fits := Nat.le_trans s.length_rest_advance_le h.fits
  moved hMoved := by
    rw [Facts.skip, Bool.or_eq_true] at hMoved
    rcases hMoved with hMoved | hAhead
    · exact Nat.lt_of_le_of_lt s.length_rest_advance_le (h.moved hMoved)
    · rw [Option.any_eq_true] at hAhead
      obtain ⟨k, hHead, hEnd⟩ := hAhead
      have hOpen : s.current.kind ≠ .endOfInput := by
        rw [h.eq_of_mem_head? hHead]
        simpa using hEnd
      have hLength := (ParserState.passes_advance hOpen).length_rest
      have hFits := h.fits
      rw [List.length_singleton] at hLength
      omega
  blamed := h.blamed
  arrow := .inr trivial

/-- A word leaves an arrow where it is. -/
theorem takeWord (h : φ.Holds spoilt n s) (hWord : s.current.kind.isWord = true) :
    { φ.cross with ahead := φ.ahead.tail }.Holds spoilt n s.advance := by
  have hPlain := TokenKind.isPlain_of_isWord hWord
  have hEnd := TokenKind.ne_endOfInput_of_isPlain hPlain
  have hTaken := h.take rfl hEnd φ.opened
  refine ⟨hTaken.sees, hTaken.fits, hTaken.moved, hTaken.blamed, ?_⟩
  refine h.arrow.imp id fun hStands => ?_
  rw [ParserState.kindsAhead_eq (ParserState.passes_advance hEnd)] at hStands
  refine Arrow.stands_across ?_ hStands
  rw [List.map_singleton, Delimiter.nestAll_singleton, Delimiter.nest_of_isPlain hPlain]

/-- What is known after a part is assumed: no more than before, but that something was found. -/
theorem assumed {ψ : Facts} {found : Prop} (h : φ.Holds spoilt n s) (fault : Fault) (hFound : found)
    (hAhead : ψ.ahead <+: φ.ahead) (hMoved : ψ.moved = φ.moved) :
    ψ.Holds (spoilt ∨ found) n (s.report fault) where
  sees := hAhead.trans h.sees
  fits := h.fits
  moved hIs := h.moved (hMoved ▸ hIs)
  blamed _ := s.length_report_pos fault
  arrow := .inl (.inr hFound)

/-- The calls that may be made where facts hold. -/
theorem reaches {rank r : Nat} (h : φ.Holds spoilt n s) (hRank : φ.moved = true ∨ rank < r) :
    s.stream.rest.length < n ∨ (s.stream.rest.length ≤ n ∧ rank < r) :=
  hRank.imp h.moved fun hLt => ⟨h.fits, hLt⟩

/-- What is known after a goal that took a token. -/
theorem cross (h : φ.Holds spoilt n s) (hAdds : Adds σ ps s ls qs s')
    (hLawful : Lawful σ False [] s ls [] s')
    (hMoved : φ.moved = true ∨ Leaf.passed ls ≠ []) :
    φ.cross.Holds (spoilt ∨ ls.any (·.isError) = true) n s' := by
  have hLength := hAdds.passes.length_rest
  have hFits := h.fits
  refine ⟨List.nil_prefix, ?_, fun _ => ?_, fun hBlamed => ?_, ?_⟩
  · omega
  · rcases hMoved with hMoved | hPassed
    · have hLt := h.moved hMoved
      omega
    · have hPos := List.length_pos_iff.2 hPassed
      omega
  · exact Nat.lt_of_lt_of_le (h.blamed hBlamed) hAdds.length_findings_le
  · rcases h.arrow with hSpoilt | hStands
    · exact .inl (.inl hSpoilt)
    rcases hLawful.nested with hFalse | hError | hNest
    · exact hFalse.elim
    · exact .inl (.inr hError)
    · rw [ParserState.kindsAhead_eq hAdds.passes] at hStands
      exact .inr (Arrow.stands_across hNest hStands)

/-- What is known after a goal that took no token. -/
theorem stay (h : φ.Holds spoilt n s) (hAdds : Adds σ ps s ls qs s')
    (hStay : Leaf.passed ls = []) :
    { φ with arrow := φ.arrow.across }.Holds (spoilt ∨ ls.any (·.isError) = true) n s' := by
  have hPasses := hAdds.passes
  rw [hStay] at hPasses
  have hStream := hPasses.eq_of_nil
  refine ⟨?_, ?_, fun hMoved => ?_, fun hBlamed => ?_, ?_⟩
  · rw [ParserState.window_eq_of_stream hStream]
    exact h.sees
  · rw [hStream]
    exact h.fits
  · rw [hStream]
    exact h.moved hMoved
  · exact Nat.lt_of_lt_of_le (h.blamed hBlamed) hAdds.length_findings_le
  · rcases h.arrow with hSpoilt | hStands
    · exact .inl (.inl hSpoilt)
    · rw [ParserState.kindsAhead_eq hPasses] at hStands
      exact .inr (Arrow.stands_across rfl hStands)

end Facts.Holds

/-! ## Runs -/

/-- Whether a run ends, and does as said if it gives parts. -/
def Outcome.Meets (P : List Tree → ParserState → Prop) : Outcome → Prop
  | .parsed parts s => P parts s
  | .bailed _ _ => True
  | .unfinished => False

/-- A run that gives no parts does whatever is said of parts. -/
theorem Outcome.Meets.stop {P P' : List Tree → ParserState → Prop} {o : Outcome}
    (hNot : ∀ parts s, o = .parsed parts s → False) (h : o.Meets P) : o.Meets P' := by
  cases o with
  | parsed parts s => exact (hNot parts s rfl).elim
  | bailed bail s => trivial
  | unfinished => exact h

/-- What a production that keeps the contract does, from the parts `ps` at `s` with the delimiters
`ds` open: what it adds is lawful and closes them, and it ends where facts with `Q` hold. -/
def Conduct (σ : Setting) (spoilt : Prop) (n : Nat) (ds : List Delimiter) (ps : List Tree)
    (s : ParserState) (Q : Facts → Prop) (qs : List Tree) (s' : ParserState) : Prop :=
  ∃ ls ψ, Adds σ ps s ls qs s' ∧ Lawful σ spoilt ds s ls [] s' ∧
    ψ.Holds (spoilt ∨ ls.any (·.isError) = true) n s' ∧ ψ.opened = [] ∧ Q ψ

/-- What a run does is what its first leaves and the rest of the run do. -/
theorem Outcome.Meets.after {σ : Setting} {spoilt : Prop} {n : Nat} {ds es : List Delimiter}
    {ps qs : List Tree} {s s₁ : ParserState} {ls : List Leaf} {Q : Facts → Prop} {o : Outcome}
    (hAdds : Adds σ ps s ls qs s₁) (hLawful : Lawful σ spoilt ds s ls es s₁)
    (h : o.Meets (Conduct σ (spoilt ∨ ls.any (·.isError) = true) n es qs s₁ Q)) :
    o.Meets (Conduct σ spoilt n ds ps s Q) := by
  cases o with
  | bailed bail s' => trivial
  | unfinished => exact h
  | parsed parts s' =>
    obtain ⟨ms, ψ, hAdds', hLawful', hHolds, hOpened, hQ⟩ := h
    refine ⟨ls ++ ms, ψ, hAdds.trans hAdds', hLawful.trans hAdds hAdds' hLawful', ?_, hOpened, hQ⟩
    rw [List.any_append, Bool.or_eq_true, ← or_assoc]
    exact hHolds

/-- Whether calls with fewer than `n` tokens left, or with no more and for a goal of lower rank than
`r`, do what is asked of goals. -/
def Answers (call : Setting → Goal → Frame → ParserState → Outcome) (n r : Nat) : Prop :=
  ∀ σ goal f s,
    (s.stream.rest.length < n ∨ (s.stream.rest.length ≤ n ∧ goal.rank < r)) →
      (goal.NeedsBlame → 0 < s.findings.length) →
        (call σ goal f s).Meets fun qs s' =>
          ∃ ls, Adds σ f.parts s ls qs s' ∧ Lawful σ False [] s ls [] s'

/-! ## Single actions -/

/-- Whether a production, wherever it keeps the contract, ends and does what is asked of it. -/
def Production.Behaves (call : Setting → Goal → Frame → ParserState → Outcome) (n r : Nat)
    (p : Production) : Prop :=
  ∀ ⦃Q φ spoilt ds σ f s⦄, p.Keeps r Q φ → φ.Holds spoilt n s → φ.opened = ds →
    (p.exec call σ f s).Meets (Conduct σ spoilt n ds f.parts s Q)

namespace Production.Behaves

variable {call : Setting → Goal → Frame → ParserState → Outcome} {n r : Nat}
  {next inner stuck attempt yes no : Production}

theorem done : Production.done.Behaves call n r := by
  intro Q φ spoilt ds σ f s hKeeps h hDs
  have hNil : ds = [] := hDs ▸ hKeeps.1
  rw [hNil]
  exact ⟨[], φ, .refl σ f.parts s, .refl, h.weaken, hKeeps⟩

theorem take (hNext : next.Behaves call n r) : (take next).Behaves call n r := by
  intro Q φ spoilt ds σ f s hKeeps h hDs
  unfold Production.Keeps at hKeeps
  split at hKeeps
  next kind ks hAhead =>
    have hKind := h.eq_current hAhead
    obtain ⟨hInvalid, hAtEnd, hOpen⟩ := hKeeps
    by_cases hEnd : kind = .endOfInput
    · refine .after (.take σ f.parts s) (.takeEnd (hKind.trans hEnd)) ?_
      exact hNext (hAtEnd hEnd) h.step.weaken hDs
    · obtain ⟨es, hNest, hRest⟩ := hOpen hEnd
      rw [hDs] at hNest
      refine .after (.take σ f.parts s) (.take hKind hEnd hInvalid hNest) ?_
      exact hNext hRest (h.take hKind hEnd es).weaken rfl
  next hAhead =>
    -- The only token that is taken unseen is an arrow, which is there unless something is wrong.
    obtain ⟨hArrow, hMoved, hRest⟩ := hKeeps
    have hLawful : Lawful σ spoilt ds s [.matched s.current] ds s.advance := by
      rcases h.arrow with hSpoilt | hStands
      · exact .take_of_spoilt hSpoilt
      · rw [hArrow, Arrow.Stands, s.head?_kindsAhead] at hStands
        exact .take (Option.some.inj hStands) (by simp) (by simp) rfl
    refine .after (.take σ f.parts s) hLawful ?_
    exact hNext hRest h.step.weaken hDs

theorem expect (kind : TokenKind) (hNext : next.Behaves call n r) :
    (expect kind next).Behaves call n r := by
  intro Q φ spoilt ds σ f s hKeeps h hDs
  obtain ⟨hInvalid, hEnd, es, hNest, hRest⟩ := hKeeps
  rw [hDs] at hNest
  unfold Production.exec
  split
  next hKind =>
    have hTaken := h.take hKind hEnd es
    refine .after (.take σ f.parts s) (.take hKind hEnd hInvalid hNest) ?_
    split at hRest
    next hMoved =>
      exact hNext hRest ⟨List.nil_prefix, hTaken.fits, fun _ => hTaken.moved rfl, hTaken.blamed,
        hTaken.arrow.imp .inl id⟩ rfl
    next hMoved =>
      have hSeen : ∀ k ∈ φ.ahead.head?, k = kind := fun k hHead =>
        (h.eq_of_mem_head? hHead).symm.trans hKind
      exact hNext (hRest.1 hSeen) hTaken.weaken rfl
  next hKind =>
    split
    · trivial
    next hLenient =>
      have hFound := s.length_report_pos (.expectedToken kind)
      refine .after (.assume f.parts s hLenient kind.describe (.expectedToken kind))
        (.of_isError rfl (.inl hFound) : Lawful σ spoilt ds s _ es _) ?_
      split at hRest
      next hMoved => exact hNext hRest (h.assumed _ rfl List.nil_prefix rfl) rfl
      next hMoved =>
        have hSeen : φ.ahead.head? ≠ some kind := fun hHead => hKind (h.eq_of_mem_head? hHead)
        exact hNext (hRest.2 hSeen) (h.assumed _ rfl List.prefix_rfl rfl) rfl

theorem word (hNext : next.Behaves call n r) : (word next).Behaves call n r := by
  intro Q φ spoilt ds σ f s hKeeps h hDs
  unfold Production.Keeps at hKeeps
  unfold Production.exec
  split
  next hWord =>
    have hPlain := TokenKind.isPlain_of_isWord hWord
    have hTaken := h.takeWord hWord
    have hLawful : Lawful σ spoilt ds s [.matched s.current] ds s.advance :=
      .take rfl (TokenKind.ne_endOfInput_of_isPlain hPlain)
        (TokenKind.ne_invalid_of_isPlain hPlain) (Delimiter.nest_of_isPlain hPlain ds)
    refine .after (.take σ f.parts s) hLawful ?_
    split at hKeeps
    next hMoved =>
      exact hNext hKeeps ⟨List.nil_prefix, hTaken.fits, fun _ => hTaken.moved rfl, hTaken.blamed,
        hTaken.arrow.imp .inl id⟩ hDs
    next hMoved =>
      have hSeen : ∀ k ∈ φ.ahead.head?, k.isWord = true := fun k hHead =>
        h.eq_of_mem_head? hHead ▸ hWord
      exact hNext (hKeeps.1 hSeen) hTaken.weaken hDs
  next hWord =>
    split
    · trivial
    next hLenient =>
      have hFound := s.length_report_pos .expectedIdentifier
      refine .after
        (.assume f.parts s hLenient Fault.expectedIdentifier.assumption .expectedIdentifier)
        (.of_isError rfl (.inl hFound) : Lawful σ spoilt ds s _ ds _) ?_
      split at hKeeps
      next hMoved => exact hNext hKeeps (h.assumed _ rfl List.nil_prefix rfl) hDs
      next hMoved =>
        have hSeen : ∀ k ∈ φ.ahead.head?, ¬ k.isWord = true := fun k hHead =>
          h.eq_of_mem_head? hHead ▸ hWord
        exact hNext (hKeeps.2 hSeen) (h.assumed _ rfl List.prefix_rfl rfl) hDs

theorem assume (fault : Fault) (hNext : next.Behaves call n r) :
    (assume fault next).Behaves call n r := by
  intro Q φ spoilt ds σ f s hKeeps h hDs
  unfold Production.exec
  split
  · trivial
  next hLenient =>
    refine .after (.assume f.parts s hLenient fault.assumption fault)
      (.of_isError rfl (.inl (s.length_report_pos fault)) : Lawful σ spoilt ds s _ ds _) ?_
    exact hNext hKeeps (h.assumed fault rfl List.prefix_rfl rfl) hDs

theorem reject (fault : Fault) (hNext : next.Behaves call n r) :
    (reject fault next).Behaves call n r := by
  intro Q φ spoilt ds σ f s hKeeps h hDs
  unfold Production.exec
  split
  · trivial
  next hLenient =>
    have hFound : 0 < (s.report fault).advance.findings.length := s.length_report_pos fault
    have hSkipped := h.skip
    refine .after (.reject f.parts s hLenient fault)
      (.of_isError rfl (.inl hFound) : Lawful σ spoilt ds s _ ds _) ?_
    exact hNext hKeeps
      ⟨hSkipped.sees, hSkipped.fits, hSkipped.moved, fun _ => hFound, .inr trivial⟩ hDs

theorem skip (hNext : next.Behaves call n r) : (skip next).Behaves call n r := by
  intro Q φ spoilt ds σ f s hKeeps h hDs
  obtain ⟨hBlame, hRest⟩ := hKeeps
  unfold Production.exec
  split
  · trivial
  next hLenient =>
    have hExcuse : 0 < s.findings.length ∨
        (σ.strict = false ∧ ∃ t ∈ s.stream.tokens, t.kind = .invalid) := by
      refine hBlame.imp h.blamed fun hHead => ⟨Bool.eq_false_iff.2 hLenient, s.current, ?_, ?_⟩
      · exact s.stream.current_mem_tokens
      · exact h.eq_of_mem_head? hHead
    refine .after (.skip σ f.parts s)
      (.of_isError rfl hExcuse : Lawful σ spoilt ds s _ ds s.advance) ?_
    exact hNext hRest h.skip.weaken hDs

theorem recover (hNext : next.Behaves call n r) : (recover next).Behaves call n r := by
  intro Q φ spoilt ds σ f s hKeeps h hDs
  obtain ⟨hBlamed, hRest⟩ := hKeeps
  have hAdds := Adds.recover σ f.parts s
  have hLength := hAdds.passes.length_rest
  have hFits := h.fits
  refine .after hAdds (.recover (h.blamed hBlamed)) ?_
  refine hNext hRest ⟨List.nil_prefix, ?_, ?_, h.blamed, .inr trivial⟩ hDs
  · omega
  · intro hMoved
    have hLt := h.moved hMoved
    omega

theorem parse (hCall : Answers call n r) (goal : Goal) (hNext : next.Behaves call n r) :
    (parse goal next).Behaves call n r := by
  intro Q φ spoilt ds σ f s hKeeps h hDs
  obtain ⟨hRank, hBlame, hCross, hStay⟩ := hKeeps
  have hAnswer := hCall σ goal (.start s) s (h.reaches hRank) (h.blamed ∘ hBlame)
  unfold Production.exec
  split
  next parts s₁ hParsed =>
    rw [hParsed] at hAnswer
    obtain ⟨ls, hAdds, hLawful⟩ := hAnswer
    refine .after (hAdds.child f.parts) (hLawful.weaken.frame ds) ?_
    by_cases hMoved : φ.moved = true ∨ Leaf.passed ls ≠ []
    · exact hNext hCross (h.cross hAdds hLawful hMoved) hDs
    · rw [not_or, not_not, Bool.not_eq_true] at hMoved
      exact hNext (hStay hMoved.1) (h.stay hAdds hMoved.2) hDs
  next hNot => exact hAnswer.stop hNot

theorem node (rule : Rule) (hInner : inner.Behaves call n r) (hNext : next.Behaves call n r) :
    (node rule inner next).Behaves call n r := by
  intro Q φ spoilt ds σ f s hKeeps h hDs
  have hNode : (inner.exec call σ (.start s) s).Meets (Conduct σ spoilt n [] [] s _) :=
    hInner hKeeps ⟨h.sees, h.fits, h.moved, h.blamed, h.arrow⟩ rfl
  unfold Production.exec
  split
  next parts s₁ hParsed =>
    rw [hParsed] at hNode
    obtain ⟨ls, ψ, hAdds, hLawful, hHolds, hOpened, hRest⟩ := hNode
    refine .after (hAdds.node f.parts rule) (hLawful.frame ds) ?_
    exact hNext hRest ⟨hHolds.sees, hHolds.fits, hHolds.moved, hHolds.blamed, hHolds.arrow⟩ hDs
  next hNot => exact hNode.stop hNot

theorem close (rule : Rule) (hNext : next.Behaves call n r) :
    (close rule next).Behaves call n r := by
  intro Q φ spoilt ds σ f s hKeeps h hDs
  exact .after (.close σ f.parts s rule) .refl (hNext hKeeps h.weaken hDs)

theorem again (hCall : Answers call n r) (goal : Goal) : (again goal).Behaves call n r := by
  intro Q φ spoilt ds σ f s hKeeps h hDs
  obtain ⟨hRank, hBlame, hOpened, hCross, hStay⟩ := hKeeps
  have hNil : ds = [] := hDs ▸ hOpened
  have hAnswer := hCall σ goal f s (h.reaches hRank) (h.blamed ∘ hBlame)
  unfold Production.exec
  cases hEnds : call σ goal f s with
  | bailed bail s₁ => trivial
  | unfinished =>
    rw [hEnds] at hAnswer
    exact hAnswer
  | parsed parts s₁ =>
    rw [hEnds] at hAnswer
    obtain ⟨ls, hAdds, hLawful⟩ := hAnswer
    rw [hNil]
    by_cases hMoved : φ.moved = true ∨ Leaf.passed ls ≠ []
    · exact ⟨ls, _, hAdds, hLawful.weaken, h.cross hAdds hLawful hMoved, hOpened, hCross⟩
    · rw [not_or, not_not, Bool.not_eq_true] at hMoved
      exact ⟨ls, _, hAdds, hLawful.weaken, h.stay hAdds hMoved.2, hOpened, hStay hMoved.1⟩

theorem progress (hCall : Answers call n r) (goal : Goal) (hStuck : stuck.Behaves call n r)
    (hNext : next.Behaves call n r) : (progress goal stuck next).Behaves call n r := by
  intro Q φ spoilt ds σ f s hKeeps h hDs
  obtain ⟨hRank, hBlame, hHere, hRest⟩ := hKeeps
  have hAnswer := hCall σ goal (.start s) s (h.reaches hRank) (h.blamed ∘ hBlame)
  unfold Production.exec
  split
  next parts s₁ hParsed =>
    rw [hParsed] at hAnswer
    obtain ⟨ls, hAdds, hLawful⟩ := hAnswer
    split
    next hPos =>
      rw [hAdds.undone hPos]
      exact hStuck hHere h hDs
    next hPos =>
      have hMoved : Leaf.passed ls ≠ [] := by
        intro hNil
        rw [hAdds.passes.pos_eq, hNil] at hPos
        exact hPos rfl
      refine .after (hAdds.child f.parts) (hLawful.weaken.frame ds) ?_
      exact hNext hRest (h.cross hAdds hLawful (.inr hMoved)) hDs
  next hNot => exact hAnswer.stop hNot

theorem look {choose : Window → Production} (hNext : ∀ w, (choose w).Behaves call n r) :
    (look choose).Behaves call n r := by
  intro Q φ spoilt ds σ f s hKeeps h hDs
  exact hNext s.window (hKeeps s.window h.sees)
    ⟨List.prefix_rfl, h.fits, h.moved, h.blamed, h.arrow⟩ hDs

theorem spell {choose : String → Production} (hNext : ∀ text, (choose text).Behaves call n r) :
    (spell choose).Behaves call n r := by
  intro Q φ spoilt ds σ f s hKeeps h hDs
  exact hNext (Text.fold s.current.lexeme) (hKeeps _) h hDs

theorem scan {decision : Option Ambiguity} {test : List TokenKind → Bool}
    (hYes : yes.Behaves call n r) (hNo : no.Behaves call n r) :
    (scan decision test yes no).Behaves call n r := by
  intro Q φ spoilt ds σ f s hKeeps h hDs
  obtain ⟨⟨arrow, hStands, hThen⟩, hElse⟩ := hKeeps
  unfold Production.exec
  split
  · trivial
  · exact hNo hElse h hDs
  · split
    next hTest =>
      exact hYes hThen ⟨h.sees, h.fits, h.moved, h.blamed, .inr (hStands _ hTest)⟩ hDs
    next => exact hNo hElse h hDs

theorem trial {decision : Ambiguity} {follow : TokenKind} (hAttempt : attempt.Behaves call n r)
    (hYes : yes.Behaves call n r) (hNo : no.Behaves call n r) :
    (trial decision attempt follow yes no).Behaves call n r := by
  intro Q φ spoilt ds σ f s hKeeps h hDs
  obtain ⟨hTry, hThen, hElse⟩ := hKeeps
  unfold Production.exec
  split
  · trivial
  · have hTried : (attempt.exec call { σ with trying := true } (.start s) s).Meets
        (Conduct _ spoilt n [] [] s _) :=
      hAttempt hTry ⟨h.sees, h.fits, h.moved, h.blamed, h.arrow⟩ rfl
    split
    next hUnfinished =>
      rw [hUnfinished] at hTried
      exact hTried
    next => exact hNo hElse h hDs
    next =>
      split
      · exact hYes hThen h hDs
      · exact hNo hElse h hDs

theorem single (hYes : yes.Behaves call n r) (hNo : no.Behaves call n r) :
    (single yes no).Behaves call n r := by
  intro Q φ spoilt ds σ f s hKeeps h hDs
  unfold Production.exec
  split
  · exact hYes hKeeps.1 h hDs
  · exact hNo hKeeps.2 h hDs

theorem troubled (hYes : yes.Behaves call n r) (hNo : no.Behaves call n r) :
    (troubled yes no).Behaves call n r := by
  intro Q φ spoilt ds σ f s hKeeps h hDs
  unfold Production.exec
  split
  next hTrouble =>
    have hFound : 0 < s.findings.length := Nat.lt_of_le_of_lt (Nat.zero_le _) hTrouble
    exact hYes hKeeps.1 ⟨h.sees, h.fits, h.moved, fun _ => hFound, h.arrow⟩ hDs
  next => exact hNo hKeeps.2 h hDs

end Production.Behaves

/-! ## Productions and goals -/

/-- A production that keeps the contract ends, and does what is asked of it, if all that it calls
does. The facts that hold where it begins say which calls those are. -/
theorem exec_keeps {call : Setting → Goal → Frame → ParserState → Outcome} {n r : Nat}
    (hCall : Answers call n r) (p : Production) : p.Behaves call n r := by
  induction p with
  | done => exact .done
  | take next ih => exact .take ih
  | expect kind next ih => exact .expect kind ih
  | word next ih => exact .word ih
  | assume fault next ih => exact .assume fault ih
  | reject fault next ih => exact .reject fault ih
  | skip next ih => exact .skip ih
  | recover next ih => exact .recover ih
  | parse goal next ih => exact .parse hCall goal ih
  | node rule inner next ihInner ih => exact .node rule ihInner ih
  | close rule next ih => exact .close rule ih
  | again goal => exact .again hCall goal
  | progress goal stuck next ihStuck ih => exact .progress hCall goal ihStuck ih
  | look choose ih => exact .look ih
  | spell choose ih => exact .spell ih
  | scan decision test yes no ihYes ihNo => exact .scan ihYes ihNo
  | trial decision attempt follow yes no ihAttempt ihYes ihNo => exact .trial ihAttempt ihYes ihNo
  | single yes no ihYes ihNo => exact .single ihYes ihNo
  | troubled yes no ihYes ihNo => exact .troubled ihYes ihNo

/-- Between two tokens that are taken fewer goals are entered than there are ranks, so every run
with enough steps ends, and does what is asked of its goal. -/
theorem run_answers (steps : Nat) :
    ∀ σ goal f s, (goal.NeedsBlame → 0 < s.findings.length) →
      64 * s.stream.rest.length + goal.rank < steps →
        (run steps σ goal f s).Meets fun qs s' =>
          ∃ ls, Adds σ f.parts s ls qs s' ∧ Lawful σ False [] s ls [] s' := by
  induction steps with
  | zero =>
    intro σ goal f s hBlame hSteps
    omega
  | succ steps ih =>
    intro σ goal f s hBlame hSteps
    have hCall : Answers (run steps) s.stream.rest.length goal.rank := by
      intro σ' goal' f' s' hReach hBlame'
      have hRank := goal'.rank_lt
      apply ih σ' goal' f' s' hBlame'
      rcases hReach with hLt | ⟨hLe, hLt⟩
      · omega
      · omega
    have hEnds : (goal.production.exec (run steps) σ f s).Meets
        (Conduct σ False s.stream.rest.length [] f.parts s _) :=
      exec_keeps hCall goal.production goal.keeps (.of_goal hBlame) goal.opened_facts
    rw [run]
    cases hOutcome : goal.production.exec (run steps) σ f s with
    | bailed bail s' => trivial
    | unfinished =>
      rw [hOutcome] at hEnds
      exact hEnds
    | parsed parts s' =>
      rw [hOutcome] at hEnds
      obtain ⟨ls, ψ, hAdds, hLawful, -⟩ := hEnds
      exact ⟨ls, hAdds, hLawful⟩

/-- Every parse of a goal ends, and what it adds is lawful. -/
theorem parseGoal_answers (σ : Setting) (goal : Goal) (s : ParserState)
    (hBlame : goal.NeedsBlame → 0 < s.findings.length) :
    (parseGoal σ goal s).Meets fun qs s' =>
      ∃ ls, Adds σ [] s ls qs s' ∧ Lawful σ False [] s ls [] s' := by
  have hRank := goal.rank_lt
  apply run_answers (enough s) σ goal (.start s) s hBlame
  rw [enough]
  omega

end CfScript
