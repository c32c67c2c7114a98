import CfScript.Parser.Retry
import CfScript.Proofs.Careful
import CfScript.Proofs.CleanRuns

/-!
# The registers of a parser

A parser keeps more than a place and its findings: it counts the attempts that are under way, since a
fault ends those, and it keeps the delimiters that it passed while it skipped a broken statement. Here
productions are carried out on a machine that has all these registers, changes them in place and puts
them back where an attempt ends.

Nothing of that shows in the answers. The machine does what `Production.exec` does under the conditions
that its registers describe, and on every way out of a run, a bail included, the registers hold what
they held before: always the prediction and the number of attempts, and, where a fault ends the run,
the findings and the delimiters as well. So an attempt leaves the machine exactly as it was.

## Main results

* `Machine.leave_eq`: an attempt that is left has changed no register;
* `operate_matches`, `Machine.run_matches`: what the machine does, and what it keeps.
-/

namespace CfScript

open CfScript.Tree (hasErrorsAny)

/-- A parser with all its registers. -/
structure Machine where
  stream : TokenStream
  prediction : Prediction
  findings : Log
  /-- The number of attempts that are under way. -/
  attempts : Nat
  /-- The delimiters that were opened while tokens were skipped. -/
  delimiters : DelimiterStack
deriving DecidableEq, Inhabited

namespace Machine

/-- How a run of the machine ends. -/
inductive Halt where
  | parsed (parts : List Tree) (m : Machine)
  | bailed (bail : Bail) (m : Machine)
  /-- The steps are used up. -/
  | unfinished
deriving Inhabited

/-- What a decision comes to. -/
inductive Verdict where
  | decided (answer : Bool) (m : Machine)
  | bailed (bail : Bail) (m : Machine)
  /-- The steps are used up. -/
  | unfinished
deriving Inhabited

/-- Goes on as the decision says. -/
def Verdict.choose (verdict : Verdict) (yes no : Machine → Halt) : Halt :=
  match verdict with
  | .decided true m => yes m
  | .decided false m => no m
  | .bailed bail m => .bailed bail m
  | .unfinished => .unfinished

/-- The place of the machine and what it has found. -/
def state (m : Machine) : ParserState := ⟨m.stream, m.findings⟩

/-- The conditions that the registers describe. -/
def setting (m : Machine) : Setting := ⟨m.prediction, decide (0 < m.attempts)⟩

/-- Whether a fault ends the run. -/
def strict (m : Machine) : Bool := m.setting.strict

/-- The token at the cursor. -/
def current (m : Machine) : Token := m.stream.current

/-- The bail at the cursor. -/
def bail (m : Machine) (reason : BailReason) : Bail := ⟨m.current, reason⟩

/-- The machine one token further. -/
def advance (m : Machine) : Machine := { m with stream := m.stream.advance }

/-- The machine with a fault at the cursor reported. -/
def report (m : Machine) (fault : Fault) : Machine :=
  { m with findings := m.findings.push (fault.diagnostic m.current) }

/-- The machine behind tokens that were skipped from an empty stack of delimiters on, and behind the
semicolon that ended them. -/
def skipOver (m : Machine) (skipped : List Token) (semicolon : Option Token) : Machine :=
  { m with
    stream := m.stream.advanceBy (skipped.length + semicolon.toList.length)
    delimiters := skipped.foldl (fun stack t => (stack.update t.kind).1) .empty }

/-- The machine with one more attempt under way. -/
def enter (m : Machine) : Machine := { m with attempts := m.attempts + 1 }

/-- The machine `m`, which is done with an attempt that it entered at `start`. -/
def leave (m start : Machine) : Machine :=
  { m with
    attempts := m.attempts - 1
    stream := m.stream.seek start.stream.pos
    findings := m.findings.truncate start.findings.length }

/-- Tries whether an attempt succeeds in front of a token of a kind, and takes it back. -/
def speculate (m : Machine) (attempt : Machine → Halt) (follow : TokenKind) : Verdict :=
  match attempt m.enter with
  | .parsed _ m' => .decided (decide (m'.current.kind = follow)) (m'.leave m)
  | .bailed _ m' => .decided false (m'.leave m)
  | .unfinished => .unfinished

/-- A decision by an attempt, for which fast prediction bails. -/
def decideBy (m : Machine) (decision : Ambiguity) (attempt : Machine → Halt) (follow : TokenKind) :
    Verdict :=
  match m.prediction with
  | .fast => .bailed (m.bail (.ambiguous decision)) m
  | .general => m.speculate attempt follow

end Machine

namespace Production

open Machine (Halt)

/-- Carries out a production on a machine; `call` parses the goals that it asks for. -/
def operate (call : Goal → Frame → Machine → Halt) : Production → Frame → Machine → Halt
  | done, f, m => .parsed f.parts m
  | take next, f, m => next.operate call (f.push (.token m.current)) m.advance
  | expect kind next, f, m =>
    if m.current.kind = kind then next.operate call (f.push (.token m.current)) m.advance
    else if m.strict then .bailed (m.bail (.fault (.expectedToken kind))) m
    else next.operate call (f.push (.assumed kind.describe)) (m.report (.expectedToken kind))
  | word next, f, m =>
    if m.current.kind.isWord then next.operate call (f.push (.token m.current)) m.advance
    else if m.strict then .bailed (m.bail (.fault .expectedIdentifier)) m
    else
      next.operate call (f.push (.assumed Fault.expectedIdentifier.assumption))
        (m.report .expectedIdentifier)
  | assume fault next, f, m =>
    if m.strict then .bailed (m.bail (.fault fault)) m
    else next.operate call (f.push (.assumed fault.assumption)) (m.report fault)
  | reject fault next, f, m =>
    if m.strict then .bailed (m.bail (.fault fault)) m
    else next.operate call (f.push (.skipped m.current)) (m.report fault).advance
  | skip next, f, m =>
    if m.strict then .bailed (m.bail .invalidToken) m
    else next.operate call (f.push (.skipped m.current)) m.advance
  | recover next, f, m =>
    let (skipped, semicolon) := Token.skipStatement .empty m.stream.rest
    next.operate call (f.append (skipped.map .skipped ++ semicolon.toList.map .token))
      (m.skipOver skipped semicolon)
  | parse goal next, f, m =>
    match call goal (.start m.state) m with
    | .parsed parts m => next.operate call (f.append parts) m
    | halt => halt
  | node rule inner next, f, m =>
    match inner.operate call (.start m.state) m with
    | .parsed parts m => next.operate call (f.push (.node rule parts)) m
    | halt => halt
  | close rule next, f, m => next.operate call (f.close rule) m
  | again goal, f, m => call goal f m
  | progress goal stuck next, f, m =>
    match call goal (.start m.state) m with
    | .parsed parts m' =>
      if m'.stream.pos = m.stream.pos then
        stuck.operate call f { m' with findings := m'.findings.truncate m.findings.length }
      else next.operate call (f.append parts) m'
    | halt => halt
  | look choose, f, m => (choose m.state.window).operate call f m
  | spell choose, f, m => (choose (Text.fold m.current.lexeme)).operate call f m
  | scan decision test yes no, f, m =>
    match m.prediction, decision with
    | .fast, some decision => .bailed (m.bail (.ambiguous decision)) m
    | .fast, none => no.operate call f m
    | .general, _ =>
      if test m.state.kindsAhead then yes.operate call f m else no.operate call f m
  | trial decision attempt follow yes no, f, m =>
    (m.decideBy decision (attempt.operate call (.start m.state)) follow).choose
      (yes.operate call f) (no.operate call f)
  | single yes no, f, m =>
    if f.parts.length = 1 then yes.operate call f m else no.operate call f m
  | troubled yes no, f, m =>
    if f.mark < m.findings.length then yes.operate call f m else no.operate call f m

end Production

namespace Machine

/-- Parses a goal, entering no more than `steps` goals inside one another. -/
def run : Nat → Goal → Frame → Machine → Halt
  | 0, _, _, _ => .unfinished
  | steps + 1, goal, f, m => goal.production.operate (run steps) f m

/-! ## What a run keeps -/

/-- What a machine that comes from `m` has kept of it. -/
structure Keeps (m m' : Machine) : Prop where
  prediction : m'.prediction = m.prediction
  attempts : m'.attempts = m.attempts
  tokens : m'.stream.tokens = m.stream.tokens
  findings : m.strict = true → m'.findings = m.findings
  delimiters : m.strict = true → m'.delimiters = m.delimiters

namespace Keeps

variable {m m' m'' : Machine}

theorem refl (m : Machine) : m.Keeps m := ⟨rfl, rfl, rfl, fun _ => rfl, fun _ => rfl⟩

theorem setting (h : m.Keeps m') : m'.setting = m.setting := by
  rw [Machine.setting, Machine.setting, h.prediction, h.attempts]

theorem strict (h : m.Keeps m') : m'.strict = m.strict := by
  rw [Machine.strict, h.setting, Machine.strict]

theorem trans (h : m.Keeps m') (h' : m'.Keeps m'') : m.Keeps m'' where
  prediction := h'.prediction.trans h.prediction
  attempts := h'.attempts.trans h.attempts
  tokens := h'.tokens.trans h.tokens
  findings hStrict := (h'.findings (h.strict.trans hStrict)).trans (h.findings hStrict)
  delimiters hStrict := (h'.delimiters (h.strict.trans hStrict)).trans (h.delimiters hStrict)

theorem advance (m : Machine) : m.Keeps m.advance :=
  ⟨rfl, rfl, m.stream.tokens_advance, fun _ => rfl, fun _ => rfl⟩

/-- Where a fault does not end the run, it may be reported. -/
theorem report (fault : Fault) (hLenient : ¬ m.strict = true) : m.Keeps (m.report fault) :=
  ⟨rfl, rfl, rfl, fun h => absurd h hLenient, fun h => absurd h hLenient⟩

theorem skipOver (skipped : List Token) (semicolon : Option Token) (hLenient : ¬ m.strict = true) :
    m.Keeps (m.skipOver skipped semicolon) :=
  ⟨rfl, rfl, TokenStream.tokens_advanceBy _ _, fun h => absurd h hLenient,
    fun h => absurd h hLenient⟩

/-- The findings of a goal that took no token are taken back. -/
theorem truncate (h : m.Keeps m') :
    m.Keeps { m' with findings := m'.findings.truncate m.findings.length } where
  prediction := h.prediction
  attempts := h.attempts
  tokens := h.tokens
  findings hStrict := by rw [h.findings hStrict, Log.truncate_length]
  delimiters := h.delimiters

end Keeps

/-! ## Attempts -/

/-- An attempt that is left has changed no register. -/
theorem leave_eq {m m' : Machine} (h : m.enter.Keeps m') : m'.leave m = m := by
  have hStrict : m.enter.strict = true := by
    simp [strict, setting, Setting.strict, enter]
  have hStream : m'.stream.seek m.stream.pos = m.stream := by
    have hTokens : m'.stream.tokens = m.stream.tokens := h.tokens
    obtain ⟨hBody, hLast⟩ := List.append_inj' hTokens rfl
    have hSame : m'.stream.seek m.stream.pos = m.stream.seek m.stream.pos := by
      simp only [TokenStream.seek, hBody, List.cons.inj hLast]
    rw [hSame, TokenStream.seek_pos]
  have hFindings : m'.findings.truncate m.findings.length = m.findings := by
    rw [h.findings hStrict, enter, Log.truncate_length]
  have hAttempts : m'.attempts - 1 = m.attempts := by rw [h.attempts, enter, Nat.add_sub_cancel]
  rw [leave, hStream, hFindings, hAttempts, h.prediction, h.delimiters hStrict]
  rfl

/-! ## What a run does -/

/-- How a run of the machine from `m` with the parts `ps` corresponds to a run that has no registers:
it ends the same way, and where a fault ends it, it has added no error to the parts. -/
inductive Matches (m : Machine) (ps : List Tree) : Halt → Outcome → Prop where
  | parsed {parts : List Tree} {m' : Machine} (h : m.Keeps m')
      (hClean : m.strict = true → hasErrorsAny parts = hasErrorsAny ps) :
      Matches m ps (.parsed parts m') (.parsed parts m'.state)
  | bailed {bail : Bail} {m' : Machine} (h : m.Keeps m') :
      Matches m ps (.bailed bail m') (.bailed bail m'.state)
  | unfinished : Matches m ps .unfinished .unfinished

theorem Matches.of_keeps {m m' : Machine} {ps qs : List Tree} {halt : Halt} {o : Outcome}
    (h : m'.Matches qs halt o) (hKeeps : m.Keeps m')
    (hParts : m.strict = true → hasErrorsAny qs = hasErrorsAny ps) : m.Matches ps halt o := by
  cases h with
  | parsed h hClean =>
    refine .parsed (hKeeps.trans h) fun hStrict => ?_
    exact (hClean (hKeeps.strict.trans hStrict)).trans (hParts hStrict)
  | bailed h => exact .bailed (hKeeps.trans h)
  | unfinished => exact .unfinished

/-- Whether nothing was found wrong since the goal began, as far as a fault ends the run. -/
def Clear (m : Machine) (found : Bool) (f : Frame) : Prop :=
  m.strict = true → found = false ∧ m.findings.length ≤ f.mark

theorem clear_start (m : Machine) : m.Clear false (.start m.state) :=
  fun _ => ⟨rfl, Nat.le_refl _⟩

theorem Clear.of_keeps {m m' : Machine} {found : Bool} {f g : Frame} (h : m.Clear found f)
    (hKeeps : m.Keeps m') (hMark : g.mark = f.mark) : m'.Clear found g := by
  intro hStrict
  have hBefore : m.strict = true := hKeeps.strict.symm.trans hStrict
  rw [hKeeps.findings hBefore, hMark]
  exact h hBefore

theorem Clear.of_lenient {m m' : Machine} {found : Bool} {f : Frame} (hKeeps : m.Keeps m')
    (hLenient : ¬ m.strict = true) : m'.Clear found f :=
  fun hStrict => absurd (hKeeps.strict.symm.trans hStrict) hLenient

/-- Whether two ways of parsing goals correspond, on a machine and without its registers. -/
def CallsMatch (call : Goal → Frame → Machine → Halt)
    (plain : Setting → Goal → Frame → ParserState → Outcome) : Prop :=
  ∀ goal f (m : Machine), m.Clear false f →
    m.Matches f.parts (call goal f m) (plain m.setting goal f m.state)

theorem hasErrorsAny_push_token (f : Frame) (t : Token) :
    hasErrorsAny (f.push (.token t)).parts = hasErrorsAny f.parts := by
  rw [Frame.push, Frame.append, hasErrorsAny_append, Tree.hasErrorsAny]
  simp [Tree.token, Tree.hasErrors, Tree.hasErrorsAny, Leaf.isError]

/-- What a machine does that has taken the current token. -/
theorem Matches.take {m : Machine} {f : Frame} {halt : Halt} {o : Outcome}
    (h : m.advance.Matches (f.push (.token m.current)).parts halt o) : m.Matches f.parts halt o :=
  h.of_keeps (.advance m) fun _ => hasErrorsAny_push_token f m.current

/-- What a machine does that has found a fault, where a fault does not end its run. -/
theorem Matches.of_lenient {m m' : Machine} {ps qs : List Tree} {halt : Halt} {o : Outcome}
    (h : m'.Matches qs halt o) (hLenient : ¬ m.strict = true) (hKeeps : m.Keeps m') :
    m.Matches ps halt o :=
  h.of_keeps hKeeps fun hStrict => absurd hStrict hLenient

/-- What a machine does at a fault. -/
theorem Matches.fault {m : Machine} {ps : List Tree} {halt : Halt} {o : Outcome} (bail : Bail)
    (h : ¬ m.strict = true → m.Matches ps halt o) :
    m.Matches ps (if m.strict = true then .bailed bail m else halt)
      (if m.setting.strict = true then .bailed bail m.state else o) := by
  by_cases hStrict : m.strict = true
  · have hSetting : m.setting.strict = true := hStrict
    rw [if_pos hStrict, if_pos hSetting]
    exact .bailed (.refl m)
  · have hSetting : ¬ m.setting.strict = true := hStrict
    rw [if_neg hStrict, if_neg hSetting]
    exact h hStrict

/-- What a decision comes to that goes by how an attempt ends, on a machine that it leaves alone. -/
def verdict (m : Machine) (follow : TokenKind) : Outcome → Verdict
  | .parsed _ s => .decided (decide (s.current.kind = follow)) m
  | .bailed _ _ => .decided false m
  | .unfinished => .unfinished

/-- An attempt is taken back, however it ends. -/
theorem speculate_eq {m : Machine} {attempt : Machine → Halt} {ps : List Tree} {o : Outcome}
    (h : m.enter.Matches ps (attempt m.enter) o) (follow : TokenKind) :
    m.speculate attempt follow = m.verdict follow o := by
  unfold speculate
  generalize attempt m.enter = halt at h
  cases h with
  | parsed h hClean =>
    dsimp only
    rw [leave_eq h]
    rfl
  | bailed h =>
    dsimp only
    rw [leave_eq h]
    rfl
  | unfinished => rfl

/-- The conditions of an attempt. -/
theorem setting_enter {m : Machine} (hGeneral : m.prediction = .general) :
    m.enter.setting = ⟨.general, true⟩ := by
  simp [setting, enter, hGeneral]

end Machine

open Machine (Halt CallsMatch)

/-- A careful production does the same on a machine and without its registers if all goals do that it
calls. -/
theorem operate_matches {call : Goal → Frame → Machine → Halt}
    {plain : Setting → Goal → Frame → ParserState → Outcome} (hCall : CallsMatch call plain)
    (p : Production) :
    ∀ found f (m : Machine), p.Careful found → m.Clear found f →
      m.Matches f.parts (p.operate call f m) (p.exec plain m.setting f m.state) := by
  induction p with
  | done => exact fun found f m _ _ => .parsed (.refl m) fun _ => rfl
  | take next ih =>
    intro found f m hCareful hClear
    exact .take (ih found _ m.advance hCareful (hClear.of_keeps (.advance m) rfl))
  | expect kind next ih =>
    intro found f m hCareful hClear
    have hCurrent : m.state.current = m.current := rfl
    unfold Production.operate Production.exec
    rw [hCurrent]
    split
    · exact .take (ih found _ m.advance hCareful (hClear.of_keeps (.advance m) rfl))
    · exact .fault _ fun hLenient =>
        have hKeeps := Machine.Keeps.report _ hLenient
        (ih found _ (m.report _) hCareful (.of_lenient hKeeps hLenient)).of_lenient hLenient hKeeps
  | word next ih =>
    intro found f m hCareful hClear
    have hCurrent : m.state.current = m.current := rfl
    unfold Production.operate Production.exec
    rw [hCurrent]
    split
    · exact .take (ih found _ m.advance hCareful (hClear.of_keeps (.advance m) rfl))
    · exact .fault _ fun hLenient =>
        have hKeeps := Machine.Keeps.report _ hLenient
        (ih found _ (m.report _) hCareful (.of_lenient hKeeps hLenient)).of_lenient hLenient hKeeps
  | assume fault next ih =>
    intro found f m hCareful hClear
    unfold Production.operate Production.exec
    exact .fault _ fun hLenient =>
      have hKeeps := Machine.Keeps.report fault hLenient
      (ih found _ (m.report fault) hCareful (.of_lenient hKeeps hLenient)).of_lenient hLenient hKeeps
  | reject fault next ih =>
    intro found f m hCareful hClear
    unfold Production.operate Production.exec
    exact .fault _ fun hLenient =>
      have hKeeps := (Machine.Keeps.report fault hLenient).trans (.advance _)
      (ih found _ _ hCareful (.of_lenient hKeeps hLenient)).of_lenient hLenient hKeeps
  | skip next ih =>
    intro found f m hCareful hClear
    unfold Production.operate Production.exec
    exact .fault _ fun hLenient =>
      have hKeeps := Machine.Keeps.advance m
      (ih found _ m.advance hCareful (.of_lenient hKeeps hLenient)).of_lenient hLenient hKeeps
  | recover next ih =>
    intro found f m hCareful hClear
    have hLenient : ¬ m.strict = true := by
      intro hStrict
      rw [(hClear hStrict).1] at hCareful
      cases hCareful.1
    unfold Production.operate Production.exec
    have hKeeps := Machine.Keeps.skipOver (Token.skipStatement .empty m.stream.rest).1
      (Token.skipStatement .empty m.stream.rest).2 hLenient
    exact (ih found _ _ hCareful.2 (.of_lenient hKeeps hLenient)).of_lenient hLenient hKeeps
  | parse goal next ih =>
    intro found f m hCareful hClear
    unfold Production.operate Production.exec
    have hGoal := hCall goal (.start m.state) m m.clear_start
    generalize call goal (.start m.state) m = halt at hGoal ⊢
    generalize plain m.setting goal (.start m.state) m.state = o at hGoal ⊢
    cases hGoal with
    | @parsed parts m' h hClean =>
      have hRest := ih found (f.append parts) m' hCareful (hClear.of_keeps h rfl)
      rw [h.setting] at hRest
      refine hRest.of_keeps h fun hStrict => ?_
      rw [Frame.append, hasErrorsAny_append, hClean hStrict]
      exact Bool.or_false _
    | bailed h => exact .bailed h
    | unfinished => exact .unfinished
  | node rule inner next ihInner ih =>
    intro found f m hCareful hClear
    unfold Production.operate Production.exec
    have hInner := ihInner false (.start m.state) m hCareful.1 m.clear_start
    generalize inner.operate call (.start m.state) m = halt at hInner ⊢
    generalize inner.exec plain m.setting (.start m.state) m.state = o at hInner ⊢
    cases hInner with
    | @parsed parts m' h hClean =>
      have hRest := ih found (f.push (.node rule parts)) m' hCareful.2 (hClear.of_keeps h rfl)
      rw [h.setting] at hRest
      refine hRest.of_keeps h fun hStrict => ?_
      rw [Frame.push, Frame.append, hasErrorsAny_append, hasErrorsAny, Tree.hasErrors,
        hClean hStrict]
      exact Bool.or_false _
    | bailed h => exact .bailed h
    | unfinished => exact .unfinished
  | close rule next ih =>
    intro found f m hCareful hClear
    refine (ih found (f.close rule) m hCareful hClear).of_keeps (.refl m) fun _ => ?_
    rw [Frame.close, hasErrorsAny, Tree.hasErrors]
    exact Bool.or_false _
  | again goal =>
    intro found f m hCareful hClear
    exact hCall goal f m fun hStrict => ⟨rfl, (hClear hStrict).2⟩
  | progress goal stuck next ihStuck ih =>
    intro found f m hCareful hClear
    unfold Production.operate Production.exec
    have hGoal := hCall goal (.start m.state) m m.clear_start
    generalize call goal (.start m.state) m = halt at hGoal ⊢
    generalize plain m.setting goal (.start m.state) m.state = o at hGoal ⊢
    cases hGoal with
    | @parsed parts m' h hClean =>
      dsimp only
      by_cases hPos : m'.stream.pos = m.stream.pos
      · have hPlain : m'.state.stream.pos = m.state.stream.pos := hPos
        rw [if_pos hPos, if_pos hPlain]
        have hStuck := ihStuck found f _ hCareful.1 (hClear.of_keeps h.truncate rfl)
        rw [h.truncate.setting] at hStuck
        exact hStuck.of_keeps h.truncate fun _ => rfl
      · have hPlain : ¬ m'.state.stream.pos = m.state.stream.pos := hPos
        rw [if_neg hPos, if_neg hPlain]
        have hRest := ih found (f.append parts) m' hCareful.2 (hClear.of_keeps h rfl)
        rw [h.setting] at hRest
        refine hRest.of_keeps h fun hStrict => ?_
        rw [Frame.append, hasErrorsAny_append, hClean hStrict]
        exact Bool.or_false _
    | bailed h => exact .bailed h
    | unfinished => exact .unfinished
  | look choose ih =>
    exact fun found f m hCareful => ih m.state.window found f m (hCareful _)
  | spell choose ih =>
    exact fun found f m hCareful => ih (Text.fold m.current.lexeme) found f m (hCareful _)
  | scan decision test yes no ihYes ihNo =>
    intro found f m hCareful hClear
    unfold Production.operate Production.exec
    have hPrediction : m.setting.prediction = m.prediction := rfl
    rw [hPrediction]
    cases m.prediction with
    | fast =>
      cases decision with
      | none => exact ihNo found f m hCareful.2 hClear
      | some decision => exact .bailed (.refl m)
    | general =>
      dsimp only
      split
      · exact ihYes found f m hCareful.1 hClear
      · exact ihNo found f m hCareful.2 hClear
  | trial decision attempt follow yes no ihAttempt ihYes ihNo =>
    intro found f m hCareful hClear
    unfold Production.operate Production.exec
    have hPrediction : m.setting.prediction = m.prediction := rfl
    rw [hPrediction, Machine.decideBy]
    cases hIs : m.prediction with
    | fast => exact .bailed (.refl m)
    | general =>
      have hAttempt := ihAttempt false (.start m.state) m.enter hCareful.1 m.enter.clear_start
      have hState : m.enter.state = m.state := rfl
      rw [Machine.setting_enter hIs, hState] at hAttempt
      dsimp only
      rw [Machine.speculate_eq hAttempt]
      cases attempt.exec plain ⟨.general, true⟩ (.start m.state) m.state with
      | unfinished => exact .unfinished
      | bailed bail s => exact ihNo found f m hCareful.2.2 hClear
      | parsed parts s =>
        by_cases hFollow : s.current.kind = follow
        · simp only [Machine.verdict, Machine.Verdict.choose, hFollow, decide_true, if_true]
          exact ihYes found f m hCareful.2.1 hClear
        · simp only [Machine.verdict, Machine.Verdict.choose, hFollow, decide_false, if_false]
          exact ihNo found f m hCareful.2.2 hClear
  | single yes no ihYes ihNo =>
    intro found f m hCareful hClear
    unfold Production.operate Production.exec
    split
    · exact ihYes found f m hCareful.1 hClear
    · exact ihNo found f m hCareful.2 hClear
  | troubled yes no ihYes ihNo =>
    intro found f m hCareful hClear
    unfold Production.operate Production.exec
    have hFindings : m.state.findings = m.findings := rfl
    rw [hFindings]
    split
    next hTrouble =>
      have hLenient : ¬ m.strict = true := fun hStrict =>
        absurd hTrouble (Nat.not_lt.2 (hClear hStrict).2)
      exact ihYes true f m hCareful.1 (.of_lenient (.refl m) hLenient)
    next => exact ihNo found f m hCareful.2 hClear

/-- The machine does what a run without its registers does, and keeps what it has to. -/
theorem Machine.run_matches (steps : Nat) : CallsMatch (Machine.run steps) (CfScript.run steps) := by
  induction steps with
  | zero => exact fun goal f m _ => .unfinished
  | succ steps ih =>
    exact fun goal f m =>
      operate_matches ih goal.production false f m (Grammar.careful_production goal)

end CfScript
