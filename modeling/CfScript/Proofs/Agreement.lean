import CfScript.Proofs.DottedHead
import CfScript.Proofs.Misreading
import CfScript.Proofs.Steady

/-!
# Fast and general prediction

A parse with fast prediction that gives a tree has come to each decision with three tokens. General
prediction comes to the same decisions, with the same tree and no finding, unless a statement of the
tree is misread: an expression that begins with a dotted word and that a look at all words and dots
takes for the head of a function. Then general prediction takes it for one, too, and finds a fault.

The two runs are followed side by side. As long as they agree they stand at the same place with the
same parts. Once general prediction strays it has found something after taking a token, so the
finding is not taken back with a statement that takes none, and all that follows only adds to the
findings.

## Main results

* `Agrees.after`: what comes behind a goal or a node;
* `exec_agrees`: both kinds of prediction on a steady production;
* `form_agrees`: both kinds of prediction on a statement;
* `parse_fast_agrees`: when a parse with general prediction gives the tree of the fast one;
* `not_fast_refines_general`: it does not always do.
-/

namespace CfScript

open CfScript.Tree (misreadAny leavesAll)

/-- How a parse with fast prediction runs. -/
def Setting.fast : Setting := ⟨.fast, false⟩

/-- Goes on from the parts that a run gives, if it gives any. -/
def Outcome.andThen (o : Outcome) (next : List Tree → ParserState → Outcome) : Outcome :=
  match o with
  | .parsed parts s => next parts s
  | outcome => outcome

/-- Whether a run, if it gives parts, has found something and taken a token since `s`. -/
def Outcome.Strays (s : ParserState) (o : Outcome) : Prop :=
  ∀ parts s', o = .parsed parts s' →
    s.findings.length < s'.findings.length ∧ s.stream.pos < s'.stream.pos

/-- How a run with general prediction ends where fast prediction goes from the parts `ps` at `s` to
the parts `qs` at `s'`: the same way, or, if something is misread, with a finding. -/
inductive Agrees (ps : List Tree) (s : ParserState) (qs : List Tree) (s' : ParserState) :
    Outcome → Prop where
  | same (h : misreadAny ps = false → misreadAny qs = false) : Agrees ps s qs s' (.parsed qs s')
  | strays {o : Outcome} (hMisread : misreadAny qs = true) (h : o.Strays s) : Agrees ps s qs s' o

namespace Agrees

variable {ps ps₁ qs : List Tree} {s s₁ s' : ParserState} {o : Outcome} {steps : Nat}

/-- A run that both make is no part of the difference. -/
theorem of_adds {σ : Setting} {rs ms : List Tree} {ls : List Leaf} (h : Agrees ps₁ s₁ qs s' o)
    (hAdds : Adds σ rs s ls ms s₁) (hParts : misreadAny ps = false → misreadAny ps₁ = false) :
    Agrees ps s qs s' o := by
  cases h with
  | same h => exact .same fun hClean => h (hParts hClean)
  | strays hMisread h =>
    refine .strays hMisread fun parts s₂ hParsed => ?_
    obtain ⟨hFound, hMoved⟩ := h parts s₂ hParsed
    have hFindings := hAdds.length_findings_le
    have hPos := hAdds.passes.pos_eq
    exact ⟨by omega, by omega⟩

end Agrees

theorem Outcome.Strays.exec {steps : Nat} {next : Production} {σ : Setting} {f : Frame}
    {s s₁ : ParserState} (hFound : s.findings.length < s₁.findings.length)
    (hMoved : s.stream.pos < s₁.stream.pos) : (next.exec (run steps) σ f s₁).Strays s := by
  intro parts s₂ hParsed
  obtain ⟨ls, hAdds⟩ := exec_adds (run_adds steps) next _ _ _ _ _ hParsed
  have hFindings := hAdds.length_findings_le
  have hPos := hAdds.passes.pos_eq
  exact ⟨by omega, by omega⟩

/-- A run strays if it begins with one that strays. -/
theorem Outcome.Strays.andThen {s : ParserState} {o : Outcome}
    {next : List Tree → ParserState → Outcome} (h : o.Strays s)
    (hNext : ∀ parts s₁, s.findings.length < s₁.findings.length → s.stream.pos < s₁.stream.pos →
      (next parts s₁).Strays s) : (o.andThen next).Strays s := by
  cases o with
  | parsed parts s₁ =>
    obtain ⟨hFound, hMoved⟩ := h parts s₁ rfl
    exact hNext parts s₁ hFound hMoved
  | bailed bail s₁ => exact h
  | unfinished => exact h

/-- What follows a run that both make from no parts, or that strays, is made by both or strays. -/
theorem Agrees.after (frame : List Tree → Frame) {steps : Nat} {next : Production} {σ : Setting}
    {ps mid qs : List Tree} {s s₁ s' : ParserState} {ls : List Leaf} {o : Outcome}
    (hMid : Agrees [] s mid s₁ o) (hAdds : Adds σ ps s ls (frame mid).parts s₁)
    (hParts : misreadAny (frame mid).parts = (misreadAny ps || misreadAny mid))
    (hFast : next.exec (run steps) .fast (frame mid) s₁ = .parsed qs s')
    (hNext : Agrees (frame mid).parts s₁ qs s'
      (next.exec (run steps) .lenient (frame mid) s₁)) :
    Agrees ps s qs s' (o.andThen fun parts => next.exec (run steps) .lenient (frame parts)) := by
  cases hMid with
  | same hClean =>
    refine hNext.of_adds hAdds fun hBefore => ?_
    rw [hParts, hBefore, hClean rfl]
    rfl
  | strays hMisread hStrays =>
    refine .strays ?_ (hStrays.andThen fun _ _ => .exec)
    apply exec_misread (run_misread steps) next _ _ _ _ _ hFast
    rw [hParts, hMisread, Bool.or_true]

/-- Whether both kinds of prediction agree on all goals. A statement always starts with no parts. -/
def CallsAgree (steps : Nat) : Prop :=
  ∀ goal f s qs s', (goal = .statement → f = .start s) →
    run steps .fast goal f s = .parsed qs s' →
      Agrees f.parts s qs s' (run steps .lenient goal f s)

theorem misreadAny_push_false {f : Frame} {t : Tree} (h : t.misread = false)
    (hClean : misreadAny f.parts = false) : misreadAny (f.push t).parts = false := by
  rw [Frame.push, Frame.append, Tree.misreadAny_append, hClean, Bool.false_or, misreadAny, h]
  rfl

theorem misreadAny_append_false {f : Frame} {ts : List Tree} (h : misreadAny ts = false)
    (hClean : misreadAny f.parts = false) : misreadAny (f.append ts).parts = false := by
  rw [Frame.append, Tree.misreadAny_append, hClean, h]
  rfl

/-- A statement that is misread takes a token. -/
theorem pos_ne_of_misread {steps : Nat} {σ : Setting} {goal : Goal} {s s₁ : ParserState}
    {mid : List Tree} (h : run steps σ goal (.start s) s = .parsed mid s₁)
    (hMisread : misreadAny mid = true) : s₁.stream.pos ≠ s.stream.pos := by
  obtain ⟨ls, hAdds⟩ := run_adds steps _ _ _ _ _ _ h
  have hLeaves : leavesAll mid = ls := hAdds.leaves
  have hPassed := Tree.passed_ne_nil_of_misreadAny mid hMisread
  rw [hLeaves] at hPassed
  have hLength := List.length_pos_iff.2 hPassed
  have hPos := hAdds.passes.pos_eq
  omega

/-- Both kinds of prediction agree on a steady production if they agree on all that it calls. -/
theorem exec_agrees {steps : Nat} (hCall : CallsAgree steps) (p : Production) :
    ∀ {f s qs s'}, p.Steady → p.exec (run steps) .fast f s = .parsed qs s' →
      Agrees f.parts s qs s' (p.exec (run steps) .lenient f s) := by
  induction p with
  | done =>
    intro f s qs s' hSteady h
    cases h
    exact .same id
  | take next ih =>
    intro f s qs s' hSteady h
    exact (ih hSteady h).of_adds (.take .fast f.parts s) (misreadAny_push_false rfl)
  | expect kind next ih =>
    intro f s qs s' hSteady h
    by_cases hKind : s.current.kind = kind
    · simp only [Production.exec, hKind, if_true] at h ⊢
      exact (ih hSteady h).of_adds (.take .fast f.parts s) (misreadAny_push_false rfl)
    · simp only [Production.exec, hKind, if_false] at h
      cases h
  | word next ih =>
    intro f s qs s' hSteady h
    by_cases hWord : s.current.kind.isWord = true
    · simp only [Production.exec, hWord, if_true] at h ⊢
      exact (ih hSteady h).of_adds (.take .fast f.parts s) (misreadAny_push_false rfl)
    · simp only [Production.exec, hWord] at h
      cases h
  | assume fault next ih =>
    intro f s qs s' hSteady h
    cases h
  | reject fault next ih =>
    intro f s qs s' hSteady h
    cases h
  | skip next ih =>
    intro f s qs s' hSteady h
    cases h
  | recover next ih =>
    intro f s qs s' hSteady h
    refine (ih hSteady h).of_adds (.recover .fast f.parts s) (misreadAny_append_false ?_)
    refine Tree.misreadAny_leaves fun t hMem => ?_
    rcases List.mem_append.1 hMem with hMem | hMem
    · obtain ⟨u, -, rfl⟩ := List.mem_map.1 hMem
      exact ⟨.skipped u, rfl⟩
    · obtain ⟨u, -, rfl⟩ := List.mem_map.1 hMem
      exact ⟨.matched u, rfl⟩
  | parse goal next ih =>
    intro f s qs s' hSteady h
    unfold Production.exec at h ⊢
    split at h
    next mid s₁ hParsed =>
      have hGoal := hCall goal (.start s) s mid s₁ (fun _ => rfl) hParsed
      obtain ⟨ls, hAdds⟩ := run_adds steps _ _ _ _ _ _ hParsed
      exact .after f.append hGoal (hAdds.child f.parts) (Tree.misreadAny_append f.parts mid) h
        (ih hSteady h)
    next hBad => exact absurd h (hBad _ _)
  | node rule inner next ihInner ih =>
    intro f s qs s' hSteady h
    obtain ⟨hRule, hInner, hNext⟩ := hSteady
    unfold Production.exec at h ⊢
    split at h
    next mid s₁ hParsed =>
      obtain ⟨ls, hAdds⟩ := exec_adds (run_adds steps) inner _ _ _ _ _ hParsed
      have hParts : misreadAny (f.parts ++ [.node rule mid]) =
          (misreadAny f.parts || misreadAny mid) := by
        rw [Tree.misreadAny_append, misreadAny, misreadAny, Bool.or_false, Tree.misread_node hRule]
      exact .after (fun parts => f.push (.node rule parts)) (ihInner hInner hParsed)
        (hAdds.node f.parts rule) hParts h (ih hNext h)
    next hBad => exact absurd h (hBad _ _)
  | close rule next ih =>
    intro f s qs s' hSteady h
    refine (ih hSteady.2 h).of_adds (.close .fast f.parts s rule) fun hClean => ?_
    rw [Frame.close, misreadAny, Tree.misread_node hSteady.1, hClean]
    rfl
  | again goal =>
    intro f s qs s' hSteady h
    exact hCall goal f s qs s' (fun hIs => absurd hIs hSteady) h
  | progress goal stuck next ihStuck ih =>
    intro f s qs s' hSteady h
    unfold Production.exec at h ⊢
    split at h
    next mid s₁ hParsed =>
      have hGoal := hCall goal (.start s) s mid s₁ (fun _ => rfl) hParsed
      obtain ⟨ls, hAdds⟩ := run_adds steps _ _ _ _ _ _ hParsed
      generalize run steps .lenient goal (.start s) s = o at hGoal
      cases hGoal with
      | same hClean =>
        dsimp only
        split at h
        next hPos =>
          rw [if_pos hPos]
          rw [hAdds.undone hPos] at h ⊢
          exact ihStuck hSteady.1 h
        next hPos =>
          rw [if_neg hPos]
          exact (ih hSteady.2 h).of_adds hAdds (misreadAny_append_false (hClean rfl))
      | strays hMisread hStrays =>
        rw [if_neg (pos_ne_of_misread hParsed hMisread)] at h
        refine .strays ?_ (hStrays.andThen fun parts s₂ hFound hMoved => ?_)
        · exact exec_misread (run_misread steps) next _ _ _ _ _ h
            (misreadAny_append_right f.parts hMisread)
        · rw [if_neg (by omega)]
          exact .exec hFound hMoved
    next hBad => exact absurd h (hBad _ _)
  | look choose ih =>
    intro f s qs s' hSteady h
    exact ih s.window (hSteady s.window) h
  | spell choose ih =>
    intro f s qs s' hSteady h
    exact ih (Text.fold s.current.lexeme) (hSteady _) h
  | scan decision test yes no ihYes ihNo =>
    intro f s qs s' hSteady h
    cases decision with
    | none => exact absurd rfl hSteady
    | some decision => cases h
  | trial decision attempt follow yes no ihAttempt ihYes ihNo =>
    intro f s qs s' hSteady h
    cases h
  | single yes no ihYes ihNo =>
    intro f s qs s' hSteady h
    unfold Production.exec at h ⊢
    split at h
    next hSingle =>
      rw [if_pos hSingle]
      exact ihYes hSteady.1 h
    next hSingle =>
      rw [if_neg hSingle]
      exact ihNo hSteady.2 h
  | troubled yes no ihYes ihNo =>
    intro f s qs s' hSteady h
    unfold Production.exec at h ⊢
    split at h
    next hTrouble =>
      rw [if_pos hTrouble]
      exact ihYes hSteady.1 h
    next hTrouble =>
      rw [if_neg hTrouble]
      exact ihNo hSteady.2 h

/-! ## Statements -/

/-- How a statement ends without a fault. -/
theorem terminated_exec (call : Setting → Goal → Frame → ParserState → Outcome) (σ : Setting)
    (rule : Rule) (f : Frame) (s : ParserState) :
    (s.current.kind = .symbol .semicolon →
        (Grammar.terminated rule).exec call σ f s =
          .parsed [.node rule (f.parts ++ [.token s.current])] s.advance) ∧
      (Grammar.closers.contains s.current.kind = true →
        (Grammar.terminated rule).exec call σ f s = .parsed [.node rule f.parts] s) := by
  constructor
  · intro hHere
    simp only [Grammar.terminated, Grammar.ended, Production.exec, ParserState.window_here, hHere,
      if_true]
    rfl
  · intro hHere
    have hOther : s.current.kind ≠ .symbol .semicolon := by
      intro hIs
      rw [hIs] at hHere
      cases hHere
    simp only [Grammar.terminated, Grammar.ended, Production.exec, ParserState.window_here, hOther,
      hHere, if_false, if_true]
    rfl

/-- What fast prediction does with an expression statement: it parses an expression, and the
statement ends with a semicolon or in front of what closes a block. -/
theorem expressionStatement_parsed {steps : Nat} {s s' : ParserState} {qs : List Tree}
    (h : Grammar.expressionStatement.exec (run steps) .fast (.start s) s = .parsed qs s') :
    ∃ mid s₁ cs, run steps .fast .expression (.start s) s = .parsed mid s₁ ∧
      qs = [.node .expressionStatement cs] ∧
      ((s₁.current.kind = .symbol .semicolon ∧ cs = mid ++ [.token s₁.current] ∧
          s' = s₁.advance) ∨
        (Grammar.closers.contains s₁.current.kind = true ∧ cs = mid ∧ s' = s₁)) := by
  simp only [Grammar.expressionStatement, Production.exec] at h
  split at h
  next mid s₁ hParsed =>
    obtain ⟨hSemicolon, hCloser⟩ :=
      terminated_exec (run steps) .fast .expressionStatement ((Frame.start s).append mid) s₁
    by_cases hHere : s₁.current.kind = .symbol .semicolon
    · rw [hSemicolon hHere] at h
      cases h
      exact ⟨mid, s₁, _, hParsed, rfl, .inl ⟨hHere, rfl, rfl⟩⟩
    by_cases hClose : Grammar.closers.contains s₁.current.kind = true
    · rw [hCloser hClose] at h
      cases h
      exact ⟨mid, _, _, hParsed, rfl, .inr ⟨hClose, rfl, rfl⟩⟩
    -- No fault was found in a strict parse, and none can be.
    obtain ⟨ls, hAdds⟩ := run_adds steps _ _ _ _ _ _ hParsed
    have hQuiet : s₁.findings.length = s.findings.length := by
      rw [hAdds.quiet rfl]
    have hStrict : Setting.fast.strict = true := rfl
    have hNoCloser : s₁.current.kind ∉ Grammar.closers :=
      fun hMem => hClose (List.contains_iff_mem.2 hMem)
    simp [Grammar.terminated, Grammar.ended, Grammar.unended, Production.exec, hHere, hNoCloser,
      hQuiet, hStrict, Frame.append, Frame.start] at h
  next hBad => exact absurd h (hBad _ _)

/-- The kinds ahead begin with those of the window, as far as there are any. -/
theorem ParserState.kindsAhead_eq_window {s : ParserState} (h : s.current.kind ≠ .endOfInput) :
    ∃ ks, s.kindsAhead = s.window.here :: s.window.next :: ks := by
  have hOpen : s.stream.atEnd = false := Bool.eq_false_iff.2 fun hEnd => h (s.atEnd_iff.1 hEnd)
  obtain ⟨ts, hRest⟩ := TokenStream.rest_of_not_atEnd hOpen
  cases ts with
  | nil => exact ⟨[], by simp [kindsAhead, window, TokenStream.peek, hRest]⟩
  | cons t ts => exact ⟨_, by simp [kindsAhead, window, TokenStream.peek, hRest]; rfl⟩

/-- The tokens of an expression statement settle where words and dots lead from it. -/
theorem leadsToFunction_kindsAhead {steps : Nat} {s s' : ParserState} {cs : List Tree}
    (h : Grammar.expressionStatement.exec (run steps) .fast (.start s) s =
      .parsed [.node .expressionStatement cs] s') :
    s.kindsAhead = (Leaf.passed (leavesAll cs)).map (·.kind) ++ s'.kindsAhead ∧
      Grammar.leadsToFunction s.kindsAhead =
        Grammar.leadsToFunction ((Leaf.passed (leavesAll cs)).map (·.kind)) := by
  obtain ⟨ls, hAdds⟩ := exec_adds (run_adds steps) _ _ _ _ _ _ h
  have hLeaves : leavesAll cs = ls := by
    have hAll := hAdds.leaves
    simpa [Tree.leavesAll, Tree.leaves, Frame.start] using hAll
  have hAhead : s.kindsAhead = (Leaf.passed (leavesAll cs)).map (·.kind) ++ s'.kindsAhead := by
    rw [hLeaves]
    exact ParserState.kindsAhead_eq hAdds.passes
  refine ⟨hAhead, ?_⟩
  rw [hAhead]
  apply Grammar.leadsToFunction_append
  obtain ⟨mid, s₁, cs', hParsed, hNode, hEnds⟩ := expressionStatement_parsed h
  obtain rfl : cs = cs' := by simpa using hNode
  rcases hEnds with ⟨hHere, hParts, -⟩ | ⟨hClose, -, hState⟩
  · have hToken : s₁.current ∈ Leaf.passed (leavesAll cs) := by
      rw [hParts, Tree.leavesAll_append, Leaf.passed_append, List.mem_append]
      right
      simp [leavesAll, Tree.leaves, Tree.token, Leaf.passed, Leaf.token?, Token.isEnd, hHere]
    refine ⟨s₁.current.kind, List.mem_append_left _ (List.mem_map_of_mem hToken), ?_⟩
    rw [hHere]
    rfl
  · refine ⟨s'.current.kind, ?_, ?_⟩
    · rw [s'.head?_kindsAhead]
      simp
    · have hAll : ∀ k ∈ Grammar.closers, Grammar.endsRun k = true := by decide
      rw [hState]
      exact hAll _ (List.contains_iff_mem.1 hClose)

/-- Both kinds of prediction agree on an expression statement that does not look like a function. -/
theorem expressionStatement_agrees {steps : Nat} (hCall : CallsAgree steps) {s s' : ParserState}
    {cs : List Tree}
    (h : Grammar.expressionStatement.exec (run steps) .fast (.start s) s =
      .parsed [.node .expressionStatement cs] s')
    (hLooks : looksLikeFunction ((Leaf.passed (leavesAll cs)).map (·.kind)) = false) :
    Agrees [] s [.node .expressionStatement cs] s'
      (Grammar.expressionStatement.exec (run steps) .lenient (.start s) s) := by
  have hRoot : ∀ b, misreadAny cs = b → misreadAny [.node .expressionStatement cs] = b := by
    intro b hBelow
    simp [misreadAny, Tree.misread, hLooks, hBelow]
  obtain ⟨mid, s₁, cs', hParsed, hNode, hEnds⟩ := expressionStatement_parsed h
  obtain rfl : cs = cs' := by simpa using hNode
  have hGoal := hCall .expression (.start s) s mid s₁ (fun _ => rfl) hParsed
  have hBelow : misreadAny cs = misreadAny mid := by
    rcases hEnds with ⟨-, hParts, -⟩ | ⟨-, hParts, -⟩
    · rw [hParts, Tree.misreadAny_append]
      simp [misreadAny, Tree.misread, Tree.token]
    · rw [hParts]
  simp only [Grammar.expressionStatement, Production.exec]
  generalize run steps .lenient .expression (.start s) s = o at hGoal
  cases hGoal with
  | strays hMisread hStrays =>
    exact .strays (hRoot true (hBelow.trans hMisread)) (hStrays.andThen fun _ _ => .exec)
  | same hClean =>
    obtain ⟨hSemicolon, hCloser⟩ := terminated_exec (run steps) .lenient
      .expressionStatement ((Frame.start s).append mid) s₁
    have hSame : (Grammar.terminated .expressionStatement).exec (run steps) .lenient
        ((Frame.start s).append mid) s₁ = .parsed [.node .expressionStatement cs] s' := by
      rcases hEnds with ⟨hHere, hParts, hState⟩ | ⟨hClose, hParts, hState⟩
      · rw [hSemicolon hHere, hParts, hState]
        rfl
      · rw [hCloser hClose, hParts, hState]
        rfl
    dsimp only
    rw [hSame]
    exact .same fun _ => hRoot false (hBelow.trans (hClean rfl))

/-- Both kinds of prediction agree on every form of a statement. -/
theorem form_agrees {steps : Nat} (hCall : CallsAgree steps) {w : Window} {p : Production}
    (hForm : Grammar.StatementForm w p) {s s' : ParserState} {qs : List Tree} (hWindow : w = s.window)
    (h : p.exec (run steps) .fast (.start s) s = .parsed qs s') :
    Agrees [] s qs s' (p.exec (run steps) .lenient (.start s) s) := by
  induction hForm with
  | steady hSteady => exact exec_agrees hCall _ hSteady h
  | spell hForms ih => exact ih _ h
  | expression hPlain =>
    obtain ⟨mid, s₁, cs, -, rfl, -⟩ := expressionStatement_parsed h
    obtain ⟨hAhead, -⟩ := leadsToFunction_kindsAhead h
    refine expressionStatement_agrees hCall h (Bool.eq_false_iff.2 fun hLooks => hPlain ?_)
    obtain ⟨⟨ks, hKinds⟩, -⟩ := looksLikeFunction_iff.1 hLooks
    rw [hKinds] at hAhead
    have hHead := s.head?_kindsAhead
    rw [hAhead] at hHead
    have hHere : s.current.kind = .identifier := (Option.some.inj hHead).symm
    obtain ⟨ls, hWindowAhead⟩ := ParserState.kindsAhead_eq_window (s := s) (by simp [hHere])
    rw [hAhead] at hWindowAhead
    rw [hWindow, ParserState.window_here]
    injection hWindowAhead with _ hTail
    injection hTail with hNext _
    exact ⟨hHere, hNext.symm⟩
  | dotted hHere hNext =>
    have hFast : Grammar.expressionStatement.exec (run steps) .fast (.start s) s =
      .parsed qs s' := h
    obtain ⟨mid, s₁, cs, -, rfl, -⟩ := expressionStatement_parsed hFast
    obtain ⟨hAhead, hLeads⟩ := leadsToFunction_kindsAhead hFast
    rw [hWindow] at hHere hNext
    rw [ParserState.window_here] at hHere
    obtain ⟨ls, hWindowAhead⟩ := ParserState.kindsAhead_eq_window (s := s) (by simp [hHere])
    rw [ParserState.window_here, hHere, hNext] at hWindowAhead
    simp only [Production.exec, Setting.lenient]
    split
    next hTest =>
      have hKinds : looksLikeFunction ((Leaf.passed (leavesAll cs)).map (·.kind)) = true := by
        rw [hLeads] at hTest
        obtain ⟨k, l, tail, hSplit⟩ := Grammar.exists_of_leadsToFunction hTest
        refine looksLikeFunction_iff.2 ⟨⟨tail, ?_⟩, hTest⟩
        rw [hSplit] at hAhead ⊢
        rw [hWindowAhead] at hAhead
        injection hAhead with hFirst hTail
        injection hTail with hSecond _
        rw [← hFirst, ← hSecond]
      refine .strays (by simp [misreadAny, Tree.misread, hKinds]) fun parts s₂ hParsed => ?_
      rcases functionDeclaration_finds steps hHere hNext hParsed with
        ⟨u, hWords, hFunction⟩ | hFound
      · exact absurd hFast
          (expressionStatement_not_parsed rfl hFunction hHere hNext hWords steps _ _)
      · exact hFound
    next hTest =>
      refine expressionStatement_agrees hCall hFast (Bool.eq_false_iff.2 fun hLooks => hTest ?_)
      rw [hLeads]
      exact (looksLikeFunction_iff.1 hLooks).2

/-! ## Parses -/

/-- With any number of steps both kinds of prediction agree on all goals. -/
theorem run_agrees (steps : Nat) : CallsAgree steps := by
  induction steps with
  | zero =>
    intro goal f s qs s' hStart h
    cases h
  | succ steps ih =>
    intro goal f s qs s' hStart h
    by_cases hGoal : goal = .statement
    · obtain ⟨choose, hChoose, hForms⟩ := Grammar.statement_form
      have hProduction : Goal.statement.production = .look choose := hChoose
      rw [hStart hGoal] at h ⊢
      rw [hGoal, run, hProduction] at h ⊢
      exact form_agrees ih (hForms s.window) rfl h
    · exact exec_agrees ih goal.production (Grammar.steady_production hGoal) h

/-- Where fast prediction gives a tree, general prediction gives the same tree and finds nothing,
exactly if no expression that looks like the head of a function is a statement of the tree. -/
theorem parse_fast_agrees {stream : TokenStream} {entry : Entry} {tree : Tree} {p : Parser}
    (h : (Parser.new stream .fast).parse entry = (.ok tree, p)) :
    (∃ q, (Parser.new stream .general).parse entry = (.ok tree, q) ∧ q.findings = .empty) ↔
      tree.misread = false := by
  obtain ⟨parts, rfl, -, hFast⟩ := Parser.parse_eq_ok_iff.1 h
  have hRule : entry.rule ≠ .expressionStatement := by cases entry <;> simp [Entry.rule]
  have hAgrees : Agrees [] ⟨stream, .empty⟩ parts ⟨p.stream, p.findings⟩
      (parseGoal .lenient entry.goal ⟨stream, .empty⟩) :=
    run_agrees _ entry.goal _ _ _ _ (fun _ => rfl) hFast
  rw [Tree.misread_node hRule]
  generalize hRun : parseGoal .lenient entry.goal ⟨stream, .empty⟩ = o at hAgrees
  cases hAgrees with
  | same hClean =>
    refine ⟨fun _ => hClean rfl, fun _ => ⟨⟨p.stream, .general, p.findings⟩, ?_, ?_⟩⟩
    · exact Parser.parse_eq_ok_iff.2 ⟨parts, rfl, rfl, hRun⟩
    · obtain ⟨ls, hAdds⟩ := run_adds _ _ _ _ _ _ _ hFast
      exact hAdds.quiet rfl
  | strays hMisread hStrays =>
    rw [hMisread]
    refine ⟨fun hGeneral => ?_, fun hClean => nomatch hClean⟩
    obtain ⟨q, hParse, hNothing⟩ := hGeneral
    obtain ⟨others, -, -, hParsed⟩ := Parser.parse_eq_ok_iff.1 hParse
    have hFound := (hStrays others _ (hRun.symm.trans hParsed)).1
    rw [hNothing] at hFound
    exact absurd hFound (Nat.lt_irrefl _)

/-- The tokens of `a.b is function(){};`, an expression whose second operand is a function. -/
def functionOperand : TokenStream where
  before := []
  rest := [
    ⟨.identifier, "a", ⟨.ofNat 0, .ofNat 1, by decide⟩, 1⟩,
    ⟨.symbol .dot, ".", ⟨.ofNat 1, .ofNat 2, by decide⟩, 1⟩,
    ⟨.identifier, "b", ⟨.ofNat 2, .ofNat 3, by decide⟩, 1⟩,
    ⟨.keyword .is, "is", ⟨.ofNat 4, .ofNat 6, by decide⟩, 1⟩,
    ⟨.keyword .function, "function", ⟨.ofNat 7, .ofNat 15, by decide⟩, 1⟩,
    ⟨.symbol .lParen, "(", ⟨.ofNat 15, .ofNat 16, by decide⟩, 1⟩,
    ⟨.symbol .rParen, ")", ⟨.ofNat 16, .ofNat 17, by decide⟩, 1⟩,
    ⟨.symbol .lBrace, "\x7b", ⟨.ofNat 17, .ofNat 18, by decide⟩, 1⟩,
    ⟨.symbol .rBrace, "\x7d", ⟨.ofNat 18, .ofNat 19, by decide⟩, 1⟩,
    ⟨.symbol .semicolon, ";", ⟨.ofNat 19, .ofNat 20, by decide⟩, 1⟩]
  last := .endAt 20 1
  last_isEnd := rfl

/-- Fast prediction reads the operand as one, and general prediction does not give that tree. -/
theorem parse_fast_agrees_functionOperand :
    ∃ tree p, (Parser.new functionOperand .fast).parse .script = (.ok tree, p) ∧
      tree.misread = true ∧
        ¬ ∃ q, (Parser.new functionOperand .general).parse .script = (.ok tree, q) ∧
          q.findings = .empty := by
  have hOk : ((Parser.new functionOperand .fast).parse .script).1.toOption.map Tree.misread =
      some true := by decide
  cases hParse : (Parser.new functionOperand .fast).parse .script with
  | mk result p =>
    rw [hParse] at hOk
    cases result with
    | error bail => cases hOk
    | ok tree =>
      have hMisread : tree.misread = true := Option.some.inj hOk
      refine ⟨tree, p, rfl, hMisread, fun hAgrees => ?_⟩
      rw [(parse_fast_agrees hParse).1 hAgrees] at hMisread
      cases hMisread

/-- So fast prediction does not always give the tree that general prediction gives. -/
theorem not_fast_refines_general :
    ¬ ∀ stream entry tree p, (Parser.new stream .fast).parse entry = (.ok tree, p) →
      ∃ q, (Parser.new stream .general).parse entry = (.ok tree, q) ∧ q.findings = .empty := by
  intro hAlways
  have hOk : ((Parser.new functionOperand .fast).parse .script).1.isOk = true := by decide
  have hFound :
      ((Parser.new functionOperand .general).parse .script).2.findings.isEmpty = false := by
    decide
  cases hParse : (Parser.new functionOperand .fast).parse .script with
  | mk result p =>
    rw [hParse] at hOk
    cases result with
    | error bail => cases hOk
    | ok tree =>
      obtain ⟨q, hGeneral, hNothing⟩ := hAlways _ _ _ _ hParse
      rw [hGeneral] at hFound
      dsimp only at hFound
      rw [hNothing] at hFound
      cases hFound

end CfScript
