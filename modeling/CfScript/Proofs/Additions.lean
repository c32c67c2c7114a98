import CfScript.Proofs.Actions
import CfScript.Proofs.Passage

/-!
# What a run adds

Whatever the grammar says, a run adds leaves to the parts it was given and findings to the log, and
nothing it adds is ever out of step with the cursor: the tokens of the new leaves are the tokens
passed, in order, each once; and a new finding is an error and never comes without a leaf that stems
from one. A statement that takes no token is taken back together with its findings, and an attempt
leaves nothing behind.

## Main results

* `Adds.trans`: two runs one after the other add the leaves of both;
* `Adds.undone`: a run that passes nothing and loses its findings changed nothing;
* `adds_laws`: what every action adds;
* `exec_adds`, `run_adds`: what every production and every goal adds.
-/

namespace CfScript

open CfScript.Tree (leavesAll)

theorem Tree.leavesAll_skipped (ts : List Token) :
    leavesAll (ts.map .skipped) = ts.map Leaf.skipped := by
  induction ts with
  | nil => rfl
  | cons t ts ih => simp [leavesAll, leaves, skipped, ih]

/-- The tokens that leaves stand for, the end of the input left out. -/
def Leaf.passed (ls : List Leaf) : List Token := (ls.filterMap (·.token?)).filter (!·.isEnd)

@[simp] theorem Leaf.passed_append (ls ms : List Leaf) :
    passed (ls ++ ms) = passed ls ++ passed ms := by
  simp [passed]

/-- From the parts `ps` at `s` to the parts `qs` at `s'` a run adds the leaves `ls`. -/
structure Adds (σ : Setting) (ps : List Tree) (s : ParserState) (ls : List Leaf) (qs : List Tree)
    (s' : ParserState) : Prop where
  leaves : leavesAll qs = leavesAll ps ++ ls
  passes : s.stream.Passes (Leaf.passed ls) s'.stream
  findings : ∃ ds, s'.findings = s.findings.append ds ∧ (ds ≠ [] → ls.any (·.isError) = true) ∧
    ∀ d ∈ ds, d.isError = true
  quiet : σ.strict = true → s'.findings = s.findings

namespace Adds

variable {σ : Setting} {ps qs rs : List Tree} {s s' s'' : ParserState} {ls ms : List Leaf}

theorem refl (σ : Setting) (ps : List Tree) (s : ParserState) : Adds σ ps s [] ps s where
  leaves := by simp
  passes := .refl s.stream
  findings := ⟨[], by simp [Log.append], by simp⟩
  quiet _ := rfl

theorem trans (h : Adds σ ps s ls qs s') (h' : Adds σ qs s' ms rs s'') :
    Adds σ ps s (ls ++ ms) rs s'' where
  leaves := by rw [h'.leaves, h.leaves, List.append_assoc]
  passes := by
    rw [Leaf.passed_append]
    exact h.passes.trans h'.passes
  findings := by
    obtain ⟨ds, hDs, hError, hAll⟩ := h.findings
    obtain ⟨es, hEs, hError', hAll'⟩ := h'.findings
    refine ⟨ds ++ es, ?_, ?_, ?_⟩
    · rw [hEs, hDs, Log.append, Log.append, Log.append, List.append_assoc]
    · intro hNe
      rw [List.any_append, Bool.or_eq_true]
      by_cases hNil : ds = []
      · exact Or.inr (hError' (by simpa [hNil] using hNe))
      · exact Or.inl (hError hNil)
    · intro d hMem
      rcases List.mem_append.1 hMem with hMem | hMem
      · exact hAll d hMem
      · exact hAll' d hMem
  quiet hStrict := (h'.quiet hStrict).trans (h.quiet hStrict)

/-- What a goal or a node adds on parts of its own is added to the parts that were there. -/
theorem child (h : Adds σ [] s ls qs s') (ps : List Tree) : Adds σ ps s ls (ps ++ qs) s' where
  leaves := by simpa [Tree.leavesAll] using h.leaves
  passes := h.passes
  findings := h.findings
  quiet := h.quiet

theorem node (h : Adds σ [] s ls qs s') (ps : List Tree) (rule : Rule) :
    Adds σ ps s ls (ps ++ [.node rule qs]) s' where
  leaves := by simpa [Tree.leavesAll, Tree.leaves] using h.leaves
  passes := h.passes
  findings := h.findings
  quiet := h.quiet

theorem close (σ : Setting) (ps : List Tree) (s : ParserState) (rule : Rule) :
    Adds σ ps s [] [.node rule ps] s where
  leaves := by simp [Tree.leavesAll, Tree.leaves]
  passes := .refl s.stream
  findings := ⟨[], by simp [Log.append], by simp⟩
  quiet _ := rfl

theorem length_findings_le (h : Adds σ ps s ls qs s') : s.findings.length ≤ s'.findings.length := by
  obtain ⟨ds, hDs, -⟩ := h.findings
  rw [hDs, Log.append, Log.length, Log.length, List.length_append]
  omega

/-- A run that passes no token changes nothing once its findings are taken back. -/
theorem undone (h : Adds σ ps s ls qs s') (hPos : s'.stream.pos = s.stream.pos) :
    { s' with findings := s'.findings.truncate s.findings.length } = s := by
  obtain ⟨ds, hDs, -⟩ := h.findings
  rw [hDs, Log.truncate_length_append, (h.passes.eq_of_pos hPos).2]

end Adds

/-! ## Single actions -/

/-- Every fault is found as an error. -/
theorem isError_diagnostic (fault : Fault) (t : Token) : (fault.diagnostic t).isError = true := rfl

namespace Adds

variable (σ : Setting) (ps : List Tree) (s : ParserState)

/-- The leaf of the current token passes it, unless it is the end of the input. -/
private theorem passes_current {l : Leaf} (hToken : l.token? = some s.current) :
    s.stream.Passes (Leaf.passed [l]) s.advance.stream := by
  by_cases hEnd : s.current.isEnd = true
  · have hPassed : Leaf.passed [l] = [] := by simp [Leaf.passed, hToken, hEnd]
    rw [hPassed, ParserState.advance, TokenStream.advance_of_atEnd hEnd]
    exact .refl s.stream
  · have hPassed : Leaf.passed [l] = [s.current] := by simp [Leaf.passed, hToken, hEnd]
    rw [hPassed]
    exact TokenStream.passes_advance (Bool.eq_false_iff.2 hEnd)

theorem take : Adds σ ps s [.matched s.current] (ps ++ [.token s.current]) s.advance where
  leaves := by simp [Tree.leavesAll, Tree.leaves, Tree.token]
  passes := passes_current s rfl
  findings := ⟨[], by simp [ParserState.advance, Log.append], by simp⟩
  quiet _ := rfl

theorem skip : Adds σ ps s [.skipped s.current] (ps ++ [.skipped s.current]) s.advance where
  leaves := by simp [Tree.leavesAll, Tree.leaves, Tree.skipped]
  passes := passes_current s rfl
  findings := ⟨[], by simp [ParserState.advance, Log.append], by simp⟩
  quiet _ := rfl

theorem assume {σ : Setting} (hLenient : ¬ σ.strict = true) (what : String) (fault : Fault) :
    Adds σ ps s [.assumed what] (ps ++ [.assumed what]) (s.report fault) where
  leaves := by simp [Tree.leavesAll, Tree.leaves, Tree.assumed]
  passes := .refl s.stream
  findings :=
    ⟨[fault.diagnostic s.current], rfl, by simp [Leaf.isError], by simp [isError_diagnostic]⟩
  quiet hStrict := absurd hStrict hLenient

theorem reject {σ : Setting} (hLenient : ¬ σ.strict = true) (fault : Fault) :
    Adds σ ps s [.skipped s.current] (ps ++ [.skipped s.current]) (s.report fault).advance where
  leaves := by simp [Tree.leavesAll, Tree.leaves, Tree.skipped]
  passes := passes_current s rfl
  findings :=
    ⟨[fault.diagnostic s.current], rfl, by simp [Leaf.isError], by simp [isError_diagnostic]⟩
  quiet hStrict := absurd hStrict hLenient

/-- The leaves of a statement whose rest is skipped. -/
def recovered (s : ParserState) : List Leaf :=
  (Token.skipStatement .empty s.stream.rest).1.map .skipped ++
    (Token.skipStatement .empty s.stream.rest).2.toList.map .matched

theorem tokens_recovered :
    (recovered s).filterMap (·.token?) = Token.skippedTokens .empty s.stream.rest := by
  have hSkipped : (fun l : Leaf => l.token?) ∘ Leaf.skipped = some := rfl
  have hMatched : (fun l : Leaf => l.token?) ∘ Leaf.matched = some := rfl
  rw [recovered, List.filterMap_append, List.filterMap_map, List.filterMap_map, hSkipped, hMatched,
    List.filterMap_some, List.filterMap_some, Token.skippedTokens]

theorem passed_recovered :
    Leaf.passed (recovered s) = Token.skippedTokens .empty s.stream.rest := by
  have hOpen := (Token.skipStatement_prefix .empty s.stream.rest).2
  rw [Leaf.passed, tokens_recovered]
  exact List.filter_eq_self.2 fun t h => by simp [hOpen t h]

private theorem leavesAll_recovered (ts : List Token) (o : Option Token) :
    leavesAll (ts.map .skipped ++ o.toList.map .token) =
      ts.map Leaf.skipped ++ o.toList.map Leaf.matched := by
  rw [Tree.leavesAll_append, Tree.leavesAll_skipped]
  cases o <;> simp [Tree.leavesAll, Tree.leaves, Tree.token]

theorem recover :
    Adds σ ps s (recovered s)
      (ps ++ ((Token.skipStatement .empty s.stream.rest).1.map .skipped ++
        (Token.skipStatement .empty s.stream.rest).2.toList.map .token))
      ⟨s.stream.advanceBy ((Token.skipStatement .empty s.stream.rest).1.length +
        (Token.skipStatement .empty s.stream.rest).2.toList.length), s.findings⟩ where
  leaves := by rw [Tree.leavesAll_append, leavesAll_recovered]; rfl
  passes := by
    obtain ⟨hPrefix, hOpen⟩ := Token.skipStatement_prefix .empty s.stream.rest
    have h := TokenStream.passes_advanceBy hPrefix hOpen
    rw [passed_recovered]
    simpa [Token.skippedTokens] using h
  findings := ⟨[], by simp [Log.append], by simp⟩
  quiet _ := rfl

end Adds

/-! ## Productions and goals -/

/-- Every action adds leaves and findings. -/
theorem adds_laws : RunLaws fun σ ps s qs s' => ∃ ls, Adds σ ps s ls qs s' where
  refl σ ps s := ⟨_, .refl σ ps s⟩
  trans := by
    rintro σ ps s qs s' rs s'' ⟨ls, hLs⟩ ⟨ms, hMs⟩
    exact ⟨ls ++ ms, hLs.trans hMs⟩
  take σ ps s := ⟨_, .take σ ps s⟩
  assume ps s what fault hLenient := ⟨_, .assume ps s hLenient what fault⟩
  reject ps s fault hLenient := ⟨_, .reject ps s hLenient fault⟩
  skip ps s _ := ⟨_, .skip _ ps s⟩
  recover σ ps s := ⟨_, .recover σ ps s⟩
  close σ ps s rule := ⟨_, .close σ ps s rule⟩
  child ps := by
    rintro ⟨ls, hLs⟩
    exact ⟨ls, hLs.child ps⟩
  node ps rule := by
    rintro ⟨ls, hLs⟩
    exact ⟨ls, hLs.node ps rule⟩
  undo ps := by
    rintro ⟨ls, hLs⟩ hPos
    rw [hLs.undone hPos]
    exact ⟨[], .refl _ ps _⟩

/-- A production adds leaves and findings if all that it calls does. -/
theorem exec_adds {call : Setting → Goal → Frame → ParserState → Outcome}
    (hCall : ∀ σ goal f s parts s', call σ goal f s = .parsed parts s' →
      ∃ ls, Adds σ f.parts s ls parts s') (p : Production) :
    ∀ σ f s parts s', p.exec call σ f s = .parsed parts s' →
      ∃ ls, Adds σ f.parts s ls parts s' :=
  adds_laws.exec hCall p

theorem run_adds (steps : Nat) :
    ∀ σ goal f s parts s', run steps σ goal f s = .parsed parts s' →
      ∃ ls, Adds σ f.parts s ls parts s' :=
  adds_laws.run steps

end CfScript
