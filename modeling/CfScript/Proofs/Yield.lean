import CfScript.Proofs.Contract
import CfScript.Proofs.Coverage
import CfScript.Proofs.Form

/-!
# What a production makes

Whatever the tokens are, a production makes nodes of a few forms, and the grammar shows which:
`Yields` follows the actions of a production with the parts collected so far and with what the last
decisions have seen of the tokens ahead. Parts that a goal gives are known by the form of the goal
only, so a production is checked without running it and without a look at other productions.

A token that is assumed or skipped is a broken part. It is followed like any other one, because the
parts of a broken node have their places too.

## Main results

* `Production.Yields`: the check of a production;
* `exec_yields`: a production that passes the check makes well-formed parts;
* `run_yields`: so does every goal, if all goals pass the check.
-/

namespace CfScript

/-! ## What is seen of the tokens ahead -/

/-- The kinds of the next tokens as far as they are known, and the current word in small letters, if
it is known. -/
structure Sight where
  ahead : List TokenKind := []
  word? : Option String := none

namespace Sight

/-- Whether a token may be the current one. -/
def Admits (v : Sight) (t : Token) : Prop :=
  (∀ k ∈ v.ahead.head?, t.kind = k) ∧ ∀ text ∈ v.word?, Text.fold t.lexeme = text

/-- What is seen after a token is taken. -/
def pass (v : Sight) : Sight := { ahead := v.ahead.tail }

/-- Whether a state is as it is seen. -/
def Holds (v : Sight) (s : ParserState) : Prop :=
  v.ahead <+: s.window.kinds ∧ ∀ text ∈ v.word?, Text.fold s.current.lexeme = text

variable {v : Sight} {s : ParserState}

theorem holds_blank (s : ParserState) : Holds {} s := ⟨List.nil_prefix, by simp⟩

theorem Holds.admits (h : v.Holds s) : v.Admits s.current := by
  refine ⟨fun k hk => ?_, h.2⟩
  obtain ⟨rest, hRest⟩ := h.1
  cases hAhead : v.ahead with
  | nil => simp [hAhead] at hk
  | cons l ls =>
    obtain rfl : l = k := by simpa [hAhead] using hk
    rw [hAhead, Window.kinds, ParserState.window_here] at hRest
    exact (List.cons.inj hRest).1.symm

end Sight

/-- Whether no token but the last one ends the input. -/
def TokenStream.Ends (s : TokenStream) : Prop := ∀ t ∈ s.rest, t.isEnd = false

namespace TokenStream

variable {s t : TokenStream}

theorem Whole.ends (h : s.Whole) : s.Ends := h.isEnd

theorem Ends.of_passes {ts : List Token} (h : s.Ends) (hPasses : s.Passes ts t) : t.Ends := by
  intro u hu
  exact h u (by simp [hPasses.rest, hu])

theorem Ends.advance (h : s.Ends) : s.advance.Ends := by
  by_cases hEnd : s.atEnd = true
  · rwa [advance_of_atEnd hEnd]
  · exact h.of_passes (passes_advance (Bool.eq_false_iff.2 hEnd))

/-- A step forward sees next what stood behind the current token. -/
theorem Ends.peek_advance (h : s.Ends) (n : Nat) : s.advance.peek n = s.peek (n + 1) := by
  by_cases hEnd : s.atEnd = true
  · have hRest : s.rest = [] := by
      cases hRest : s.rest with
      | nil => rfl
      | cons t ts =>
        have hOpen := h t (by simp [hRest])
        simp [atEnd, current, hRest, hOpen] at hEnd
    rw [advance_of_atEnd hEnd, peek, peek, hRest]
    rfl
  · have hPasses := passes_advance (Bool.eq_false_iff.2 hEnd)
    simp [peek, hPasses.rest]

end TokenStream

theorem Sight.Holds.pass {v : Sight} {s : ParserState} (h : v.Holds s) (hEnds : s.stream.Ends) :
    v.pass.Holds s.advance := by
  have hPeek : ∀ n, s.advance.stream.peek n = s.stream.peek (n + 1) := hEnds.peek_advance
  refine ⟨?_, by simp [Sight.pass]⟩
  have hTail : s.window.kinds.tail <+: s.advance.window.kinds := by
    simp [Window.kinds, ParserState.window, hPeek]
  cases hAhead : v.ahead with
  | nil => simp [Sight.pass, hAhead]
  | cons k ks =>
    obtain ⟨rest, hRest⟩ := h.1
    rw [← hRest, hAhead] at hTail
    rw [Sight.pass, hAhead]
    exact (List.prefix_append ks rest).trans hTail

/-! ## Goals -/

namespace Goal

open Form in
/-- The form of what a goal gives. -/
def form : Goal → Form
  | script => Rule.scriptBlock.form
  | standalone => Rule.standaloneExpression.form
  | leftovers => many (fun _ => false) <| kind .endOfInput done
  | statements _ => Form.statements done
  | statement => Form.statement done
  | switchClauses => many (fun t => t.isNode .caseClause || t.isNode .defaultClause) done
  | catchClauses => many (·.isNode .catchClause) done
  | modifiers => many (·.isTokenThat (·.kind == .identifier)) done
  | dottedName => word <| many (·.isTokenThat fun _ => true) done
  | dottedTail => many (·.isTokenThat fun _ => true) done
  | typedName => Form.typedName done
  | propertyName => Form.typedName done
  | attributes => Form.attributes done
  | parameters => listed (·.isNode .parameter) done
  | arguments => listed (·.isNode .argument) done
  | elements => listed (·.isExpression) done
  | structEntries => listed (·.isNode .structEntry) done
  | expression | ternary | binary _ | binaryTail _ | unary | applied | appliedTail =>
    Form.expression done

/-- Whether a goal turns the parts that are there and what follows into one expression. -/
def goesOn : Goal → Bool
  | binaryTail _ | appliedTail => true
  | _ => false

/-- Whether a goal adds to parts that are there. -/
def adds : Goal → Bool
  | script | leftovers | statements _ | switchClauses | catchClauses | modifiers | dottedTail
  | attributes | parameters | arguments | elements | structEntries => true
  | _ => false

/-- Whether a goal may begin with the parts. -/
def Begins (goal : Goal) (ps : List Tree) : Prop :=
  if goal.goesOn then Form.expression .done ps else goal.adds = true ∨ ps = []

/-- Whether a goal that begins with the parts `ps` may end with the parts `qs`. -/
def Gives (goal : Goal) (ps qs : List Tree) : Prop :=
  if goal.goesOn then goal.form qs else ∃ us, qs = ps ++ us ∧ goal.form us

theorem form_of_gives {goal : Goal} {qs : List Tree} (h : goal.Gives [] qs) : goal.form qs := by
  unfold Gives at h
  split at h
  · exact h
  · obtain ⟨us, rfl, hForm⟩ := h
    exact hForm

end Goal

/-! ## Productions -/

namespace Production

/-- Whether a production that has the parts `ps` and sees `v` only makes nodes of the forms of their
rules, and ends with parts that satisfy `Q`. -/
def Yields : Production → (List Tree → Prop) → Sight → List Tree → Prop
  | done, Q, _, ps => Q ps
  | take next, Q, v, ps => ∀ t, v.Admits t → next.Yields Q v.pass (ps ++ [.token t])
  | expect kind next, Q, _, ps =>
    ∀ t : Tree, t.Fits (·.isTokenThat (·.kind == kind)) → next.Yields Q {} (ps ++ [t])
  | word next, Q, _, ps =>
    ∀ t : Tree, t.Fits (·.isTokenThat (·.kind.isWord)) → next.Yields Q {} (ps ++ [t])
  | assume _ next, Q, _, ps => ∀ t : Tree, t.hasErrors = true → next.Yields Q {} (ps ++ [t])
  | reject _ next, Q, _, ps => ∀ t : Tree, t.hasErrors = true → next.Yields Q {} (ps ++ [t])
  | skip next, Q, _, ps => ∀ t : Tree, t.hasErrors = true → next.Yields Q {} (ps ++ [t])
  | recover next, Q, _, ps => ∀ us, Form.ending us → next.Yields Q {} (ps ++ us)
  | parse goal next, Q, _, ps =>
    goal.Begins [] ∧ ∀ us, goal.form us → next.Yields Q {} (ps ++ us)
  | node rule inner next, Q, v, ps =>
    inner.Yields (fun cs => rule.form cs ∧ next.Yields Q {} (ps ++ [.node rule cs])) v []
  | close rule next, Q, v, ps => rule.form ps ∧ next.Yields Q v [.node rule ps]
  | again goal, Q, _, ps => goal.Begins ps ∧ ∀ qs, goal.Gives ps qs → Q qs
  | progress goal stuck next, Q, _, ps =>
    goal.Begins [] ∧ stuck.Yields Q {} ps ∧ ∀ us, goal.form us → next.Yields Q {} (ps ++ us)
  | look choose, Q, v, ps =>
    ∀ w : Window, v.ahead <+: w.kinds → (choose w).Yields Q { v with ahead := w.kinds } ps
  | spell choose, Q, v, ps => ∀ text, (choose text).Yields Q { v with word? := some text } ps
  | scan _ _ yes no, Q, v, ps => yes.Yields Q v ps ∧ no.Yields Q v ps
  | trial _ _ _ yes no, Q, v, ps => yes.Yields Q v ps ∧ no.Yields Q v ps
  | single yes no, Q, v, ps =>
    (ps.length = 1 → yes.Yields Q v ps) ∧ (ps.length ≠ 1 → no.Yields Q v ps)
  | troubled yes no, Q, v, ps => yes.Yields Q v ps ∧ no.Yields Q v ps

end Production

/-- Whether a goal passes the check, whatever parts it begins with. -/
def Goal.Yields (goal : Goal) : Prop :=
  ∀ ps, goal.Begins ps → goal.production.Yields (goal.Gives ps) {} ps

/-! ## Runs -/

namespace Form

/-- What is skipped of a broken statement ends it. -/
theorem ending_recovered (s : ParserState) :
    ending ((Token.skipStatement .empty s.stream.rest).1.map .skipped ++
      (Token.skipStatement .empty s.stream.rest).2.toList.map .token) := by
  refine many_done fun t ht => ?_
  rcases List.mem_append.1 ht with ht | ht
  · obtain ⟨u, -, rfl⟩ := List.mem_map.1 ht
    exact .inl rfl
  · obtain ⟨u, hu, rfl⟩ := List.mem_map.1 ht
    have hKind := Token.skipStatement_semicolon (Option.mem_toList.1 hu)
    exact .inr (by simp [Tree.isTokenThat, Tree.token, Tree.token?, hKind])

end Form

/-- Where an action stands: on a stream with one end, in sight of what is seen, behind well-formed
parts. -/
structure Stands (v : Sight) (ps : List Tree) (s : ParserState) : Prop where
  ends : s.stream.Ends
  sight : v.Holds s
  parts : ∀ t ∈ ps, t.WellFormed

namespace Stands

variable {v : Sight} {ps qs : List Tree} {s s' : ParserState}

theorem start (h : Stands v ps s) : Stands v [] s := ⟨h.ends, h.sight, nofun⟩

theorem push {t : Tree} (h : Stands v ps s) (ht : t.WellFormed) : Stands v (ps ++ [t]) s where
  ends := h.ends
  sight := h.sight
  parts := by
    intro p hp
    rcases List.mem_append.1 hp with hp | hp
    · exact h.parts p hp
    · rwa [List.mem_singleton.1 hp]

/-- Nothing is seen of the tokens at another place. -/
theorem blur (h : Stands v ps s) (s' : ParserState) (hEnds : s'.stream.Ends) :
    Stands {} ps s' :=
  ⟨hEnds, Sight.holds_blank s', h.parts⟩

theorem take (h : Stands v ps s) : Stands v.pass (ps ++ [.token s.current]) s.advance :=
  Stands.push ⟨h.ends.advance, h.sight.pass h.ends, h.parts⟩ (.leaf _)

/-- A token is taken by its kind, or a part is assumed, or a token is skipped. -/
theorem leaf (h : Stands v ps s) (l : Leaf) (s' : ParserState) (hEnds : s'.stream.Ends) :
    Stands {} (ps ++ [.leaf l]) s' :=
  (h.blur s' hEnds).push (.leaf l)

/-- What is added moves the cursor forward only. -/
theorem append {σ : Setting} (h : Stands v ps s) (hAdds : ∃ ls, Adds σ ps s ls (ps ++ qs) s')
    (hqs : ∀ t ∈ qs, t.WellFormed) : Stands {} (ps ++ qs) s' where
  ends := by
    obtain ⟨ls, hAdds⟩ := hAdds
    exact h.ends.of_passes hAdds.passes
  sight := Sight.holds_blank s'
  parts := List.forall_mem_append.2 ⟨h.parts, hqs⟩

theorem close {rule : Rule} (h : Stands v ps s) (hForm : rule.form ps) :
    Stands v [.node rule ps] s where
  ends := h.ends
  sight := h.sight
  parts := by
    intro t ht
    rw [List.mem_singleton.1 ht]
    exact .node hForm h.parts

end Stands

/-- How a parse of goals behaves whose parts are well-formed and of the forms of the goals. -/
structure Makes (call : Setting → Goal → Frame → ParserState → Outcome) : Prop where
  adds : ∀ σ goal f s parts s', call σ goal f s = .parsed parts s' →
    ∃ ls, Adds σ f.parts s ls parts s'
  makes : ∀ {σ goal f s parts s'}, Stands {} f.parts s → goal.Begins f.parts →
    call σ goal f s = .parsed parts s' → (∀ t ∈ parts, t.WellFormed) ∧ goal.Gives f.parts parts

/-- What a goal gives that begins with no parts is put behind the parts that are there. -/
theorem Makes.child {call : Setting → Goal → Frame → ParserState → Outcome} {σ : Setting}
    {goal : Goal} {v : Sight} {ps parts : List Tree} {s s' : ParserState} (hCall : Makes call)
    (h : Stands v ps s) (hBegins : goal.Begins [])
    (hParsed : call σ goal (.start s) s = .parsed parts s') :
    Stands {} (ps ++ parts) s' ∧ goal.form parts := by
  obtain ⟨ls, hAdds⟩ := hCall.adds _ _ _ _ _ _ hParsed
  obtain ⟨hParts, hGives⟩ := hCall.makes (h.start.blur s h.ends) hBegins hParsed
  exact ⟨h.append ⟨ls, hAdds.child ps⟩ hParts, Goal.form_of_gives hGives⟩

/-- A production that passes the check makes well-formed parts, if all goals do that it asks for. -/
theorem exec_yields {call : Setting → Goal → Frame → ParserState → Outcome} (hCall : Makes call)
    (p : Production) :
    ∀ {Q v σ f s parts s'}, Stands v f.parts s → p.Yields Q v f.parts →
      p.exec call σ f s = .parsed parts s' → (∀ t ∈ parts, t.WellFormed) ∧ Q parts := by
  induction p with
  | done =>
    intro Q v σ f s parts s' hStands hYields h
    cases h
    exact ⟨hStands.parts, hYields⟩
  | take next ih =>
    intro Q v σ f s parts s' hStands hYields h
    exact ih hStands.take (hYields _ hStands.sight.admits) h
  | expect kind next ih =>
    intro Q v σ f s parts s' hStands hYields h
    unfold Production.exec at h
    split at h
    next hKind =>
      have hFits : (Tree.token s.current).Fits (·.isTokenThat (·.kind == kind)) :=
        .inr (beq_iff_eq.2 hKind)
      exact ih (hStands.leaf _ s.advance hStands.ends.advance) (hYields _ hFits) h
    next =>
      split at h
      · cases h
      · exact ih (hStands.leaf _ (s.report _) hStands.ends) (hYields _ (.inl rfl)) h
  | word next ih =>
    intro Q v σ f s parts s' hStands hYields h
    unfold Production.exec at h
    split at h
    next hWord =>
      have hFits : (Tree.token s.current).Fits (·.isTokenThat (·.kind.isWord)) := .inr hWord
      exact ih (hStands.leaf _ s.advance hStands.ends.advance) (hYields _ hFits) h
    next =>
      split at h
      · cases h
      · exact ih (hStands.leaf _ (s.report _) hStands.ends) (hYields _ (.inl rfl)) h
  | assume fault next ih =>
    intro Q v σ f s parts s' hStands hYields h
    unfold Production.exec at h
    split at h
    · cases h
    · exact ih (hStands.leaf _ (s.report _) hStands.ends) (hYields _ rfl) h
  | reject fault next ih =>
    intro Q v σ f s parts s' hStands hYields h
    unfold Production.exec at h
    split at h
    · cases h
    · exact ih (hStands.leaf _ (s.report _).advance hStands.ends.advance)
        (hYields _ rfl) h
  | skip next ih =>
    intro Q v σ f s parts s' hStands hYields h
    unfold Production.exec at h
    split at h
    · cases h
    · exact ih (hStands.leaf _ s.advance hStands.ends.advance) (hYields _ rfl) h
  | recover next ih =>
    intro Q v σ f s parts s' hStands hYields h
    have hLeaves : ∀ t ∈ (Token.skipStatement .empty s.stream.rest).1.map Tree.skipped ++
        (Token.skipStatement .empty s.stream.rest).2.toList.map Tree.token, t.WellFormed := by
      intro t ht
      rcases List.mem_append.1 ht with ht | ht
      · obtain ⟨u, -, rfl⟩ := List.mem_map.1 ht
        exact .leaf _
      · obtain ⟨u, -, rfl⟩ := List.mem_map.1 ht
        exact .leaf _
    exact ih (hStands.append ⟨_, Adds.recover σ f.parts s⟩ hLeaves)
      (hYields _ (Form.ending_recovered s)) h
  | parse goal next ih =>
    intro Q v σ f s parts s' hStands hYields h
    unfold Production.exec at h
    split at h
    next mid s₁ hParsed =>
      obtain ⟨hStands₁, hForm⟩ := hCall.child hStands hYields.1 hParsed
      exact ih hStands₁ (hYields.2 _ hForm) h
    next hNot => exact absurd h (hNot _ _)
  | node rule inner next ihInner ih =>
    intro Q v σ f s parts s' hStands hYields h
    unfold Production.exec at h
    split at h
    next mid s₁ hParsed =>
      obtain ⟨ls, hAdds⟩ := exec_adds hCall.adds inner _ _ _ _ _ hParsed
      obtain ⟨hMid, hForm, hNext⟩ := ihInner (f := .start s) hStands.start hYields hParsed
      have hStands₁ := hStands.blur s₁ (hStands.ends.of_passes hAdds.passes)
      exact ih (hStands₁.push (.node hForm hMid)) hNext h
    next hNot => exact absurd h (hNot _ _)
  | close rule next ih =>
    intro Q v σ f s parts s' hStands hYields h
    exact ih (f := f.close rule) (hStands.close hYields.1) hYields.2 h
  | again goal =>
    intro Q v σ f s parts s' hStands hYields h
    obtain ⟨hMade, hGives⟩ := hCall.makes (hStands.blur s hStands.ends) hYields.1 h
    exact ⟨hMade, hYields.2 _ hGives⟩
  | progress goal stuck next ihStuck ih =>
    intro Q v σ f s parts s' hStands hYields h
    unfold Production.exec at h
    split at h
    next mid s₁ hParsed =>
      obtain ⟨hStands₁, hForm⟩ := hCall.child hStands hYields.1 hParsed
      split at h
      · have hUndone : Stands {} f.parts ⟨s₁.stream, s₁.findings.truncate s.findings.length⟩ :=
          hStands.blur _ hStands₁.ends
        exact ihStuck hUndone hYields.2.1 h
      · exact ih hStands₁ (hYields.2.2 _ hForm) h
    next hNot => exact absurd h (hNot _ _)
  | look choose ih =>
    intro Q v σ f s parts s' hStands hYields h
    have hSight : Sight.Holds { v with ahead := s.window.kinds } s :=
      ⟨List.prefix_rfl, hStands.sight.2⟩
    exact ih s.window ⟨hStands.ends, hSight, hStands.parts⟩
      (hYields s.window hStands.sight.1) h
  | spell choose ih =>
    intro Q v σ f s parts s' hStands hYields h
    have hSight : Sight.Holds { v with word? := some (Text.fold s.current.lexeme) } s :=
      ⟨hStands.sight.1, by simp⟩
    exact ih _ ⟨hStands.ends, hSight, hStands.parts⟩ (hYields _) h
  | scan decision test yes no ihYes ihNo =>
    intro Q v σ f s parts s' hStands hYields h
    unfold Production.exec at h
    split at h
    · cases h
    · exact ihNo hStands hYields.2 h
    · split at h
      · exact ihYes hStands hYields.1 h
      · exact ihNo hStands hYields.2 h
  | trial decision attempt follow yes no ihAttempt ihYes ihNo =>
    intro Q v σ f s parts s' hStands hYields h
    unfold Production.exec at h
    split at h
    · cases h
    · split at h
      · cases h
      · exact ihNo hStands hYields.2 h
      · split at h
        · exact ihYes hStands hYields.1 h
        · exact ihNo hStands hYields.2 h
  | single yes no ihYes ihNo =>
    intro Q v σ f s parts s' hStands hYields h
    unfold Production.exec at h
    split at h
    next hOne => exact ihYes hStands (hYields.1 hOne) h
    next hNot => exact ihNo hStands (hYields.2 hNot) h
  | troubled yes no ihYes ihNo =>
    intro Q v σ f s parts s' hStands hYields h
    unfold Production.exec at h
    split at h
    · exact ihYes hStands hYields.1 h
    · exact ihNo hStands hYields.2 h

/-- If all goals pass the check, every goal makes well-formed parts of its form. -/
theorem run_yields (hGoals : ∀ goal : Goal, goal.Yields) (steps : Nat) : Makes (run steps) := by
  refine ⟨run_adds steps, ?_⟩
  induction steps with
  | zero =>
    intro σ goal f s parts s' _ _ h
    cases h
  | succ steps ih =>
    intro σ goal f s parts s' hStands hBegins h
    exact exec_yields ⟨run_adds steps, ih⟩ goal.production hStands (hGoals goal f.parts hBegins) h

end CfScript
