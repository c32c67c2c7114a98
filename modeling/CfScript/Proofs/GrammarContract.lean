import CfScript.Proofs.Contract

/-!
# The grammar keeps its contract

Every goal is checked, from the productions that it uses upwards. Each lemma says where a production
may stand and what must hold of the one after it; a statement that begins with a keyword needs
nothing but that keyword ahead, and what stands inside delimiters needs that a token was taken.

The only tokens that are taken unseen are arrows. They are taken after the parameters of an arrow
function, where either the three tokens that a decision sees or a look at all that is left has shown
the arrow beforehand.

## Main results

* `keeps_statement`, `keeps_operand`: the two productions with the most cases;
* `Goal.keeps`: every goal keeps the contract.
-/

namespace CfScript

open Production

namespace TokenKind

/-- Whether a token of the kind is neither a delimiter nor a mark for broken or missing input. -/
def isPlain (k : TokenKind) : Bool :=
  (Delimiter.opened? k).isNone && (Delimiter.closed? k).isNone && k != .invalid && k != .endOfInput

theorem isPlain_of_isWord {k : TokenKind} (h : k.isWord = true) : k.isPlain = true := by
  cases k <;> first | rfl | simp [isWord] at h

theorem isPlain_of_isAssignment {k : TokenKind} (h : k.isAssignment = true) : k.isPlain = true := by
  cases k with
  | symbol s => cases s <;> first | rfl | simp [isAssignment, assignments] at h
  | _ => simp [isAssignment] at h

theorem ne_invalid_of_isPlain {k : TokenKind} (h : k.isPlain = true) : k ≠ .invalid := by
  rintro rfl
  cases h

theorem ne_endOfInput_of_isPlain {k : TokenKind} (h : k.isPlain = true) : k ≠ .endOfInput := by
  rintro rfl
  cases h

end TokenKind

theorem Delimiter.nest_of_isPlain {k : TokenKind} (h : k.isPlain = true) (ds : List Delimiter) :
    nest ds k = some ds := by
  simp only [TokenKind.isPlain, Bool.and_eq_true, Option.isNone_iff_eq_none] at h
  simp [nest, h.1.1.1, h.1.1.2]

namespace Grammar

attribute [local simp] Production.Keeps Facts.take Facts.blur Facts.cross Facts.skip Window.kinds
  Goal.NeedsBlame Arrow.across Arrow.pass Goal.facts Goal.rank Goal.Keeps Goal.production
  Delimiter.nest Delimiter.opened? Delimiter.closed?

variable {r : Nat} {Q : Facts → Prop} {next : Production} {k : TokenKind} {ks : List TokenKind}
  {m b : Bool} {ds : List Delimiter} {rule : Rule}

theorem keeps_take (hKind : k.isPlain = true)
    (h : next.Keeps r Q ⟨ks, true, b, ds, .unknown⟩) :
    (take next).Keeps r Q ⟨k :: ks, m, b, ds, .unknown⟩ := by
  have hInvalid := TokenKind.ne_invalid_of_isPlain hKind
  have hEnd := TokenKind.ne_endOfInput_of_isPlain hKind
  exact ⟨hInvalid, fun hIs => absurd hIs hEnd, fun _ => ⟨ds, Delimiter.nest_of_isPlain hKind ds, h⟩⟩

/-- Before a goal it does not matter what is ahead, if the goal may be asked for and what follows
keeps the contract wherever the goal ends. -/
theorem keeps_parse {goal : Goal} (hRank : m = true ∨ goal.rank < r) (hGoal : goal ≠ .leftovers)
    (h : ∀ ks m, next.Keeps r Q ⟨ks, m, b, ds, .unknown⟩) :
    (Production.parse goal next).Keeps r Q ⟨ks, m, b, ds, .unknown⟩ :=
  ⟨hRank, fun hBlame => absurd hBlame hGoal, h _ _, fun _ => h _ _⟩

theorem keeps_parse_moved {goal : Goal} (hGoal : goal ≠ .leftovers)
    (h : next.Keeps r Q ⟨[], true, b, ds, .unknown⟩) :
    (Production.parse goal next).Keeps r Q ⟨ks, true, b, ds, .unknown⟩ :=
  ⟨.inl rfl, fun hBlame => absurd hBlame hGoal, h, fun hMoved => absurd hMoved (by simp)⟩

theorem keeps_word (h : next.Keeps r Q ⟨[], true, b, ds, .unknown⟩) :
    (word next).Keeps r Q ⟨ks, true, b, ds, .unknown⟩ :=
  h

/-- A word that stands ahead. -/
theorem keeps_word_here (hWord : k.isWord = true)
    (h : ∀ ks, next.Keeps r Q ⟨ks, true, b, ds, .unknown⟩) :
    (word next).Keeps r Q ⟨k :: ks, m, b, ds, .unknown⟩ := by
  cases m with
  | true => exact h []
  | false => exact ⟨fun _ => h ks, fun hNot => absurd hWord (hNot k rfl)⟩

theorem keeps_look {choose : Window → Production}
    (h : ∀ w : Window, ks <+: [w.here, w.next, w.second] →
      (choose w).Keeps r Q ⟨[w.here, w.next, w.second], m, b, ds, .unknown⟩) :
    (look choose).Keeps r Q ⟨ks, m, b, ds, .unknown⟩ :=
  h

theorem keeps_spell {choose : String → Production}
    (h : ∀ text, (choose text).Keeps r Q ⟨ks, m, b, ds, .unknown⟩) :
    (spell choose).Keeps r Q ⟨ks, m, b, ds, .unknown⟩ :=
  h

/-- The current token, as far as it is known, is the first of the window. -/
theorem eq_here {w : Window} (h : k :: ks <+: [w.here, w.next, w.second]) : w.here = k :=
  (List.cons_prefix_cons.1 h).1.symm

theorem keeps_expect {kind : TokenKind} {es : List Delimiter}
    (hKind : kind ≠ .invalid ∧ kind ≠ .endOfInput) (hNest : Delimiter.nest ds kind = some es)
    (h : next.Keeps r Q ⟨[], true, b, es, .unknown⟩) :
    (expect kind next).Keeps r Q ⟨ks, true, b, ds, .unknown⟩ :=
  ⟨hKind.1, hKind.2, es, hNest, h⟩

/-- A token of the kind that stands ahead. -/
theorem keeps_expect_here {kind : TokenKind} {es : List Delimiter}
    (hKind : kind ≠ .invalid ∧ kind ≠ .endOfInput) (hNest : Delimiter.nest ds kind = some es)
    (h : ∀ ks, next.Keeps r Q ⟨ks, true, b, es, .unknown⟩) :
    (expect kind next).Keeps r Q ⟨kind :: ks, m, b, ds, .unknown⟩ := by
  refine ⟨hKind.1, hKind.2, es, hNest, ?_⟩
  cases m with
  | true => exact h []
  | false => exact ⟨fun _ => h ks, fun hNot => absurd rfl hNot⟩

/-! ## Names, types and attributes -/

theorem keeps_plainName : plainName.Keeps r (fun _ => True) ⟨ks, m, b, [], .unknown⟩ := by
  simp [plainName]

theorem keeps_dottedTail : Goal.Keeps .dottedTail := by
  refine keeps_look fun w _ => ?_
  split
  next h =>
    rw [h.1]
    exact keeps_take rfl (keeps_take (TokenKind.isPlain_of_isWord h.2) (by simp))
  next => simp

theorem keeps_dottedName : Goal.Keeps .dottedName := by
  simp [dottedName]

theorem keeps_typedName : Goal.Keeps .typedName := by
  refine keeps_parse (.inr (by simp)) (by simp) fun ks m => keeps_look fun w _ => ?_
  split
  next h => exact keeps_take (TokenKind.isPlain_of_isWord h) (by simp)
  next => exact keeps_plainName

theorem keeps_propertyName : Goal.Keeps .propertyName := by
  refine keeps_parse (.inr (by simp)) (by simp) fun ks m => keeps_look fun w _ => ?_
  split
  next h => exact keeps_take (TokenKind.isPlain_of_isWord h.1) (by simp)
  next => exact keeps_plainName

theorem keeps_attributes : Goal.Keeps .attributes := by
  refine keeps_look fun w _ => ?_
  split
  next h =>
    rw [h.2]
    exact keeps_take (TokenKind.isPlain_of_isWord h.1)
      (keeps_take rfl (keeps_parse_moved (by simp) (by simp)))
  next => simp

theorem keeps_separated {goal : Goal} (hGoal : goal ≠ .leftovers) :
    (separated goal).Keeps r (fun _ => True) ⟨ks, m, b, [], .unknown⟩ := by
  refine keeps_look fun w _ => ?_
  split
  next h =>
    rw [h]
    exact keeps_take rfl (by simp [hGoal])
  next => simp

theorem keeps_parameterBody (h : ∀ ks m, Q ⟨ks, m, b, [], .unknown⟩) :
    parameterBody.Keeps 3 Q ⟨ks, m, b, [], .unknown⟩ := by
  refine keeps_parse (.inr (by simp)) (by simp) fun ks m => keeps_look fun w _ => ?_
  split
  next hHere =>
    rw [hHere]
    exact keeps_take rfl <| keeps_parse_moved (by simp) <| keeps_parse_moved (by simp)
      ⟨rfl, h _ _⟩
  next => exact keeps_parse (.inr (by simp)) (by simp) fun ks m => ⟨rfl, h ks m⟩

theorem keeps_parameter (h : ∀ ks m, Q ⟨ks, m, b, [], .unknown⟩) :
    parameter.Keeps 3 Q ⟨ks, m, b, [], .unknown⟩ := by
  refine keeps_look fun w _ => ?_
  split
  next hHere =>
    refine keeps_spell fun text => ?_
    split
    · exact keeps_take (TokenKind.isPlain_of_isWord hHere.1) (keeps_parameterBody h)
    · exact keeps_parameterBody h
  next => exact keeps_parameterBody h

theorem keeps_parameters : Goal.Keeps .parameters :=
  keeps_parameter fun _ _ => keeps_separated (by simp)

theorem keeps_parameterList (h : ∀ ks, next.Keeps r Q ⟨ks, true, b, ds, .unknown⟩) :
    (parameterList next).Keeps r Q ⟨ks, true, b, ds, .unknown⟩ := by
  refine keeps_expect (by simp) rfl (keeps_look fun w _ => ?_)
  split
  next hHere =>
    rw [hHere]
    exact ⟨by simp, by simp, fun _ => ⟨[], rfl, rfl, h _⟩⟩
  next => exact keeps_parse_moved (by simp) (keeps_expect (by simp) rfl ⟨rfl, h _⟩)

/-! ## Statements -/

theorem keeps_listed (hHere : k ≠ .endOfInput) (hRank : 17 < r)
    (h : ∀ b, next.Keeps r Q ⟨[], true, b, ds, .unknown⟩) :
    (listed next).Keeps r Q ⟨k :: ks, m, b, ds, .unknown⟩ := by
  refine ⟨.inr hRank, by simp, ?_, h b⟩
  simpa [hHere] using h true

theorem keeps_script : Goal.Keeps .script := by
  refine keeps_look fun w _ => ?_
  split
  next h => simp [h]
  next hEnd =>
    split
    · simp [hEnd]
    · exact keeps_listed hEnd (by simp) (by simp)

theorem keeps_statements (stop : List TokenKind) : Goal.Keeps (.statements stop) := by
  refine keeps_look fun w _ => ?_
  split
  · simp
  next h => exact keeps_listed (fun hEnd => h (.inl hEnd)) (by simp) (by simp)

theorem keeps_block (h : ∀ ks, next.Keeps r Q ⟨ks, true, b, ds, .unknown⟩) :
    (block next).Keeps r Q ⟨ks, true, b, ds, .unknown⟩ :=
  keeps_expect (by simp) rfl <| keeps_parse_moved (by simp) <| keeps_expect (by simp) rfl ⟨rfl, h _⟩

/-- A block at its opening brace. -/
theorem keeps_block_here (h : ∀ ks, next.Keeps r Q ⟨ks, true, b, ds, .unknown⟩) :
    (block next).Keeps r Q ⟨.symbol .lBrace :: ks, m, b, ds, .unknown⟩ :=
  keeps_expect_here (by simp) rfl fun _ =>
    keeps_parse_moved (by simp) <| keeps_expect (by simp) rfl ⟨rfl, h _⟩

theorem keeps_condition (h : ∀ ks, next.Keeps r Q ⟨ks, true, b, ds, .unknown⟩) :
    (condition next).Keeps r Q ⟨ks, true, b, ds, .unknown⟩ :=
  keeps_expect (by simp) rfl <| keeps_parse_moved (by simp) <| keeps_expect (by simp) rfl (h _)

theorem keeps_ended {broken : Production}
    (h : ∀ ks, broken.Keeps r (fun _ => True) ⟨ks, m, b, [], .unknown⟩) :
    (ended rule broken).Keeps r (fun _ => True) ⟨ks, m, b, [], .unknown⟩ := by
  refine keeps_look fun w _ => ?_
  split
  next hHere =>
    rw [hHere]
    exact keeps_take rfl (by simp)
  next =>
    split
    · simp
    · exact h _

theorem keeps_unended : (unended rule).Keeps r (fun _ => True) ⟨ks, m, b, [], .unknown⟩ := by
  simp [unended]

theorem keeps_terminated :
    (terminated rule).Keeps r (fun _ => True) ⟨ks, m, b, [], .unknown⟩ :=
  keeps_ended fun _ => ⟨by simp, keeps_unended⟩

theorem keeps_wordStatement (hKind : k.isPlain = true) :
    (wordStatement rule).Keeps r (fun _ => True) ⟨k :: ks, m, b, [], .unknown⟩ :=
  keeps_take hKind keeps_terminated

theorem keeps_valueStatement (hKind : k.isPlain = true) :
    (valueStatement rule).Keeps r (fun _ => True) ⟨k :: ks, m, b, [], .unknown⟩ := by
  refine keeps_take hKind (keeps_look fun w _ => ?_)
  split
  · exact keeps_terminated
  · exact keeps_parse_moved (by simp) keeps_terminated

theorem keeps_expressionStatement (hRank : 16 < r) :
    expressionStatement.Keeps r (fun _ => True) ⟨ks, m, b, [], .unknown⟩ :=
  keeps_parse (.inr hRank) (by simp) fun _ _ => keeps_terminated

theorem keeps_declaration (hKind : k.isPlain = true)
    (h : ∀ ks, next.Keeps r Q ⟨ks, true, b, ds, .unknown⟩) :
    (declaration next).Keeps r Q ⟨k :: ks, m, b, ds, .unknown⟩ := by
  refine keeps_take hKind (?_ : (look _).Keeps r Q ⟨[], true, b, ds, .unknown⟩)
  refine keeps_look fun w _ => ?_
  split
  next hHere =>
    rw [hHere]
    exact keeps_take rfl (keeps_parse_moved (by simp) (h _))
  next => exact h _

theorem keeps_ifStatement (hKind : k.isPlain = true) :
    ifStatement.Keeps r (fun _ => True) ⟨k :: ks, m, b, [], .unknown⟩ := by
  refine keeps_take hKind (keeps_condition fun ks => keeps_parse_moved (by simp) ?_)
  refine keeps_look fun w _ => ?_
  split
  next hHere =>
    rw [hHere]
    exact keeps_take rfl (keeps_parse_moved (by simp) (by simp))
  next => simp

theorem keeps_whileStatement (hKind : k.isPlain = true) :
    whileStatement.Keeps r (fun _ => True) ⟨k :: ks, m, b, [], .unknown⟩ :=
  keeps_take hKind (keeps_condition fun _ => keeps_parse_moved (by simp) (by simp))

theorem keeps_doWhileStatement (hKind : k.isPlain = true) :
    doWhileStatement.Keeps r (fun _ => True) ⟨k :: ks, m, b, [], .unknown⟩ :=
  keeps_take hKind <| keeps_parse_moved (by simp) <| keeps_expect (by simp) rfl <|
    keeps_condition fun _ => keeps_terminated

theorem keeps_loopTarget (h : next.Keeps r Q ⟨[], true, b, ds, .unknown⟩) :
    (loopTarget next).Keeps r Q ⟨ks, true, b, ds, .unknown⟩ := by
  refine keeps_look fun w _ => ?_
  split
  next hHere =>
    rw [hHere]
    exact keeps_take rfl (keeps_parse_moved (by simp) h)
  next => exact keeps_parse_moved (by simp) h

theorem keeps_forIn :
    forIn.Keeps r (fun _ => True) ⟨ks, true, b, [.paren], .unknown⟩ :=
  keeps_loopTarget <| keeps_expect (by simp) rfl <| keeps_parse_moved (by simp) <|
    keeps_expect (by simp) rfl <| keeps_parse_moved (by simp) (by simp)

theorem keeps_loopClause {stop : TokenKind} {es : List Delimiter}
    (hStop : stop ≠ .invalid ∧ stop ≠ .endOfInput) (hNest : Delimiter.nest ds stop = some es)
    (h : ∀ ks, next.Keeps r Q ⟨ks, true, b, es, .unknown⟩) :
    (loopClause stop next).Keeps r Q ⟨ks, true, b, ds, .unknown⟩ := by
  refine keeps_look fun w _ => ?_
  split
  next hHere =>
    rw [hHere]
    exact ⟨hStop.1, fun hEnd => absurd hEnd hStop.2, fun _ => ⟨es, hNest, h _⟩⟩
  next => exact keeps_parse_moved (by simp) (keeps_expect hStop hNest (h _))

theorem keeps_loopRest :
    loopRest.Keeps r (fun _ => True) ⟨ks, true, b, [.paren], .unknown⟩ :=
  keeps_loopClause (by simp) rfl fun _ => keeps_loopClause (by simp) rfl fun _ =>
    keeps_parse_moved (by simp) (by simp)

theorem keeps_forClauses :
    forClauses.Keeps r (fun _ => True) ⟨ks, true, b, [.paren], .unknown⟩ := by
  refine keeps_look fun w _ => ?_
  split
  next hHere =>
    rw [hHere]
    exact keeps_declaration rfl fun _ => ⟨rfl, keeps_expect (by simp) rfl keeps_loopRest⟩
  next => exact keeps_loopClause (by simp) rfl fun _ => keeps_loopRest

theorem keeps_forStatement (hKind : k.isPlain = true) :
    forStatement.Keeps r (fun _ => True) ⟨k :: ks, m, b, [], .unknown⟩ := by
  refine keeps_take hKind (keeps_expect (by simp) rfl (keeps_look fun w _ => ?_))
  dsimp only
  generalize (if w.here = _ then w.next else w.here) = first
  generalize (if w.here = _ then w.second else w.next) = second
  split
  · exact keeps_forClauses
  split
  · exact keeps_forIn
  split
  · exact ⟨keeps_loopTarget (by simp), keeps_forIn, keeps_forClauses⟩
  · exact keeps_forClauses

theorem keeps_clauseBody (h : ∀ ks, Q ⟨ks, true, b, [], .unknown⟩) :
    clauseBody.Keeps r Q ⟨ks, true, b, [], .unknown⟩ :=
  keeps_parse_moved (by simp) ⟨rfl, h _⟩

theorem keeps_switchClauses : Goal.Keeps .switchClauses := by
  refine keeps_look fun w _ => ?_
  split
  · simp
  next hOpen =>
    split
    next hHere =>
      rw [hHere]
      exact keeps_take rfl <| keeps_parse_moved (by simp) <| keeps_expect (by simp) rfl <|
        keeps_clauseBody (by simp)
    split
    next hHere =>
      rw [hHere]
      exact keeps_take rfl <| keeps_expect (by simp) rfl <| keeps_clauseBody (by simp)
    · have hEnd : w.here ≠ .endOfInput := fun hEnd => hOpen (by rw [hEnd]; rfl)
      simp [hEnd]

theorem keeps_switchStatement (hKind : k.isPlain = true) :
    switchStatement.Keeps r (fun _ => True) ⟨k :: ks, m, b, [], .unknown⟩ :=
  keeps_take hKind <| keeps_condition fun _ => keeps_expect (by simp) rfl <|
    keeps_parse_moved (by simp) <| keeps_expect (by simp) rfl (by simp)

theorem keeps_catchBody (h : ∀ ks, Q ⟨ks, true, b, [], .unknown⟩) :
    catchBody.Keeps r Q ⟨ks, true, b, [.paren], .unknown⟩ :=
  keeps_expect (by simp) rfl (keeps_block fun _ => ⟨rfl, h _⟩)

theorem keeps_catchClauses : Goal.Keeps .catchClauses := by
  refine keeps_look fun w _ => ?_
  split
  next hHere =>
    rw [hHere]
    refine keeps_take rfl (keeps_expect (by simp) rfl (keeps_look fun w _ => ?_))
    split
    next hHere =>
      rw [hHere]
      refine keeps_take rfl ⟨rfl, ?_⟩
      exact keeps_catchBody (by simp)
    next => exact keeps_parse_moved (by simp) (keeps_catchBody (by simp))
  next => simp

theorem keeps_tryStatement (hKind : k.isPlain = true) :
    tryStatement.Keeps r (fun _ => True) ⟨k :: ks, m, b, [], .unknown⟩ := by
  refine keeps_take hKind (keeps_block fun ks => keeps_parse_moved (by simp) ?_)
  refine keeps_look fun w _ => ?_
  split
  next hHere =>
    rw [hHere]
    exact keeps_take rfl (keeps_block fun _ => by simp)
  next => simp

theorem keeps_importStatement (hKind : k.isPlain = true) :
    importStatement.Keeps r (fun _ => True) ⟨k :: ks, m, b, [], .unknown⟩ := by
  refine keeps_take hKind (keeps_look fun w _ => ?_)
  split
  next hHere =>
    rw [hHere]
    exact keeps_take rfl keeps_terminated
  next =>
    refine keeps_parse_moved (by simp) (keeps_look fun w _ => ?_)
    split
    next hHere =>
      rw [hHere.1, hHere.2]
      exact keeps_take rfl (keeps_take rfl ⟨rfl, keeps_terminated⟩)
    next => exact ⟨rfl, keeps_terminated⟩

theorem keeps_componentDeclaration (hKind : k.isPlain = true) :
    (componentDeclaration rule).Keeps r (fun _ => True) ⟨k :: ks, m, b, [], .unknown⟩ :=
  keeps_take hKind <| keeps_parse_moved (by simp) <| keeps_block fun _ => by simp

theorem keeps_tagStatement (hKind : k.isPlain = true) :
    tagStatement.Keeps r (fun _ => True) ⟨k :: ks, m, b, [], .unknown⟩ := by
  refine keeps_take hKind (keeps_parse_moved (by simp) (keeps_look fun w _ => ?_))
  split
  · exact keeps_block fun _ => by simp
  · exact keeps_terminated

theorem keeps_propertyStatement (hKind : k.isPlain = true) :
    propertyStatement.Keeps r (fun _ => True) ⟨k :: ks, m, b, [], .unknown⟩ := by
  refine keeps_take hKind (keeps_look fun w _ => ?_)
  split
  · exact keeps_parse_moved (by simp) keeps_terminated
  · exact keeps_parse_moved (by simp) (keeps_parse_moved (by simp) keeps_terminated)

theorem keeps_modifiers : Goal.Keeps .modifiers := by
  refine keeps_look fun w _ => ?_
  split
  next hHere =>
    rw [hHere.1]
    refine keeps_spell fun text => ?_
    split
    · exact keeps_take rfl (by simp)
    · simp
  next => simp

/-- A function from the word `function` on. -/
theorem keeps_signature (h : m = true ∨ ks.head? = some (.keyword .function)) :
    signature.Keeps r (fun _ => True) ⟨ks, m, b, [], .unknown⟩ := by
  have hRest : ∀ ks, (word <| parameterList <| .parse .attributes <| look fun w =>
      if w.here = .symbol .lBrace then block <| close .functionDeclaration done
      else ended .functionDeclaration <| unended .functionDeclaration).Keeps r (fun _ => True)
        ⟨ks, true, b, [], .unknown⟩ := by
    intro ks
    refine keeps_word (keeps_parameterList fun ks => keeps_parse_moved (by simp) ?_)
    refine keeps_look fun w _ => ?_
    split
    · exact keeps_block fun _ => by simp
    · exact keeps_ended fun _ => keeps_unended
  rcases h with rfl | hHere
  · exact keeps_expect (by simp) rfl (hRest [])
  · obtain ⟨ks, rfl⟩ := List.head?_eq_some_iff.1 hHere
    exact keeps_expect_here (by simp) rfl hRest

theorem keeps_functionDeclaration (hWord : k.isWord = true) (hRank : 0 < r) :
    functionDeclaration.Keeps r (fun _ => True) ⟨k :: ks, m, b, [], .unknown⟩ := by
  have hHead : ∀ ks m, (m = true ∨ ks.head? = some k) → (look fun w =>
      if w.here = .keyword .function then signature
      else node .returnType (node .typeName dottedName done) signature).Keeps r (fun _ => True)
        ⟨ks, m, b, [], .unknown⟩ := by
    intro ks m h
    refine keeps_look fun w hAhead => ?_
    split
    next hHere => exact keeps_signature (.inr (congrArg some hHere))
    next =>
      have hTail : ∀ ks, (again .dottedTail).Keeps r
          (fun ψ => (done.Keeps r fun ψ =>
              signature.Keeps r (fun _ => True) { ψ with opened := [] })
            { ψ with opened := [] }) ⟨ks, true, b, [], .unknown⟩ := by
        intro ks
        exact ⟨.inl rfl, by simp, rfl, ⟨rfl, keeps_signature (.inl rfl)⟩, by simp⟩
      rcases h with rfl | hHere
      · exact hTail []
      · obtain ⟨ks, rfl⟩ := List.head?_eq_some_iff.1 hHere
        rw [eq_here hAhead]
        exact keeps_word_here hWord hTail
  exact ⟨.inr hRank, by simp, hHead _ _ (.inl rfl), fun _ => hHead _ _ (.inr rfl)⟩

theorem keeps_headedStatement {w : Window} (hWord : k.isWord = true) (hRank : 16 < r) :
    (headedStatement w).Keeps r (fun _ => True) ⟨k :: ks, m, b, [], .unknown⟩ := by
  have hScan : ∀ decision, (scan decision leadsToFunction functionDeclaration
      expressionStatement).Keeps r (fun _ => True) ⟨k :: ks, m, b, [], .unknown⟩ := by
    intro decision
    refine ⟨⟨.unknown, fun _ _ => trivial, ?_⟩, keeps_expressionStatement hRank⟩
    exact keeps_functionDeclaration hWord (by omega)
  unfold headedStatement
  split
  · exact keeps_functionDeclaration hWord (by omega)
  split
  · exact hScan _
  split
  · exact hScan _
  · exact keeps_expressionStatement hRank

theorem keeps_identifierStatement {w : Window} {text : String} (hRank : 16 < r) :
    (identifierStatement text w).Keeps r (fun _ => True)
      ⟨.identifier :: ks, m, b, [], .unknown⟩ := by
  unfold identifierStatement
  split
  · exact keeps_tagStatement rfl
  split
  · exact keeps_valueStatement rfl
  split
  · exact keeps_valueStatement rfl
  · exact keeps_headedStatement rfl hRank

theorem keeps_statement : Goal.Keeps .statement := by
  refine keeps_look fun w _ => ?_
  split <;> rename_i hHere <;> try rw [hHere]
  · exact keeps_block_here fun _ => by simp
  · exact keeps_take rfl (by simp)
  · exact keeps_declaration rfl fun _ => keeps_terminated
  · exact keeps_ifStatement rfl
  · exact keeps_whileStatement rfl
  · exact keeps_doWhileStatement rfl
  · exact keeps_forStatement rfl
  · exact keeps_switchStatement rfl
  · exact keeps_tryStatement rfl
  · exact keeps_valueStatement rfl
  · exact keeps_valueStatement rfl
  · exact keeps_wordStatement rfl
  · exact keeps_wordStatement rfl
  · exact keeps_importStatement rfl
  · split
    · exact keeps_functionDeclaration rfl (by simp)
    · exact keeps_componentDeclaration rfl
  · split
    · exact keeps_functionDeclaration rfl (by simp)
    · exact keeps_componentDeclaration rfl
  · exact keeps_propertyStatement rfl
  · split
    · exact keeps_functionDeclaration rfl (by simp)
    · exact keeps_expressionStatement (by simp)
  · exact keeps_spell fun _ => keeps_identifierStatement (by simp)
  · exact keeps_expressionStatement (by simp)

/-! ## Expressions -/

theorem keeps_leftovers : Goal.Keeps .leftovers := by
  refine keeps_look fun w _ => ?_
  split
  next h => simp [h]
  next h => simp [h]

theorem keeps_standalone : Goal.Keeps .standalone := by
  refine keeps_parse (.inr (by simp)) (by simp) fun ks m => keeps_look fun w _ => ?_
  split
  next h => simp [h]
  next h => simp [h]

theorem keeps_expression : Goal.Keeps .expression := by
  refine keeps_parse (.inr (by simp)) (by simp) fun ks m => keeps_look fun w _ => ?_
  split
  next h =>
    exact keeps_take (TokenKind.isPlain_of_isAssignment h) (keeps_parse_moved (by simp) (by simp))
  next => simp

theorem keeps_ternary : Goal.Keeps .ternary := by
  refine keeps_parse (.inr (by simp [binaryLevels])) (by simp) fun ks m =>
    keeps_look fun w _ => ?_
  split
  next h =>
    rw [h]
    exact keeps_take rfl <| keeps_parse_moved (by simp) <| keeps_expect (by simp) rfl <|
      keeps_parse_moved (by simp) (by simp)
  split
  next h =>
    rw [h]
    exact keeps_take rfl <| keeps_parse_moved (by simp) (by simp)
  · simp

theorem keeps_binary (level : Nat) : Goal.Keeps (.binary level) := by
  refine keeps_look fun w _ => ?_
  split
  next h =>
    rw [h.2]
    exact keeps_take rfl (keeps_parse_moved (by simp) (by simp))
  split
  next h =>
    refine keeps_parse (.inr ?_) (by simp) fun ks m => ?_
    · simp only [Goal.rank]
      omega
    · simp
      omega
  · simp
    omega

theorem keeps_operator (hKind : k.isPlain = true)
    (h : ∀ ks, next.Keeps r Q ⟨ks, true, b, ds, .unknown⟩) :
    (operator next).Keeps r Q ⟨k :: ks, m, b, ds, .unknown⟩ := by
  refine keeps_look fun w hAhead => ?_
  rw [eq_here hAhead]
  split
  · refine keeps_take hKind (keeps_look fun w _ => ?_)
    split
    next hHere =>
      rw [hHere]
      exact keeps_take rfl (h _)
    next => exact h _
  split
  · exact keeps_take hKind <| keeps_expect (by simp) rfl <| keeps_expect (by simp) rfl (h _)
  · exact keeps_take hKind (h _)

/-- The operators of any level stand in the table of levels. -/
theorem exists_mem_binaryLevels {level : Nat} (h : (binaryLevels.getD level []).contains k) :
    ∃ ks ∈ binaryLevels, k ∈ ks := by
  rw [List.getD_eq_getElem?_getD] at h
  cases hLevel : binaryLevels[level]? with
  | none => simp [hLevel] at h
  | some ks =>
    rw [hLevel] at h
    exact ⟨ks, List.mem_of_getElem? hLevel, List.contains_iff_mem.1 h⟩

theorem isPlain_of_binaryLevels {level : Nat} (h : (binaryLevels.getD level []).contains k) :
    k.isPlain = true := by
  have hAll : ∀ ks ∈ binaryLevels, ∀ k ∈ ks, k.isPlain = true := by decide
  obtain ⟨ks, hLevel, hMem⟩ := exists_mem_binaryLevels h
  exact hAll ks hLevel k hMem

theorem keeps_binaryTail (level : Nat) : Goal.Keeps (.binaryTail level) := by
  refine keeps_look fun w _ => ?_
  split
  next h =>
    exact keeps_operator (isPlain_of_binaryLevels h) fun _ => keeps_parse_moved (by simp) (by simp)
  next => simp

theorem keeps_unary : Goal.Keeps .unary := by
  refine keeps_look fun w _ => ?_
  split
  next h =>
    have hAll : ∀ k ∈ unaryOperators, k.isPlain = true := by decide
    exact keeps_take (hAll _ (List.contains_iff_mem.1 h)) (keeps_parse_moved (by simp) (by simp))
  next => simp

theorem keeps_arguments : Goal.Keeps .arguments := by
  refine keeps_look fun w _ => ?_
  split
  next h =>
    rw [h.2]
    exact keeps_take (TokenKind.isPlain_of_isWord h.1) <| keeps_take rfl <|
      keeps_parse_moved (by simp) ⟨rfl, keeps_separated (by simp)⟩
  next =>
    exact keeps_parse (.inr (by simp)) (by simp) fun _ _ => ⟨rfl, keeps_separated (by simp)⟩

theorem keeps_argumentList (h : ∀ ks, next.Keeps r Q ⟨ks, true, b, ds, .unknown⟩) :
    (argumentList next).Keeps r Q ⟨.symbol .lParen :: ks, m, b, ds, .unknown⟩ := by
  refine ⟨by simp, by simp, fun _ => ⟨[.paren], rfl, ?_⟩⟩
  refine keeps_look fun w _ => ?_
  split
  next hHere =>
    rw [hHere]
    exact ⟨by simp, by simp, fun _ => ⟨[], rfl, rfl, h _⟩⟩
  next => exact keeps_parse_moved (by simp) (keeps_expect (by simp) rfl ⟨rfl, h _⟩)

theorem keeps_arrowBody (h : ∀ ks, next.Keeps r Q ⟨ks, true, b, ds, .unknown⟩) :
    (arrowBody next).Keeps r Q ⟨ks, true, b, ds, .unknown⟩ := by
  refine keeps_look fun w _ => ?_
  split
  · exact keeps_block h
  · exact keeps_parse_moved (by simp) (h _)

/-- An arrow function whose arrow is seen right after the parentheses. -/
theorem keeps_arrowFunction_here (h : ∀ ks, next.Keeps r Q ⟨ks, true, b, ds, .unknown⟩) :
    (arrowFunction next).Keeps r Q
      ⟨[.symbol .lParen, .symbol .rParen, .symbol .arrow], false, b, ds, .unknown⟩ := by
  refine ⟨by simp, by simp, [.paren], rfl, fun _ => keeps_look fun w hAhead => ?_,
    fun hNot => absurd rfl hNot⟩
  obtain ⟨hHere, hNext⟩ := List.cons_prefix_cons.1 hAhead
  obtain ⟨hNext, -⟩ := List.cons_prefix_cons.1 hNext
  rw [if_pos hHere.symm, ← hHere, ← hNext]
  exact ⟨by simp, by simp, fun _ => ⟨[], rfl, rfl, keeps_take rfl (keeps_arrowBody h)⟩⟩

/-- An arrow function whose arrow is known to follow its parameters. -/
theorem keeps_arrowFunction (hWord : k.isWord = true)
    (h : ∀ ks, next.Keeps r Q ⟨ks, true, b, ds, .unknown⟩) :
    (arrowFunction next).Keeps r Q ⟨.symbol .lParen :: k :: ks, false, b, ds, .behind 0⟩ := by
  refine ⟨by simp, by simp, [.paren], rfl, fun _ w hAhead => ?_, fun hNot => absurd rfl hNot⟩
  have hHere : w.here = k := eq_here hAhead
  have hClose : w.here ≠ .symbol .rParen := by
    rintro hClose
    rw [← hHere, hClose] at hWord
    simp [TokenKind.isWord] at hWord
  dsimp only
  rw [if_neg hClose]
  refine ⟨.inl rfl, by simp, ?_, fun hMoved => absurd hMoved (by simp)⟩
  exact ⟨by simp, by simp, [], rfl, rfl, rfl, rfl, keeps_arrowBody h⟩

theorem keeps_parenthesized (h : ∀ ks, next.Keeps r Q ⟨ks, true, b, ds, .unknown⟩) :
    (parenthesized next).Keeps r Q ⟨.symbol .lParen :: ks, m, b, ds, .unknown⟩ :=
  ⟨by simp, by simp, fun _ => ⟨.paren :: ds, rfl,
    keeps_parse_moved (by simp) (keeps_expect (by simp) rfl (h _))⟩⟩

theorem keeps_parenOrArrow {w : Window} (hHere : w.here = .symbol .lParen)
    (h : ∀ ks, next.Keeps r Q ⟨ks, true, b, ds, .unknown⟩) :
    (parenOrArrow w next).Keeps r Q ⟨[w.here, w.next, w.second], false, b, ds, .unknown⟩ := by
  unfold parenOrArrow
  rw [hHere]
  split
  next hNext =>
    rw [hNext]
    split
    next hSecond =>
      rw [hSecond]
      exact keeps_arrowFunction_here h
    next => exact keeps_parenthesized h
  split
  next hNext =>
    exact ⟨⟨.behind 0, fun _ hArrow => hArrow, keeps_arrowFunction hNext.1 h⟩,
      keeps_parenthesized h⟩
  · exact keeps_parenthesized h

theorem keeps_elements : Goal.Keeps .elements :=
  keeps_parse (.inr (by simp)) (by simp) fun _ _ => keeps_separated (by simp)

theorem keeps_arrayLiteral (h : ∀ ks, next.Keeps r Q ⟨ks, true, b, ds, .unknown⟩) :
    (arrayLiteral next).Keeps r Q ⟨.symbol .lBracket :: ks, m, b, ds, .unknown⟩ := by
  refine ⟨by simp, by simp, fun _ => ⟨.bracket :: ds, rfl, keeps_look fun w _ => ?_⟩⟩
  split
  next hHere =>
    rw [hHere]
    exact ⟨by simp, by simp, fun _ => ⟨ds, rfl, h _⟩⟩
  next => exact keeps_parse_moved (by simp) (keeps_expect (by simp) rfl (h _))

theorem keeps_entryValue (hMoved : m = true ∨ 16 < r) (h : ∀ ks m, Q ⟨ks, m, b, [], .unknown⟩) :
    entryValue.Keeps r Q ⟨ks, m, b, [], .unknown⟩ := by
  refine keeps_look fun w _ => ?_
  split
  next hHere =>
    rw [hHere]
    exact keeps_take rfl (keeps_parse_moved (by simp) ⟨rfl, h _ _⟩)
  next =>
    refine ⟨by simp, by simp, [], rfl, ?_⟩
    cases m with
    | true => exact keeps_parse_moved (by simp) ⟨rfl, h _ _⟩
    | false =>
      have hRank : 16 < r := by simpa using hMoved
      exact ⟨fun _ => keeps_parse_moved (by simp) ⟨rfl, h _ _⟩,
        fun _ => keeps_parse (.inr hRank) (by simp) fun _ _ => ⟨rfl, h _ _⟩⟩

theorem keeps_structEntry (h : ∀ ks m, Q ⟨ks, m, b, [], .unknown⟩) :
    structEntry.Keeps 17 Q ⟨ks, m, b, [], .unknown⟩ := by
  refine keeps_look fun w _ => ?_
  split
  next hHere =>
    have hKind : w.here.isPlain = true := by
      rcases hHere with hWord | hString | hInteger
      · exact TokenKind.isPlain_of_isWord hWord
      · rw [hString]
        rfl
      · rw [hInteger]
        rfl
    exact keeps_take hKind (keeps_entryValue (.inl rfl) h)
  next => exact keeps_entryValue (.inr (by simp)) h

theorem keeps_structEntries : Goal.Keeps .structEntries :=
  keeps_structEntry fun _ _ => keeps_separated (by simp)

theorem keeps_structLiteral (h : ∀ ks, next.Keeps r Q ⟨ks, true, b, ds, .unknown⟩) :
    (structLiteral next).Keeps r Q ⟨.symbol .lBrace :: ks, m, b, ds, .unknown⟩ := by
  refine ⟨by simp, by simp, fun _ => ⟨.brace :: ds, rfl, keeps_look fun w _ => ?_⟩⟩
  split
  next hHere =>
    rw [hHere]
    exact ⟨by simp, by simp, fun _ => ⟨ds, rfl, h _⟩⟩
  next => exact keeps_parse_moved (by simp) (keeps_expect (by simp) rfl (h _))

theorem keeps_newArguments (h : ∀ ks, next.Keeps r Q ⟨ks, true, b, ds, .unknown⟩) :
    (newArguments next).Keeps r Q ⟨ks, true, b, ds, .unknown⟩ := by
  refine keeps_look fun w _ => ?_
  split
  next hHere =>
    rw [hHere]
    exact keeps_argumentList h
  next => exact h _

theorem keeps_newExpression (h : ∀ ks, next.Keeps r Q ⟨ks, true, b, ds, .unknown⟩) :
    (newExpression next).Keeps r Q ⟨.keyword .new :: ks, m, b, ds, .unknown⟩ := by
  refine keeps_take rfl (keeps_look fun w _ => ?_)
  split
  next hHere =>
    rw [hHere]
    exact keeps_take rfl (keeps_newArguments h)
  next => exact keeps_parse_moved (by simp) ⟨rfl, keeps_newArguments h⟩

theorem keeps_functionExpression (h : ∀ ks, next.Keeps r Q ⟨ks, true, b, ds, .unknown⟩) :
    (functionExpression next).Keeps r Q ⟨.keyword .function :: ks, m, b, ds, .unknown⟩ :=
  keeps_take rfl (keeps_parameterList fun _ => keeps_block h)

theorem keeps_operand (h : ∀ ks m, next.Keeps r Q ⟨ks, m, b, ds, .unknown⟩)
    (hBlamed : ∀ ks m, next.Keeps r Q ⟨ks, m, true, ds, .unknown⟩) :
    (operand next).Keeps r Q ⟨ks, false, b, ds, .unknown⟩ := by
  refine keeps_look fun w _ => ?_
  split <;> rename_i hHere <;> try rw [hHere]
  · exact keeps_take rfl (h _ _)
  · exact keeps_take rfl (h _ _)
  · exact keeps_take rfl (h _ _)
  · exact keeps_take rfl (h _ _)
  · exact keeps_take rfl (h _ _)
  · exact keeps_take rfl (h _ _)
  · split
    next hNext =>
      rw [hNext]
      exact keeps_take rfl (keeps_take rfl (keeps_arrowBody fun _ => h _ _))
    next => exact keeps_take rfl (h _ _)
  · rw [← hHere]
    exact keeps_parenOrArrow hHere fun _ => h _ _
  · exact keeps_arrayLiteral fun _ => h _ _
  · exact keeps_structLiteral fun _ => h _ _
  · exact keeps_newExpression fun _ => h _ _
  · exact keeps_functionExpression fun _ => h _ _
  · exact ⟨.inr rfl, h _ _⟩
  · split
    · exact h _ _
    · exact hBlamed _ _

theorem keeps_applied : Goal.Keeps .applied :=
  keeps_operand (by simp) (by simp)

theorem keeps_appliedTail : Goal.Keeps .appliedTail := by
  refine keeps_look fun w _ => ?_
  split <;> rename_i hHere <;> try rw [hHere]
  · exact keeps_argumentList (by simp)
  · exact keeps_take rfl (keeps_word (by simp))
  · exact keeps_take rfl (keeps_word (by simp))
  · exact ⟨by simp, by simp, fun _ => ⟨[.bracket], rfl,
      keeps_parse_moved (by simp) (keeps_expect (by simp) rfl (by simp))⟩⟩
  · exact keeps_take rfl (by simp)
  · exact keeps_take rfl (by simp)
  · simp

end Grammar

/-- Every goal keeps the contract. -/
theorem Goal.keeps (goal : Goal) : goal.Keeps := by
  cases goal with
  | script => exact Grammar.keeps_script
  | standalone => exact Grammar.keeps_standalone
  | leftovers => exact Grammar.keeps_leftovers
  | statements stop => exact Grammar.keeps_statements stop
  | statement => exact Grammar.keeps_statement
  | switchClauses => exact Grammar.keeps_switchClauses
  | catchClauses => exact Grammar.keeps_catchClauses
  | modifiers => exact Grammar.keeps_modifiers
  | dottedName => exact Grammar.keeps_dottedName
  | dottedTail => exact Grammar.keeps_dottedTail
  | typedName => exact Grammar.keeps_typedName
  | propertyName => exact Grammar.keeps_propertyName
  | attributes => exact Grammar.keeps_attributes
  | parameters => exact Grammar.keeps_parameters
  | expression => exact Grammar.keeps_expression
  | ternary => exact Grammar.keeps_ternary
  | binary level => exact Grammar.keeps_binary level
  | binaryTail level => exact Grammar.keeps_binaryTail level
  | unary => exact Grammar.keeps_unary
  | applied => exact Grammar.keeps_applied
  | appliedTail => exact Grammar.keeps_appliedTail
  | arguments => exact Grammar.keeps_arguments
  | elements => exact Grammar.keeps_elements
  | structEntries => exact Grammar.keeps_structEntries

end CfScript
