import CfScript.Proofs.Additions

/-!
# Statements that may be misread

A statement that begins with a dotted word may be an expression or the head of a function with a
dotted return type. Fast prediction takes it for an expression; general prediction follows the words
and dots and takes it for a function if they lead to the word `function`. They also lead there in an
expression such as `a.b is function() {}`, since operators may be words: a tree in which such an
expression stands as a statement is *misread*.

A tree that is misread stays so, whatever is put around it, and it holds at least one token.

## Main results

* `leadsToFunction_append`: where words and dots lead is settled within a statement;
* `misread_laws`, `exec_misread`, `run_misread`: a run keeps what is misread;
* `passed_ne_nil_of_misread`: what is misread holds a token.
-/

namespace CfScript

/-! ## Where words and dots lead -/

namespace Grammar

/-- Whether a kind ends a run of words and dots. -/
def endsRun (k : TokenKind) : Bool := !(k.isWord || k == .symbol .dot)

theorem isWord_or_dot_of_endsRun {k : TokenKind} (h : endsRun k = true) :
    (k.isWord || k == .symbol .dot) = false := by
  simpa [endsRun] using h

theorem ne_function_of_endsRun {k : TokenKind} (h : endsRun k = true) :
    k ≠ .keyword .function := by
  rintro rfl
  cases h

/-- The run of words and dots ends in the tail, if not with the first kind. -/
theorem endsRun_tail {k : TokenKind} {ks ls : List TokenKind} (hHead : ¬ endsRun k = true)
    (h : ∃ l ∈ (k :: ks) ++ ls.head?.toList, endsRun l = true) :
    ∃ l ∈ ks ++ ls.head?.toList, endsRun l = true := by
  obtain ⟨l, hMem, hEnds⟩ := h
  rcases List.mem_cons.1 hMem with rfl | hMem
  · exact absurd hEnds hHead
  · exact ⟨l, hMem, hEnds⟩

/-- The run of words and dots ends with the first kind, if it must end there. -/
theorem endsRun_head {ls : List TokenKind}
    (h : ∃ k ∈ ([] : List TokenKind) ++ ls.head?.toList, endsRun k = true) :
    ∃ k tail, ls = k :: tail ∧ endsRun k = true := by
  obtain ⟨k, hMem, hEnds⟩ := h
  obtain ⟨tail, rfl⟩ := List.head?_eq_some_iff.1 (by simpa using hMem)
  exact ⟨k, tail, rfl, hEnds⟩

theorem leadsToFunction_go_append {ks ls : List TokenKind}
    (h : ∃ k ∈ ks ++ ls.head?.toList, endsRun k = true) :
    leadsToFunction.go (ks ++ ls) = leadsToFunction.go ks := by
  induction ks with
  | nil =>
    obtain ⟨k, tail, rfl, hEnds⟩ := endsRun_head h
    simp [leadsToFunction.go, isWord_or_dot_of_endsRun hEnds, ne_function_of_endsRun hEnds]
  | cons k ks ih =>
    rw [List.cons_append, leadsToFunction.go, leadsToFunction.go]
    by_cases hEnds : endsRun k = true
    · rw [isWord_or_dot_of_endsRun hEnds, Bool.false_and, Bool.false_and]
    · rw [ih (endsRun_tail hEnds h)]

/-- What stands behind a token that ends the run of words and dots does not matter. -/
theorem leadsToFunction_append {ks ls : List TokenKind}
    (h : ∃ k ∈ ks ++ ls.head?.toList, endsRun k = true) :
    leadsToFunction (ks ++ ls) = leadsToFunction ks := by
  cases ks with
  | nil =>
    obtain ⟨k, tail, rfl, hEnds⟩ := endsRun_head h
    simp [leadsToFunction, isWord_or_dot_of_endsRun hEnds]
  | cons k ks =>
    rw [List.cons_append, leadsToFunction, leadsToFunction]
    by_cases hEnds : endsRun k = true
    · rw [isWord_or_dot_of_endsRun hEnds, Bool.false_and, Bool.false_and, Bool.false_and]
    · rw [leadsToFunction_go_append (endsRun_tail hEnds h)]

end Grammar

/-! ## Trees -/

/-- Whether tokens of the kinds, taken for an expression, look like the head of a function: a dotted
word, from which words and dots lead to `function`. -/
def looksLikeFunction (kinds : List TokenKind) : Bool :=
  match kinds with
  | .identifier :: .symbol .dot :: _ => Grammar.leadsToFunction kinds
  | _ => false

theorem looksLikeFunction_iff {kinds : List TokenKind} :
    looksLikeFunction kinds = true ↔
      (∃ ks, kinds = .identifier :: .symbol .dot :: ks) ∧ Grammar.leadsToFunction kinds = true := by
  unfold looksLikeFunction
  split
  next => simp
  next hOther =>
    simp only [Bool.false_eq_true, false_iff, not_and]
    rintro ⟨ks, hKinds⟩
    exact absurd hKinds (hOther ks)

/-- Words and dots lead nowhere from less than two tokens. -/
theorem Grammar.exists_of_leadsToFunction {ks : List TokenKind} (h : leadsToFunction ks = true) :
    ∃ k l tail, ks = k :: l :: tail := by
  match ks, h with
  | [], h => cases h
  | [k], h => simp [leadsToFunction, leadsToFunction.go] at h
  | k :: l :: tail, _ => exact ⟨k, l, tail, rfl⟩

namespace Tree

mutual

/-- Whether an expression that looks like the head of a function is a statement of the tree. -/
def misread : Tree → Bool
  | node rule cs =>
    (rule == .expressionStatement &&
      looksLikeFunction ((Leaf.passed (leavesAll cs)).map (·.kind))) || misreadAny cs
  | leaf _ => false

/-- Whether an expression that looks like the head of a function is a statement of some tree. -/
def misreadAny : List Tree → Bool
  | [] => false
  | t :: ts => t.misread || misreadAny ts

end

theorem misreadAny_append (ts us : List Tree) :
    misreadAny (ts ++ us) = (misreadAny ts || misreadAny us) := by
  induction ts with
  | nil => rfl
  | cons t ts ih => rw [List.cons_append, misreadAny, misreadAny, ih, Bool.or_assoc]

theorem misread_node {rule : Rule} (h : rule ≠ .expressionStatement) (cs : List Tree) :
    (node rule cs).misread = misreadAny cs := by
  simp [misread, h]

theorem misreadAny_leaves {ts : List Tree} (h : ∀ t ∈ ts, ∃ l, t = .leaf l) :
    misreadAny ts = false := by
  induction ts with
  | nil => rfl
  | cons t ts ih =>
    obtain ⟨l, rfl⟩ := h t (by simp)
    rw [misreadAny, ih fun u hMem => h u (by simp [hMem])]
    rfl

mutual

/-- What is misread holds a token. -/
theorem passed_ne_nil_of_misread : (t : Tree) → t.misread = true → Leaf.passed t.leaves ≠ []
  | leaf _, h => nomatch h
  | node rule cs, h => by
    rw [misread, Bool.or_eq_true] at h
    rcases h with hRoot | hBelow
    · intro hNil
      rw [leaves] at hNil
      simp [hNil, looksLikeFunction] at hRoot
    · exact passed_ne_nil_of_misreadAny cs hBelow

theorem passed_ne_nil_of_misreadAny : (ts : List Tree) → misreadAny ts = true →
    Leaf.passed (leavesAll ts) ≠ []
  | [], h => nomatch h
  | t :: ts, h => by
    rw [misreadAny, Bool.or_eq_true] at h
    rw [leavesAll, Leaf.passed_append]
    intro hNil
    obtain ⟨hFirst, hRest⟩ := List.append_eq_nil_iff.1 hNil
    rcases h with hFirst' | hRest'
    · exact passed_ne_nil_of_misread t hFirst' hFirst
    · exact passed_ne_nil_of_misreadAny ts hRest' hRest

end

end Tree

/-! ## Runs -/

open CfScript.Tree (misreadAny)

theorem misreadAny_append_left {ts : List Tree} (h : misreadAny ts = true) (us : List Tree) :
    misreadAny (ts ++ us) = true := by
  rw [Tree.misreadAny_append, h, Bool.true_or]

theorem misreadAny_append_right {us : List Tree} (ts : List Tree) (h : misreadAny us = true) :
    misreadAny (ts ++ us) = true := by
  rw [Tree.misreadAny_append, h, Bool.or_true]

/-- Every action keeps what is misread. -/
theorem misread_laws :
    RunLaws fun _ ps _ qs _ => misreadAny ps = true → misreadAny qs = true where
  refl _ _ _ := id
  trans h h' := h' ∘ h
  take _ _ _ hMisread := misreadAny_append_left hMisread _
  assume _ _ _ _ _ hMisread := misreadAny_append_left hMisread _
  reject _ _ _ _ hMisread := misreadAny_append_left hMisread _
  skip _ _ _ hMisread := misreadAny_append_left hMisread _
  recover _ _ _ hMisread := misreadAny_append_left hMisread _
  close _ _ _ _ hMisread := by simp [Tree.misreadAny, Tree.misread, hMisread]
  child _ _ hMisread := misreadAny_append_left hMisread _
  node _ _ _ hMisread := misreadAny_append_left hMisread _
  undo _ _ _ := id

/-- A production keeps what is misread if all that it calls does. -/
theorem exec_misread {call : Setting → Goal → Frame → ParserState → Outcome}
    (hCall : ∀ σ goal f s parts s', call σ goal f s = .parsed parts s' →
      misreadAny f.parts = true → misreadAny parts = true) (p : Production) :
    ∀ σ f s parts s', p.exec call σ f s = .parsed parts s' →
      misreadAny f.parts = true → misreadAny parts = true :=
  misread_laws.exec hCall p

theorem run_misread (steps : Nat) :
    ∀ σ goal f s parts s', run steps σ goal f s = .parsed parts s' →
      misreadAny f.parts = true → misreadAny parts = true :=
  misread_laws.run steps

end CfScript
