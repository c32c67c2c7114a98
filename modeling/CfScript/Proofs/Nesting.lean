import CfScript.Proofs.Contract

/-!
# Nested delimiters

Tokens whose delimiters are nested leave alone what was open around them. So a look ahead that has
found an arrow behind the parenthesis around such tokens still finds it after they are passed.

## Main results

* `nest_cases`: what one token can do to the delimiters that are open;
* `nestAll_frame`: what is open around tokens that are nested stays open;
* `stands_pass`, `stands_across`: what is known of an arrow after one token and after nested ones.
-/

namespace CfScript

namespace Delimiter

variable {ds es : List Delimiter} {k : TokenKind} {ks ls : List TokenKind}

/-- A token opens a delimiter, is none, or closes the innermost one. -/
theorem nest_cases (h : nest ds k = some es) :
    (∃ d, opened? k = some d ∧ es = d :: ds) ∨
      (opened? k = none ∧ closed? k = none ∧ es = ds) ∨
      (∃ d, opened? k = none ∧ closed? k = some d ∧ ds = d :: es) := by
  unfold nest at h
  cases hOpened : opened? k with
  | some d =>
    rw [hOpened] at h
    cases h
    exact .inl ⟨d, rfl, rfl⟩
  | none =>
    rw [hOpened] at h
    cases hClosed : closed? k with
    | none =>
      rw [hClosed] at h
      cases h
      exact .inr (.inl ⟨rfl, rfl, rfl⟩)
    | some d =>
      rw [hClosed] at h
      dsimp only at h
      split at h
      next hHead =>
        cases h
        obtain ⟨tail, rfl⟩ := List.head?_eq_some_iff.1 hHead
        exact .inr (.inr ⟨d, rfl, rfl, rfl⟩)
      next => cases h

theorem nest_frame (h : nest ds k = some es) (gs : List Delimiter) :
    nest (ds ++ gs) k = some (es ++ gs) := by
  rcases nest_cases h with ⟨d, hOpened, rfl⟩ | ⟨hOpened, hClosed, rfl⟩ | ⟨d, hOpened, hClosed, rfl⟩
  · simp [nest, hOpened]
  · simp [nest, hOpened, hClosed]
  · simp [nest, hOpened, hClosed]

theorem nestAll_cons : nestAll ds (k :: ks) = (nest ds k).bind (nestAll · ks) := rfl

theorem nestAll_singleton : nestAll ds [k] = nest ds k := by
  simp [nestAll]

theorem nestAll_append (h : nestAll ds ks = some es) : nestAll ds (ks ++ ls) = nestAll es ls := by
  rw [nestAll, List.foldlM_append]
  rw [nestAll] at h
  rw [h]
  rfl

/-- What is open around tokens that are nested stays open. -/
theorem nestAll_frame (h : nestAll ds ks = some es) (gs : List Delimiter) :
    nestAll (ds ++ gs) ks = some (es ++ gs) := by
  induction ks generalizing ds with
  | nil =>
    cases h
    rfl
  | cons k ks ih =>
    rw [nestAll_cons, Option.bind_eq_some_iff] at h
    obtain ⟨fs, hNest, hRest⟩ := h
    rw [nestAll_cons, nest_frame hNest gs]
    exact ih hRest

theorem eq_lParen_of_opened (h : opened? k = some .paren) : k = .symbol .lParen := by
  unfold opened? at h
  split at h <;> first | rfl | cases h

theorem eq_rParen_of_closed (h : closed? k = some .paren) : k = .symbol .rParen := by
  unfold closed? at h
  split at h <;> first | rfl | cases h

/-- Tokens other than parentheses leave the number of open ones as it is. -/
theorem count_paren_nest (h : nest ds k = some es) (hOpen : k ≠ .symbol .lParen)
    (hShut : k ≠ .symbol .rParen) : es.count .paren = ds.count .paren := by
  rcases nest_cases h with ⟨d, hOpened, rfl⟩ | ⟨-, -, rfl⟩ | ⟨d, -, hClosed, rfl⟩
  · apply List.count_cons_of_ne
    rintro rfl
    exact hOpen (eq_lParen_of_opened hOpened)
  · rfl
  · refine (List.count_cons_of_ne ?_).symm
    rintro rfl
    exact hShut (eq_rParen_of_closed hClosed)

end Delimiter

namespace Arrow

open Grammar (closesBeforeArrow)

theorem stands_pass {a : Arrow} {k : TokenKind} {ks : List TokenKind} (h : a.Stands (k :: ks)) :
    (a.pass k).Stands ks := by
  cases a with
  | unknown => trivial
  | here => trivial
  | behind depth =>
    have hClose : closesBeforeArrow depth (k :: ks) = true := h
    rw [closesBeforeArrow] at hClose
    simp only [pass]
    split at hClose
    · cases hClose
    next hEnd =>
      split at hClose
      next hOpen =>
        rw [if_pos hOpen]
        exact hClose
      next hOpen =>
        rw [if_neg hOpen]
        split at hClose
        next hShut =>
          rw [if_pos hShut]
          split at hClose
          next hDepth =>
            rw [if_pos hDepth]
            simpa [Stands] using hClose
          next hDepth =>
            rw [if_neg hDepth]
            exact hClose
        next hShut =>
          rw [if_neg hShut, if_neg hEnd]
          exact hClose

/-- A parenthesis that closes in front of an arrow still does after tokens that are nested. The
depth counts the parentheses among the open delimiters on top of those around them. -/
theorem closesBeforeArrow_of_nestAll {ds es : List Delimiter} {ks ls : List TokenKind} (depth : Nat)
    (hNest : Delimiter.nestAll ds ks = some es)
    (h : closesBeforeArrow (depth + 1 + ds.count .paren) (ks ++ ls) = true) :
    closesBeforeArrow (depth + 1 + es.count .paren) ls = true := by
  induction ks generalizing ds with
  | nil =>
    cases hNest
    exact h
  | cons k ks ih =>
    rw [Delimiter.nestAll_cons, Option.bind_eq_some_iff] at hNest
    obtain ⟨fs, hStep, hRest⟩ := hNest
    apply ih hRest
    rw [List.cons_append, closesBeforeArrow] at h
    split at h
    · cases h
    split at h
    next hOpen =>
      rw [hOpen] at hStep
      cases hStep
      rw [List.count_cons_self]
      exact h
    split at h
    next hOpen hShut =>
      have hClosed : Delimiter.closed? k = some .paren := by rw [hShut]; rfl
      have hOpened : Delimiter.opened? k = none := by rw [hShut]; rfl
      rcases Delimiter.nest_cases hStep with ⟨d, hIs, -⟩ | ⟨-, hNot, -⟩ | ⟨d, -, hIs, rfl⟩
      · rw [hOpened] at hIs
        cases hIs
      · rw [hClosed] at hNot
        cases hNot
      · rw [hClosed] at hIs
        cases hIs
        -- The parenthesis that closes here was opened among these tokens, so it is not the last.
        rw [List.count_cons_self, if_neg (by omega)] at h
        exact h
    next hOpen hShut =>
      rw [Delimiter.count_paren_nest hStep hOpen hShut]
      exact h

theorem stands_across {a : Arrow} {ks ls : List TokenKind}
    (hNest : Delimiter.nestAll [] ks = some []) (h : a.Stands (ks ++ ls)) : a.across.Stands ls := by
  cases a with
  | unknown => trivial
  | here => trivial
  | behind depth =>
    cases depth with
    | zero => trivial
    | succ depth => exact closesBeforeArrow_of_nestAll depth hNest h

end Arrow

end CfScript
