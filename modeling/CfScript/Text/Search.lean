/-!
# Looking for a text inside another

`cut` splits a text at the first place where a pattern stands, and is the only search of this
library: `contains` asks whether there is such a place.

## Main results

* `cut_eq_some`: the two sides of a cut with the pattern between them are the whole text;
* `cut_eq_none_iff`: there is no cut exactly when the pattern begins no end of the text.
-/

namespace CfScript.Text

/-- The characters before and after the first occurrence of `pattern`. -/
def cut (pattern : List Char) : List Char → Option (List Char × List Char)
  | [] => if pattern.isEmpty then some ([], []) else none
  | c :: cs =>
    if pattern.isPrefixOf (c :: cs) then some ([], (c :: cs).drop pattern.length)
    else (cut pattern cs).map fun (before, after) => (c :: before, after)

/-- Whether `pattern` occurs in the characters. -/
def contains (pattern chars : List Char) : Bool := (cut pattern chars).isSome

theorem cut_eq_some {pattern chars before after : List Char}
    (h : cut pattern chars = some (before, after)) : chars = before ++ (pattern ++ after) := by
  induction chars generalizing before with
  | nil =>
    unfold cut at h
    split at h
    · next hEmpty =>
      obtain ⟨rfl, rfl⟩ := Prod.mk.inj (Option.some.inj h)
      simp [List.isEmpty_iff.1 hEmpty]
    · simp at h
  | cons c cs ih =>
    unfold cut at h
    split at h
    · next hHead =>
      obtain ⟨rfl, rfl⟩ := Prod.mk.inj (Option.some.inj h)
      exact (List.prefix_iff_eq_append.1 (List.isPrefixOf_iff_prefix.1 hHead)).symm
    · obtain ⟨⟨front, back⟩, hCut, hEq⟩ := Option.map_eq_some_iff.1 h
      obtain ⟨rfl, rfl⟩ := Prod.mk.inj hEq
      rw [ih hCut]
      rfl

theorem cut_eq_none_iff {pattern chars : List Char} :
    cut pattern chars = none ↔ ∀ before after, chars ≠ before ++ (pattern ++ after) := by
  induction chars with
  | nil =>
    cases pattern with
    | nil => simp [cut]
    | cons p ps => simp [cut]
  | cons c cs ih =>
    unfold cut
    split
    · next hHead =>
      obtain ⟨after, hAfter⟩ := List.isPrefixOf_iff_prefix.1 hHead
      simp only [reduceCtorEq, false_iff, ne_eq, Classical.not_forall, Classical.not_not]
      exact ⟨[], after, by simp [hAfter]⟩
    · next hHead =>
      rw [Option.map_eq_none_iff, ih]
      constructor
      · intro hNone before after hEq
        cases before with
        | nil =>
          exact hHead (List.isPrefixOf_iff_prefix.2 ⟨after, by simpa using hEq.symm⟩)
        | cons b bs => exact hNone bs after (List.cons.inj hEq).2
      · intro hNone before after hEq
        exact hNone (c :: before) after (by simp [hEq])

end CfScript.Text
