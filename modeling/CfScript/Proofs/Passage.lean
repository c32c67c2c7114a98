import CfScript.Parser.Engine

/-!
# Passing tokens

A parse moves the cursor forward over the tokens of its stream and does nothing else to it. `Passes`
says so of two streams and names the tokens that lie between their cursors, so that "nothing is
lost", "the cursor moved" and "fewer tokens are left" are all read off one fact.

## Main results

* `Passes.trans`: the tokens of two passages one after the other are put together;
* `Passes.eq_of_pos`: a passage that ends where it began changed nothing;
* `passes_advance`, `passes_advanceBy`: what a step and several steps forward pass;
* `skipStatement_prefix`: skipping a broken statement takes the next tokens, and no end of the
  input.
-/

namespace CfScript

namespace TokenStream

/-- Going from `s` to `t` passes the tokens `ts` and changes nothing else. -/
structure Passes (s : TokenStream) (ts : List Token) (t : TokenStream) : Prop where
  before : t.before = ts.reverse ++ s.before
  rest : s.rest = ts ++ t.rest
  last : t.last = s.last

namespace Passes

variable {s t u : TokenStream} {ts us : List Token}

theorem refl (s : TokenStream) : s.Passes [] s := ⟨rfl, rfl, rfl⟩

theorem trans (h : s.Passes ts t) (h' : t.Passes us u) : s.Passes (ts ++ us) u where
  before := by rw [h'.before, h.before, List.reverse_append, List.append_assoc]
  rest := by rw [h.rest, h'.rest, List.append_assoc]
  last := h'.last.trans h.last

theorem length_rest (h : s.Passes ts t) : ts.length + t.rest.length = s.rest.length := by
  rw [h.rest, List.length_append]

theorem pos_eq (h : s.Passes ts t) : t.pos = s.pos + ts.length := by
  rw [pos, pos, h.before, List.length_append, List.length_reverse, Nat.add_comm]

theorem eq_of_nil (h : s.Passes [] t) : t = s := by
  obtain ⟨hBefore, hRest, hLast⟩ := h
  cases s
  cases t
  simp_all

/-- A passage that ends where it began passes nothing. -/
theorem eq_of_pos (h : s.Passes ts t) (hPos : t.pos = s.pos) : ts = [] ∧ t = s := by
  have hNil : ts = [] := List.length_eq_zero_iff.1 (by have := h.pos_eq; omega)
  subst hNil
  exact ⟨rfl, h.eq_of_nil⟩

theorem tokens_eq (h : s.Passes ts t) : t.tokens = s.tokens := by
  simp [tokens, body, h.before, h.rest, h.last]

end Passes

/-! ## Steps forward -/

theorem advance_of_atEnd {s : TokenStream} (h : s.atEnd = true) : s.advance = s := by
  unfold advance
  split
  · rfl
  · next t ts hRest =>
    have hEnd : t.isEnd = true := by simpa [atEnd, current, hRest] using h
    rw [if_pos hEnd]

/-- Before the end of the input the current token is the first of those that are left. -/
theorem rest_of_not_atEnd {s : TokenStream} (h : s.atEnd = false) :
    ∃ ts, s.rest = s.current :: ts := by
  cases hRest : s.rest with
  | nil => simp [atEnd, current, hRest, s.last_isEnd] at h
  | cons t ts => exact ⟨ts, by simp [current, hRest]⟩

theorem passes_advance {s : TokenStream} (h : s.atEnd = false) :
    s.Passes [s.current] s.advance := by
  obtain ⟨ts, hRest⟩ := rest_of_not_atEnd h
  have hAdvance : s.advance = { s with before := s.current :: s.before, rest := ts } := by
    unfold advance
    rw [hRest]
    exact if_neg (by rw [atEnd] at h; simp [h])
  exact ⟨by simp [hAdvance], by simp [hAdvance, hRest], by rw [hAdvance]⟩

theorem passes_advanceBy {s : TokenStream} {ts : List Token} (hPrefix : ts <+: s.rest)
    (hEnd : ∀ t ∈ ts, t.isEnd = false) : s.Passes ts (s.advanceBy ts.length) := by
  induction ts generalizing s with
  | nil => exact .refl s
  | cons t ts ih =>
    obtain ⟨us, hRest⟩ := hPrefix
    have hCurrent : s.current = t := by simp [current, ← hRest]
    have hStep : s.Passes [t] s.advance := by
      have hOpen : s.atEnd = false := by
        rw [atEnd, hCurrent]
        exact hEnd t (by simp)
      exact hCurrent ▸ passes_advance hOpen
    have hNext : ts <+: s.advance.rest := by
      refine ⟨us, ?_⟩
      have h := hStep.rest
      rw [← hRest] at h
      simpa using h
    exact hStep.trans (ih hNext fun t h => hEnd t (by simp [h]))

end TokenStream

/-! ## Parser states -/

namespace ParserState

@[simp] theorem window_here (s : ParserState) : s.window.here = s.current.kind := by
  simp [window, current]

theorem atEnd_iff (s : ParserState) : s.stream.atEnd = true ↔ s.current.kind = .endOfInput := by
  simp [current, TokenStream.atEnd, Token.isEnd]

/-- The current token is passed by a step forward, unless it is the end of the input. -/
theorem passes_advance {s : ParserState} (h : s.current.kind ≠ .endOfInput) :
    s.stream.Passes [s.current] s.advance.stream := by
  refine TokenStream.passes_advance (Bool.eq_false_iff.2 fun hEnd => ?_)
  exact h (s.atEnd_iff.1 hEnd)

theorem advance_of_end {s : ParserState} (h : s.current.kind = .endOfInput) : s.advance = s := by
  rw [advance, TokenStream.advance_of_atEnd (s.atEnd_iff.2 h)]

theorem length_rest_advance_le (s : ParserState) :
    s.advance.stream.rest.length ≤ s.stream.rest.length := by
  by_cases h : s.current.kind = .endOfInput
  · exact Nat.le_of_eq (by rw [advance_of_end h])
  · rw [← (passes_advance h).length_rest]
    omega

theorem pos_le_advance (s : ParserState) : s.stream.pos ≤ s.advance.stream.pos := by
  by_cases h : s.current.kind = .endOfInput
  · exact Nat.le_of_eq (by rw [advance_of_end h])
  · rw [(passes_advance h).pos_eq]
    omega

end ParserState

/-! ## Skipped statements -/

namespace Token

/-- The tokens that are passed while a broken statement is skipped. -/
def skippedTokens (stack : DelimiterStack) (ts : List Token) : List Token :=
  (skipStatement stack ts).1 ++ (skipStatement stack ts).2.toList

theorem skipStatement_prefix (stack : DelimiterStack) (ts : List Token) :
    skippedTokens stack ts <+: ts ∧ ∀ t ∈ skippedTokens stack ts, t.isEnd = false := by
  induction ts generalizing stack with
  | nil => simp [skippedTokens, skipStatement]
  | cons t ts ih =>
    unfold skippedTokens skipStatement
    split
    · simp
    next hEnd =>
      split
      · simp
      split
      · simpa using hEnd
      split
      · simp
      obtain ⟨hPrefix, hOpen⟩ := ih (stack.update t.kind).1
      constructor
      · simpa [skippedTokens] using hPrefix
      · intro u hMem
        rw [List.cons_append, List.mem_cons] at hMem
        rcases hMem with rfl | hMem
        · simpa using hEnd
        · exact hOpen u hMem

/-- What ends a skipped statement is a semicolon. -/
theorem skipStatement_semicolon {stack : DelimiterStack} {ts : List Token} {t : Token}
    (h : (skipStatement stack ts).2 = some t) : t.kind = .symbol .semicolon := by
  induction ts generalizing stack with
  | nil => cases h
  | cons u us ih =>
    unfold skipStatement at h
    split at h
    · cases h
    split at h
    · cases h
    split at h
    next hSemicolon =>
      cases h
      exact hSemicolon.2
    split at h
    · cases h
    · exact ih h

end Token

end CfScript
