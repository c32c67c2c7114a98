import CfScript.Proofs.CleanRuns
import CfScript.Proofs.Nesting

/-!
# Reading up to a seam

Where tokens that end with a semicolon stand in front of others, there is a *seam* between them. A
run that finds no fault among the former alone does the same with the others behind them. It
looks at what is behind the seam in three ways only: where it chooses by the kinds of three tokens,
where a decision looks at all tokens that are left, and where it comes to the seam and goes on.

`Production.Joins` checks that a production chooses nothing by tokens behind a semicolon, and
follows what may happen at the seam: most goals never end there, since what they take last is no
semicolon, and a statement that ends there has nothing left to ask for. The decisions on all tokens
are the ones of the grammar; each comes to the same result on both sides, since what the run takes
next is not broken.

## Main results

* `Window.Blind.choose_append`: a choice that does not look behind semicolons;
* `exec_atSeam`: what a run does at the seam;
* `exec_joins`: what a run does before it.
-/

namespace CfScript

/-! ## Streams that go on -/

/-- The stream that goes on with what is left of another. -/
def TokenStream.append (s t : TokenStream) : TokenStream :=
  { s with rest := s.rest ++ t.rest, last := t.last, last_isEnd := t.last_isEnd }

/-- The window at the end of the input. -/
def Window.ends : Window := ⟨.endOfInput, .endOfInput, .endOfInput⟩

namespace ParserState

/-- The state in front of what is left and then of what is left of another stream. -/
def append (s : ParserState) (t : TokenStream) : ParserState :=
  { s with stream := s.stream.append t }

/-- Whether tokens are left, the last of which is a semicolon. -/
def Shut (s : ParserState) : Prop :=
  ∃ u, s.stream.rest.getLast? = some u ∧ u.kind = .symbol .semicolon

variable {s s' : ParserState} {ts : List Token} (t : TokenStream)

theorem Shut.rest_ne_nil (h : s.Shut) : s.stream.rest ≠ [] := by
  obtain ⟨u, hLast, -⟩ := h
  rintro hNil
  simp [hNil] at hLast

/-- As long as tokens are left the last of them is the same. -/
theorem Shut.of_passes (h : s.Shut) (hPasses : s.stream.Passes ts s'.stream)
    (hRest : s'.stream.rest ≠ []) : s'.Shut := by
  obtain ⟨u, hLast, hKind⟩ := h
  rw [hPasses.rest, List.getLast?_append_of_ne_nil _ hRest] at hLast
  exact ⟨u, hLast, hKind⟩

theorem current_append (h : s.stream.rest ≠ []) : (s.append t).current = s.current := by
  obtain ⟨u, us, hRest⟩ := List.exists_cons_of_ne_nil h
  simp [current, append, TokenStream.append, TokenStream.current, hRest]

theorem current_append_of_nil (h : s.stream.rest = []) : (s.append t).current = t.current := by
  simp [current, append, TokenStream.append, TokenStream.current, h]

theorem kindsAhead_append : (s.append t).kindsAhead =
    s.stream.rest.map (·.kind) ++ (t.rest.map (·.kind) ++ [t.last.kind]) := by
  simp [kindsAhead, append, TokenStream.append]

theorem advance_append (h : s.stream.rest ≠ []) : (s.append t).advance = s.advance.append t := by
  obtain ⟨u, us, hRest⟩ := List.exists_cons_of_ne_nil h
  by_cases hEnd : u.isEnd = true <;>
    simp [advance, append, TokenStream.append, TokenStream.advance, hRest, hEnd]

/-- The end of the input is all there is at the seam. -/
theorem window_of_nil (h : s.stream.rest = []) : s.window = .ends := by
  have hLast : s.stream.last.kind = .endOfInput := by
    simpa [Token.isEnd] using s.stream.last_isEnd
  simp [window, Window.ends, TokenStream.peek, h, hLast]

theorem kind_of_nil (h : s.stream.rest = []) : s.current.kind = .endOfInput := by
  rw [← window_here, window_of_nil h, Window.ends]

/-- A stream that goes on with its own end is not changed. -/
theorem append_end (s : ParserState) :
    s.append ⟨[], [], s.stream.last, s.stream.last_isEnd⟩ = s := by
  simp [append, TokenStream.append]

end ParserState

/-- Whether a choice does not look at the tokens behind a semicolon. -/
def Window.Blind (choose : Window → Production) : Prop :=
  (∀ n m k l, choose ⟨.symbol .semicolon, n, m⟩ = choose ⟨.symbol .semicolon, k, l⟩) ∧
    ∀ h n m, choose ⟨h, .symbol .semicolon, n⟩ = choose ⟨h, .symbol .semicolon, m⟩

/-- A choice that does not look behind semicolons is the same whatever is behind the seam. -/
theorem Window.Blind.choose_append {choose : Window → Production} (h : Blind choose)
    {s : ParserState} (hShut : s.Shut) (t : TokenStream) :
    choose (s.append t).window = choose s.window := by
  obtain ⟨u, hLast, hKind⟩ := hShut
  rcases hRest : s.stream.rest with _ | ⟨a, _ | ⟨b, _ | ⟨c, cs⟩⟩⟩
  · simp [hRest] at hLast
  · have hA : a.kind = .symbol .semicolon := by simp_all
    simpa [ParserState.window, ParserState.append, TokenStream.append, TokenStream.peek,
      TokenStream.current, hRest, hA] using h.1 _ _ _ _
  · have hB : b.kind = .symbol .semicolon := by simp_all
    simpa [ParserState.window, ParserState.append, TokenStream.append, TokenStream.peek,
      TokenStream.current, hRest, hB] using h.2 _ _ _
  · simp [ParserState.window, ParserState.append, TokenStream.append, TokenStream.peek, hRest]

/-! ## What is checked -/

/-- Whether a loop may be over a collection with a target that is no plain name: behind its
parenthesis stands a word, after `var` or without, and then what goes on with a target. -/
def Grammar.MayTarget (w : Window) : Prop :=
  (if w.here = .keyword .var then w.next else w.here).isWord = true ∧
    targetTails.contains (if w.here = .keyword .var then w.second else w.next) = true

/-- Where a run may end that begins before the seam, and when it depends on what is behind. -/
inductive Finish where
  /-- It ends before the seam. -/
  | before
  /-- It may end at the seam, without a look at what is behind. -/
  | whole
  /-- It depends on what is behind once it is at the seam. -/
  | beyond
deriving DecidableEq

namespace Finish

/-- What is known of a run that ends at `s'`, where `same` says that it does the same with other
tokens behind the seam. -/
def Joined (e : Finish) (s' : ParserState) (same : Prop) : Prop :=
  (e = .before → s'.stream.rest ≠ []) ∧ (e ≠ .beyond ∨ s'.stream.rest ≠ [] → same)

namespace Joined

variable {e : Finish} {s' : ParserState} {same : Prop}

theorem of_same (hRest : s'.stream.rest ≠ []) (h : same) : e.Joined s' same :=
  ⟨fun _ => hRest, fun _ => h⟩

theorem whole (h : same) : Finish.whole.Joined s' same := by simp [Joined, h]

theorem beyond (hRest : s'.stream.rest = []) : Finish.beyond.Joined s' same := by
  simp [Joined, hRest]

end Joined

/-- What is known of the node in a run. -/
def inner (e : Finish) : Finish := if e = .beyond then .beyond else .before

end Finish

/-- Where the runs of a goal may end. -/
def Goal.finish : Goal → Finish
  | statement => .whole
  | script | standalone | leftovers | statements _ | switchClauses => .beyond
  | _ => .before

namespace Production

/-- Whether a sound run of a production at the seam is known to come to nothing, or to end there in
the same way whatever is behind, unless that is `else`. No expression begins at the end of the input,
and nothing that is asked for is found there. -/
def AtSeam : Production → Finish → Prop
  | done, e => e = .whole
  | take _, _ => False
  | expect kind _, _ => kind ≠ .endOfInput
  | word _, _ => True
  | assume _ _, _ => True
  | reject _ _, _ => True
  | skip _, _ => True
  | recover _, _ => False
  | parse goal next, _ => goal = .expression ∨ next.AtSeam .before
  | node _ inner next, _ => inner.AtSeam .before ∨ next.AtSeam .before
  | close _ next, e => next.AtSeam e
  | again _, _ => False
  | progress _ _ _, _ => False
  | look choose, e =>
    (choose .ends).AtSeam .before ∨
      ((choose .ends).AtSeam e ∧ ∀ w, w.here ≠ .keyword .else_ → choose w = choose .ends)
  | spell _, _ => False
  | scan _ _ _ _, _ => False
  | trial _ _ _ _ _, _ => False
  | single _ _, _ => False
  | troubled _ _, _ => False

/-- Whether a run that comes to the seam may go on with the production. -/
def Rests (next : Production) (e : Finish) : Prop := e = .beyond ∨ next.AtSeam e

/-- Whether the run of a production that begins before the seam is known to end as `e` says, where
`seen` are the kinds that stand ahead, as far as they are known. -/
def Joins : Production → Finish → List TokenKind → Prop
  | done, _, _ => True
  | take next, e, seen =>
    next.Joins e seen.tail ∧ ((∀ k ∈ seen.head?, k = .symbol .semicolon) → next.Rests e)
  | expect kind next, e, seen =>
    next.Joins e seen.tail ∧ (kind = .symbol .semicolon → next.Rests e)
  | word next, e, seen => next.Joins e seen.tail
  | assume _ _, _, _ => True
  | reject _ _, _, _ => True
  | skip _, _, _ => True
  | recover _, _, _ => False
  | parse goal next, e, _ =>
    next.Joins e [] ∧ (goal.finish = .whole → next.Rests e) ∧
      (goal.finish = .beyond → e = .beyond ∨ next.AtSeam .before)
  | node _ inner next, e, seen => inner.Joins e.inner seen ∧ next.Joins e []
  | close _ next, e, seen => next.Joins e seen
  | again goal, e, _ => goal.finish = .before ∨ goal.finish = e ∨ e = .beyond
  | progress _ stuck next, e, _ =>
    e = .beyond ∧ (∃ fault last, stuck = reject fault last) ∧ next.Joins e []
  | look choose, e, seen =>
    Window.Blind choose ∧ ∀ w : Window, seen <+: w.kinds → (choose w).Joins e w.kinds
  | spell choose, e, seen => ∀ text, (choose text).Joins e seen
  | scan _ test yes no, e, seen =>
    (test = Grammar.leadsToFunction ∨
        test = Grammar.closesBeforeArrow 0 ∧ seen.head? = some (.symbol .lParen) ∧
          ∃ next, no = Grammar.parenthesized next) ∧
      yes.Joins e seen ∧ no.Joins e seen
  | trial _ attempt _ yes no, e, seen =>
    (attempt = Grammar.loopTarget done ∧ no = Grammar.forClauses ∧
        ∃ w : Window, seen = w.kinds ∧ Grammar.MayTarget w) ∧
      attempt.Joins .before seen ∧ yes.Joins e seen ∧ no.Joins e seen
  | single yes no, e, seen => yes.Joins e seen ∧ no.Joins e seen
  | troubled _ no, e, seen => no.Joins e seen

end Production

/-! ## At the seam -/

section

open Production

variable {steps : Nat} {t : TokenStream} {trying : Bool}

/-- No run goes back to the tokens that it passed. -/
theorem rest_eq_nil {p : Production} {σ : Setting} {f : Frame} {s s' : ParserState}
    {parts : List Tree} (h : p.exec (run steps) σ f s = .parsed parts s')
    (hRest : s.stream.rest = []) : s'.stream.rest = [] := by
  obtain ⟨ls, hAdds⟩ := exec_adds (run_adds steps) p _ _ _ _ _ h
  have hSplit := hAdds.passes.rest
  rw [hRest] at hSplit
  exact (List.append_eq_nil_iff.1 hSplit.symm).2

/-- A sound run at the seam ends there without a look at what is behind. -/
theorem exec_atSeam (hElse : t.current.kind ≠ .keyword .else_) (p : Production) :
    ∀ ⦃e f s parts s'⦄ (also : Bool), p.AtSeam e → s.stream.rest = [] →
      p.exec (run steps) (.general trying) f s = .parsed parts s' → Sound trying parts →
        e = .whole ∧
          p.exec (run steps) (.general also) f (s.append t) = .parsed parts (s'.append t) := by
  induction p with
  | done =>
    intro e f s parts s' also hSeam hRest h hSound
    cases h
    exact ⟨hSeam, rfl⟩
  | expect kind next ih =>
    intro e f s parts s' also hSeam hRest h hSound
    obtain ⟨hKind, -⟩ := kind_of_expect h hSound
    rw [ParserState.kind_of_nil hRest] at hKind
    exact absurd hKind.symm hSeam
  | word next ih =>
    intro e f s parts s' also hSeam hRest h hSound
    obtain ⟨hWord, -⟩ := isWord_of_word h hSound
    rw [ParserState.kind_of_nil hRest] at hWord
    cases hWord
  | assume fault next ih =>
    intro e f s parts s' also hSeam hRest h hSound
    exact (no_fault rfl h hSound).elim
  | reject fault next ih =>
    intro e f s parts s' also hSeam hRest h hSound
    exact (no_fault rfl h hSound).elim
  | skip next ih =>
    intro e f s parts s' also hSeam hRest h hSound
    exact (no_fault rfl h hSound).elim
  | parse goal next ih =>
    intro e f s parts s' also hSeam hRest h hSound
    unfold Production.exec at h
    split at h
    next mid s₁ hParsed =>
      rcases hSeam with rfl | hNext
      · have hEnd : s.current.kind = .endOfInput := ParserState.kind_of_nil hRest
        exact (no_expression (.inl hEnd) hParsed (hSound.of_exec h).right).elim
      · obtain ⟨ls, hAdds⟩ := run_adds steps _ _ _ _ _ _ hParsed
        have hSplit := hAdds.passes.rest
        rw [hRest] at hSplit
        cases (ih also hNext (List.append_eq_nil_iff.1 hSplit.symm).2 h hSound).1
    next hBad => exact absurd h (hBad _ _)
  | node rule inner next ihInner ih =>
    intro e f s parts s' also hSeam hRest h hSound
    unfold Production.exec at h
    split at h
    next mid s₁ hParsed =>
      rcases hSeam with hInner | hNext
      · have hMid : Sound trying mid := (hSound.of_exec h).right.of_node
        cases (ihInner also hInner hRest hParsed hMid).1
      · cases (ih also hNext (rest_eq_nil hParsed hRest) h hSound).1
    next hBad => exact absurd h (hBad _ _)
  | close rule next ih =>
    intro e f s parts s' also hSeam hRest h hSound
    exact ih also hSeam hRest h hSound
  | look choose ih =>
    intro e f s parts s' also hSeam hRest h hSound
    unfold Production.exec at h ⊢
    rw [ParserState.window_of_nil hRest] at h
    rcases hSeam with hDead | ⟨hEnds, hSame⟩
    · cases (ih _ also hDead hRest h hSound).1
    · have hHere : (s.append t).window.here ≠ .keyword .else_ := by
        rwa [ParserState.window_here, ParserState.current_append_of_nil t hRest]
      rw [hSame _ hHere]
      exact ih _ also hEnds hRest h hSound
  | take next ih => exact fun e f s parts s' also hSeam => hSeam.elim
  | recover next ih => exact fun e f s parts s' also hSeam => hSeam.elim
  | again goal => exact fun e f s parts s' also hSeam => hSeam.elim
  | progress goal stuck next ihStuck ih => exact fun e f s parts s' also hSeam => hSeam.elim
  | spell choose ih => exact fun e f s parts s' also hSeam => hSeam.elim
  | scan decision test yes no ihYes ihNo => exact fun e f s parts s' also hSeam => hSeam.elim
  | trial decision attempt follow yes no ihAttempt ihYes ihNo =>
    exact fun e f s parts s' also hSeam => hSeam.elim
  | single yes no ihYes ihNo => exact fun e f s parts s' also hSeam => hSeam.elim
  | troubled yes no ihYes ihNo => exact fun e f s parts s' also hSeam => hSeam.elim

/-! ## Decisions on all tokens -/

namespace Grammar

theorem leadsToFunction_semicolon {ks : List TokenKind} (h : .symbol .semicolon ∈ ks)
    (ls : List TokenKind) : leadsToFunction (ks ++ ls) = leadsToFunction ks :=
  leadsToFunction_append ⟨_, List.mem_append_left _ h, rfl⟩

/-- Where a parenthesis closes in front of an arrow, what is behind the arrow does not matter. -/
theorem closesBeforeArrow_of_end {depth : Nat} {ks : List TokenKind}
    (h : closesBeforeArrow depth (ks ++ [.endOfInput]) = true) (ls : List TokenKind) :
    closesBeforeArrow depth (ks ++ ls) = true := by
  induction ks generalizing depth with
  | nil => simp [closesBeforeArrow] at h
  | cons k ks ih =>
    rw [List.cons_append, closesBeforeArrow] at h ⊢
    split at h
    · cases h
    next hEnd =>
      rw [if_neg hEnd]
      split at h
      next hOpen =>
        rw [if_pos hOpen]
        exact ih h
      next hOpen =>
        rw [if_neg hOpen]
        split at h
        next hShut =>
          rw [if_pos hShut]
          split at h
          next hDepth =>
            rw [if_pos hDepth]
            cases ks with
            | nil => cases h
            | cons k ks => exact h
          next hDepth =>
            rw [if_neg hDepth]
            exact ih h
        next hShut =>
          rw [if_neg hShut]
          exact ih h

/-- Tokens that are nested do not change where a parenthesis around them closes. -/
theorem closesBeforeArrow_nested {ds es : List Delimiter} {ks : List TokenKind} (depth : Nat)
    (hNest : Delimiter.nestAll ds ks = some es) (hEnd : .endOfInput ∉ ks) (ls : List TokenKind) :
    closesBeforeArrow (depth + 1 + ds.count .paren) (ks ++ ls) =
      closesBeforeArrow (depth + 1 + es.count .paren) ls := by
  induction ks generalizing ds with
  | nil =>
    cases hNest
    rfl
  | cons k ks ih =>
    rw [List.mem_cons, not_or] at hEnd
    rw [Delimiter.nestAll_cons, Option.bind_eq_some_iff] at hNest
    obtain ⟨fs, hStep, hRest⟩ := hNest
    rw [← ih hRest hEnd.2, List.cons_append, closesBeforeArrow, if_neg (Ne.symm hEnd.1)]
    split
    next hOpen =>
      rw [hOpen] at hStep
      cases hStep
      rw [List.count_cons_self]
      rfl
    next hOpen =>
      split
      next hShut =>
        have hClosed : Delimiter.closed? k = some .paren := by rw [hShut]; rfl
        have hOpened : Delimiter.opened? k = none := by rw [hShut]; rfl
        rcases Delimiter.nest_cases hStep with ⟨d, hIs, -⟩ | ⟨-, hNot, -⟩ | ⟨d, -, hIs, rfl⟩
        · rw [hOpened] at hIs
          cases hIs
        · rw [hClosed] at hNot
          cases hNot
        · rw [hClosed] at hIs
          cases hIs
          -- The parenthesis that closes here was opened among these tokens, so it is not the last.
          rw [List.count_cons_self, if_neg (by omega)]
          rfl
      next hShut => rw [Delimiter.count_paren_nest hStep hOpen hShut]

end Grammar

/-! ## Before the seam -/

/-- What holds where an action begins before the seam. -/
structure Poised (seen : List TokenKind) (s : ParserState) : Prop where
  shut : s.Shut
  isEnd : ∀ u ∈ s.stream.rest, u.isEnd = false
  sees : seen <+: s.window.kinds
  quiet : s.findings = .empty

namespace Poised

variable {seen : List TokenKind} {s s' : ParserState} {ts : List Token}

theorem blind (h : Poised seen s) : Poised [] s := ⟨h.shut, h.isEnd, List.nil_prefix, h.quiet⟩

theorem of_passes (h : Poised seen s) (hPasses : s.stream.Passes ts s'.stream)
    (hFound : s'.findings = s.findings) (hRest : s'.stream.rest ≠ []) : Poised [] s' where
  shut := h.shut.of_passes hPasses hRest
  isEnd u hu := h.isEnd u (by simp [hPasses.rest, hu])
  sees := List.nil_prefix
  quiet := hFound.trans h.quiet

/-- The tokens that are left begin with the current one. -/
theorem exists_rest (h : Poised seen s) : ∃ us, s.stream.rest = s.current :: us := by
  obtain ⟨u, us, hRest⟩ := List.exists_cons_of_ne_nil h.shut.rest_ne_nil
  exact ⟨us, by simp [ParserState.current, TokenStream.current, hRest]⟩

theorem kind_ne_end (h : Poised seen s) : s.current.kind ≠ .endOfInput := by
  obtain ⟨us, hRest⟩ := h.exists_rest
  have hOpen := h.isEnd s.current (by simp [hRest])
  simpa [Token.isEnd] using hOpen

theorem eq_current {k : TokenKind} (h : Poised seen s) (hHead : k ∈ seen.head?) :
    s.current.kind = k := by
  obtain ⟨ks, rfl⟩ := List.head?_eq_some_iff.1 hHead
  exact s.window_here.symm.trans (List.cons_prefix_cons.1 h.sees).1.symm

theorem advance (h : Poised seen s) (hRest : s.advance.stream.rest ≠ []) :
    Poised seen.tail s.advance where
  shut := h.shut.of_passes (ParserState.passes_advance h.kind_ne_end) hRest
  isEnd u hu := by
    refine h.isEnd u ?_
    rw [(ParserState.passes_advance h.kind_ne_end).rest]
    exact List.mem_append_right _ hu
  sees := by
    have hTail : seen.tail <+: s.window.kinds.tail := by simpa using List.IsPrefix.drop h.sees 1
    exact hTail.trans (ParserState.window_advance h.kind_ne_end)
  quiet := h.quiet

/-- The seam is only reached behind a semicolon. -/
theorem semicolon_of_advance (h : Poised seen s) (hRest : s.advance.stream.rest = []) :
    s.current.kind = .symbol .semicolon := by
  obtain ⟨u, hLast, hKind⟩ := h.shut
  rw [(ParserState.passes_advance h.kind_ne_end).rest, hRest] at hLast
  obtain rfl : s.current = u := by simpa using hLast
  exact hKind

end Poised

/-- Whether goals end as is said of them, whatever is behind the seam. -/
def CallsJoin (steps : Nat) : Prop :=
  ∀ (t : TokenStream) ⦃goal trying f s parts s'⦄ (also : Bool),
    t.current.kind ≠ .keyword .else_ → Poised [] s →
      run steps (.general trying) goal f s = .parsed parts s' → Sound trying parts →
        goal.finish.Joined s'
          (run steps (.general also) goal f (s.append t) = .parsed parts (s'.append t))

namespace Production

/-- Whether a production, wherever it may be expected to, ends as is said of it. A run that is no
attempt does the same as an attempt. -/
def Crosses (steps : Nat) (t : TokenStream) (p : Production) : Prop :=
  ∀ ⦃e seen trying f s parts s'⦄ (also : Bool), p.Joins e seen → Poised seen s →
    p.exec (run steps) (.general trying) f s = .parsed parts s' → Sound trying parts →
      e.Joined s'
        (p.exec (run steps) (.general also) f (s.append t) = .parsed parts (s'.append t))

namespace Crosses

variable {steps : Nat} {t : TokenStream} {trying : Bool}
  {next inner stuck attempt yes no : Production}

/-- What follows on an action, at the seam or before it. -/
theorem onward {e : Finish} {f : Frame} {s s' : ParserState} {parts : List Tree} (also : Bool)
    (hElse : t.current.kind ≠ .keyword .else_) (hNext : next.Crosses steps t)
    {seen : List TokenKind} (hJoins : next.Joins e seen)
    (hRests : s.stream.rest = [] → next.Rests e) (hPoised : s.stream.rest ≠ [] → Poised seen s)
    (h : next.exec (run steps) (.general trying) f s = .parsed parts s')
    (hSound : Sound trying parts) :
    e.Joined s'
      (next.exec (run steps) (.general also) f (s.append t) = .parsed parts (s'.append t)) := by
  by_cases hRest : s.stream.rest = []
  · rcases hRests hRest with rfl | hSeam
    · exact .beyond (rest_eq_nil h hRest)
    · obtain ⟨rfl, hSame⟩ := exec_atSeam hElse next also hSeam hRest h hSound
      exact .whole hSame
  · exact hNext also hJoins (hPoised hRest) h hSound

theorem done : Production.done.Crosses steps t := by
  intro e seen trying f s parts s' also hJoins hPoised h hSound
  cases h
  exact .of_same hPoised.shut.rest_ne_nil rfl

variable (hElse : t.current.kind ≠ .keyword .else_)

include hElse

theorem take (hNext : next.Crosses steps t) : (take next).Crosses steps t := by
  intro e seen trying f s parts s' also hJoins hPoised h hSound
  have hRest := hPoised.shut.rest_ne_nil
  unfold Production.exec
  rw [ParserState.current_append t hRest, ParserState.advance_append t hRest]
  refine onward also hElse hNext hJoins.1 (fun hEnd => hJoins.2 fun k hk => ?_) hPoised.advance h
    hSound
  exact (hPoised.eq_current hk).symm.trans (hPoised.semicolon_of_advance hEnd)

theorem expect (kind : TokenKind) (hNext : next.Crosses steps t) :
    (expect kind next).Crosses steps t := by
  intro e seen trying f s parts s' also hJoins hPoised h hSound
  have hRest := hPoised.shut.rest_ne_nil
  obtain ⟨hKind, hTaken⟩ := kind_of_expect h hSound
  unfold Production.exec
  rw [ParserState.current_append t hRest, ParserState.advance_append t hRest, if_pos hKind]
  refine onward also hElse hNext hJoins.1 (fun hEnd => hJoins.2 ?_) hPoised.advance hTaken hSound
  exact hKind.symm.trans (hPoised.semicolon_of_advance hEnd)

theorem word (hNext : next.Crosses steps t) : (word next).Crosses steps t := by
  intro e seen trying f s parts s' also hJoins hPoised h hSound
  have hRest := hPoised.shut.rest_ne_nil
  obtain ⟨hWord, hTaken⟩ := isWord_of_word h hSound
  unfold Production.exec
  rw [ParserState.current_append t hRest, ParserState.advance_append t hRest, if_pos hWord]
  refine onward also hElse hNext hJoins (fun hEnd => ?_) hPoised.advance hTaken hSound
  rw [hPoised.semicolon_of_advance hEnd] at hWord
  cases hWord

omit hElse in
theorem assume (fault : Fault) : (assume fault next).Crosses steps t :=
  fun _ _ _ _ _ _ _ _ _ _ h hSound => (no_fault rfl h hSound).elim

omit hElse in
theorem reject (fault : Fault) : (reject fault next).Crosses steps t :=
  fun _ _ _ _ _ _ _ _ _ _ h hSound => (no_fault rfl h hSound).elim

omit hElse in
theorem skip : (skip next).Crosses steps t :=
  fun _ _ _ _ _ _ _ _ _ _ h hSound => (no_fault rfl h hSound).elim

theorem parse (hCall : CallsJoin steps) (goal : Goal) (hNext : next.Crosses steps t) :
    (parse goal next).Crosses steps t := by
  intro e seen trying f s parts s' also hJoins hPoised h hSound
  obtain ⟨hJoins, hWhole, hBeyond⟩ := hJoins
  unfold Production.exec at h
  split at h
  next mid s₁ hParsed =>
    have hMid : Sound trying mid := (hSound.of_exec h).right
    obtain ⟨ls, hAdds⟩ := run_adds steps _ _ _ _ _ _ hParsed
    have hGoal := hCall t also hElse hPoised.blind hParsed hMid
    have hPoised₁ := hPoised.of_passes hAdds.passes (hMid.findings_eq hAdds)
    by_cases hBefore : goal.finish ≠ .beyond ∨ s₁.stream.rest ≠ []
    · have hSame := hGoal.2 hBefore
      unfold Production.exec
      rw [show Frame.start (s.append t) = Frame.start s from rfl, hSame]
      refine onward also hElse hNext hJoins (fun hEnd => hWhole ?_) hPoised₁ h hSound
      cases hFinish : goal.finish with
      | before => exact absurd hEnd (hGoal.1 hFinish)
      | whole => rfl
      | beyond => exact absurd hFinish (hBefore.resolve_right (not_not.2 hEnd))
    · -- The goal is at the seam, and what follows either does not end or is of no matter.
      rw [not_or, not_not, not_not] at hBefore
      rcases hBeyond hBefore.1 with rfl | hDead
      · exact .beyond (rest_eq_nil h hBefore.2)
      · cases (exec_atSeam hElse next also hDead hBefore.2 h hSound).1
  next hBad => exact absurd h (hBad _ _)

omit hElse in
theorem node (rule : Rule) (hInner : inner.Crosses steps t) (hNext : next.Crosses steps t) :
    (node rule inner next).Crosses steps t := by
  intro e seen trying f s parts s' also hJoins hPoised h hSound
  obtain ⟨hJoinsInner, hJoins⟩ := hJoins
  unfold Production.exec at h
  split at h
  next mid s₁ hParsed =>
    have hMid : Sound trying mid := (hSound.of_exec h).right.of_node
    obtain ⟨ls, hAdds⟩ := exec_adds (run_adds steps) inner _ _ _ _ _ hParsed
    have hNode := hInner also hJoinsInner hPoised hParsed hMid
    have hPoised₁ := hPoised.of_passes hAdds.passes (hMid.findings_eq hAdds)
    by_cases hRest : s₁.stream.rest = []
    · have hBeyond : e = .beyond := by
        by_contra hNot
        exact hNode.1 (if_neg hNot) hRest
      subst hBeyond
      exact .beyond (rest_eq_nil h hRest)
    · unfold Production.exec
      rw [show Frame.start (s.append t) = Frame.start s from rfl, hNode.2 (.inr hRest)]
      exact hNext also hJoins (hPoised₁ hRest) h hSound
  next hBad => exact absurd h (hBad _ _)

omit hElse in
theorem close (rule : Rule) (hNext : next.Crosses steps t) : (close rule next).Crosses steps t :=
  fun _ _ _ _ _ _ _ also hJoins hPoised h hSound => hNext also hJoins hPoised h hSound

theorem again (hCall : CallsJoin steps) (goal : Goal) : (again goal).Crosses steps t := by
  intro e seen trying f s parts s' also hJoins hPoised h hSound
  have hGoal := hCall t also hElse hPoised.blind h hSound
  rcases hJoins with hBefore | rfl | rfl
  · exact .of_same (hGoal.1 hBefore) (hGoal.2 (.inl (by simp [hBefore])))
  · exact hGoal
  · by_cases hRest : s'.stream.rest = []
    · exact .beyond hRest
    · exact .of_same hRest (hGoal.2 (.inr hRest))

theorem progress (hCall : CallsJoin steps) (goal : Goal) (hNext : next.Crosses steps t) :
    (progress goal stuck next).Crosses steps t := by
  intro e seen trying f s parts s' also hJoins hPoised h hSound
  obtain ⟨rfl, ⟨fault, last, rfl⟩, hJoins⟩ := hJoins
  unfold Production.exec at h
  split at h
  next mid s₁ hParsed =>
    split at h
    · exact (no_fault rfl h hSound).elim
    next hPos =>
      have hMid : Sound trying mid := (hSound.of_exec h).right
      obtain ⟨ls, hAdds⟩ := run_adds steps _ _ _ _ _ _ hParsed
      have hGoal := hCall t also hElse hPoised.blind hParsed hMid
      have hPoised₁ := hPoised.of_passes hAdds.passes (hMid.findings_eq hAdds)
      by_cases hRest : s₁.stream.rest = []
      · exact .beyond (rest_eq_nil h hRest)
      · have hPos' : ¬ (s₁.append t).stream.pos = (s.append t).stream.pos := hPos
        unfold Production.exec
        rw [show Frame.start (s.append t) = Frame.start s from rfl, hGoal.2 (.inr hRest)]
        dsimp only
        rw [if_neg hPos']
        exact hNext also hJoins (hPoised₁ hRest) h hSound
  next hBad => exact absurd h (hBad _ _)

omit hElse in
theorem look {choose : Window → Production} (hNext : ∀ w, (choose w).Crosses steps t) :
    (look choose).Crosses steps t := by
  intro e seen trying f s parts s' also hJoins hPoised h hSound
  obtain ⟨hBlind, hJoins⟩ := hJoins
  unfold Production.exec
  rw [hBlind.choose_append hPoised.shut]
  exact hNext _ also (hJoins s.window hPoised.sees)
    ⟨hPoised.shut, hPoised.isEnd, List.prefix_rfl, hPoised.quiet⟩ h hSound

omit hElse in
theorem spell {choose : String → Production} (hNext : ∀ text, (choose text).Crosses steps t) :
    (spell choose).Crosses steps t := by
  intro e seen trying f s parts s' also hJoins hPoised h hSound
  unfold Production.exec
  rw [ParserState.current_append t hPoised.shut.rest_ne_nil]
  exact hNext _ also (hJoins _) hPoised h hSound

omit hElse in
theorem single (hYes : yes.Crosses steps t) (hNo : no.Crosses steps t) :
    (single yes no).Crosses steps t := by
  intro e seen trying f s parts s' also hJoins hPoised h hSound
  unfold Production.exec at h ⊢
  split at h
  next hOne =>
    rw [if_pos hOne]
    exact hYes also hJoins.1 hPoised h hSound
  next hOne =>
    rw [if_neg hOne]
    exact hNo also hJoins.2 hPoised h hSound

omit hElse in
theorem troubled (hNo : no.Crosses steps t) : (troubled yes no).Crosses steps t := by
  intro e seen trying f s parts s' also hJoins hPoised h hSound
  have hQuiet : ¬ f.mark < s.findings.length := by simp [hPoised.quiet, Log.empty, Log.length]
  have hQuiet' : ¬ f.mark < (s.append t).findings.length := hQuiet
  unfold Production.exec at h ⊢
  rw [if_neg hQuiet] at h
  rw [if_neg hQuiet']
  exact hNo also hJoins hPoised h hSound

end Crosses

end Production

/-! ### A parenthesis that opens no parameters -/

/-- The tokens of an expression in parentheses, which a sound run takes. -/
theorem kinds_of_parenthesized {seen : List TokenKind} {f : Frame} {s s' : ParserState}
    {parts : List Tree} {next : Production} (hPoised : Poised seen s)
    (hParen : s.current.kind = .symbol .lParen)
    (h : (Grammar.parenthesized next).exec (run steps) (.general trying) f s = .parsed parts s')
    (hSound : Sound trying parts) :
    ∃ mid tail, s.stream.rest.map (·.kind) =
        .symbol .lParen :: mid ++ .symbol .rParen :: tail ∧
      tail ≠ [] ∧ Delimiter.nestAll [] mid = some [] ∧ .endOfInput ∉ mid := by
  have hOpens := ParserState.passes_advance (s := s) (by simp [hParen])
  rw [Grammar.parenthesized, Production.exec, Production.exec] at h
  split at h
  next inside s₁ hParsed =>
    have hInside : Sound trying inside := (hSound.of_exec h).right
    obtain ⟨ts, hPasses, hNest, hEnd⟩ :=
      run_nests (s := s.advance) Goal.noConfusion hPoised.quiet hParsed hInside
    obtain ⟨hShut, -⟩ := kind_of_expect h hSound
    have hCloses := ParserState.passes_advance (s := s₁) (by simp [hShut])
    have hRest : s.stream.rest = s.current :: ts ++ s₁.current :: s₁.advance.stream.rest := by
      rw [hOpens.rest, hPasses.rest, hCloses.rest]
      simp
    refine ⟨ts.map (·.kind), s₁.advance.stream.rest.map (·.kind), ?_, ?_, hNest, ?_⟩
    · simp [hRest, hParen, hShut]
    · -- What is taken last is a parenthesis, and the last token of all is none.
      intro hNil
      rw [List.map_eq_nil_iff] at hNil
      obtain ⟨u, hLast, hKind⟩ := hPoised.shut
      rw [hRest, hNil, List.getLast?_concat] at hLast
      rw [← Option.some.inj hLast, hShut] at hKind
      cases hKind
    · intro hMem
      obtain ⟨u, hU, hKind⟩ := List.mem_map.1 hMem
      have hNot := hEnd u hU
      simp [Token.isEnd, hKind] at hNot
  next hBad => exact absurd h (hBad _ _)

/-- Whether the parenthesis of an expression closes in front of an arrow does not depend on what is
behind the seam. -/
theorem closesBeforeArrow_parenthesized {mid tail : List TokenKind} (hTail : tail ≠ [])
    (hNest : Delimiter.nestAll [] mid = some []) (hEnd : .endOfInput ∉ mid)
    (ls ms : List TokenKind) :
    Grammar.closesBeforeArrow 0 (.symbol .lParen :: mid ++ .symbol .rParen :: tail ++ ls) =
      Grammar.closesBeforeArrow 0 (.symbol .lParen :: mid ++ .symbol .rParen :: tail ++ ms) := by
  obtain ⟨k, ks, rfl⟩ := List.exists_cons_of_ne_nil hTail
  have hAcross (ns : List TokenKind) := Grammar.closesBeforeArrow_nested 0 hNest hEnd ns
  have hClose (ns : List TokenKind) :
      Grammar.closesBeforeArrow 0 (.symbol .lParen :: mid ++ .symbol .rParen :: k :: ks ++ ns) =
        (k == .symbol .arrow) := by
    have hInside := hAcross (.symbol .rParen :: k :: ks ++ ns)
    simp only [List.count_nil, Nat.add_zero, Nat.zero_add] at hInside
    simp only [List.cons_append, List.append_assoc, Grammar.closesBeforeArrow] at hInside ⊢
    simpa using hInside
  rw [hClose, hClose]

theorem Production.Crosses.scan {decision : Option Ambiguity} {test : List TokenKind → Bool}
    {yes no : Production} (hYes : yes.Crosses steps t) (hNo : no.Crosses steps t) :
    (scan decision test yes no).Crosses steps t := by
  intro e seen trying f s parts s' also hJoins hPoised h hSound
  obtain ⟨hTest, hJoinsYes, hJoinsNo⟩ := hJoins
  have hLast : s.stream.last.kind = .endOfInput := by
    simpa [Token.isEnd] using s.stream.last_isEnd
  have hAhead : s.kindsAhead = s.stream.rest.map (·.kind) ++ [.endOfInput] := by
    rw [ParserState.kindsAhead, hLast]
  have hAhead' := s.kindsAhead_append t
  have hSemicolon : .symbol .semicolon ∈ s.stream.rest.map (·.kind) := by
    obtain ⟨u, hU, hKind⟩ := hPoised.shut
    exact List.mem_map.2 ⟨u, List.mem_of_getLast? hU, hKind⟩
  simp only [Production.exec, Setting.prediction_general] at h ⊢
  split at h
  next hIs =>
    have hIs' : test (s.append t).kindsAhead = true := by
      rw [hAhead] at hIs
      rw [hAhead']
      rcases hTest with rfl | ⟨rfl, -⟩
      · rwa [Grammar.leadsToFunction_semicolon hSemicolon] at hIs ⊢
      · exact Grammar.closesBeforeArrow_of_end hIs _
    rw [if_pos hIs']
    exact hYes also hJoinsYes hPoised h hSound
  next hIs =>
    have hIs' : ¬ test (s.append t).kindsAhead = true := by
      rw [hAhead] at hIs
      rw [hAhead']
      rcases hTest with rfl | ⟨rfl, hParen, next, rfl⟩
      · rwa [Grammar.leadsToFunction_semicolon hSemicolon] at hIs ⊢
      · obtain ⟨mid, tail, hRest, hTail, hNest, hEnd⟩ :=
          kinds_of_parenthesized hPoised (hPoised.eq_current hParen) h hSound
        rw [hRest] at hIs ⊢
        rwa [closesBeforeArrow_parenthesized hTail hNest hEnd _ [.endOfInput]]
    rw [if_neg hIs']
    exact hNo also hJoinsNo hPoised h hSound

/-! ### The target of a loop -/

/-- A target does not begin with `not`. -/
theorem loopTarget_not {s : ParserState} (h : s.current.kind = .keyword .not) (steps : Nat) :
    ∃ bail, (Grammar.loopTarget .done).exec (run (steps + 1)) (.general true) (.start s) s =
      .bailed bail s := by
  refine ⟨s.bail (.fault .expectedExpression), ?_⟩
  simp [Grammar.loopTarget, Production.exec, run, Goal.production, Grammar.operand, h,
    Grammar.boundaries, Token.startsStatement, Token.statementStarts]

/-- If the clauses of a loop are read without a fault where a target may stand, a target is read
there, or `not` stands there. -/
theorem loopTarget_parsed (hCall : CallsJoin steps) {w : Window} {f : Frame} {s s' : ParserState}
    {parts : List Tree} (hPoised : Poised w.kinds s) (hTarget : Grammar.MayTarget w)
    (hNot : s.current.kind ≠ .keyword .not)
    (h : Grammar.forClauses.exec (run steps) (.general trying) f s = .parsed parts s')
    (hSound : Sound trying parts) :
    ∃ ps u, (Grammar.loopTarget .done).exec (run steps) (.general true) (.start s) s =
      .parsed ps u := by
  have hWindow : w.kinds = s.window.kinds := hPoised.sees.eq_of_length rfl
  have hHere : s.current.kind = w.here := hPoised.eq_current rfl
  obtain ⟨hFirst, hSecond⟩ := hTarget
  rw [Grammar.forClauses, Production.exec, ParserState.window_here, hHere] at h
  by_cases hVar : w.here = .keyword .var
  · -- Behind `var` and a word stands no semicolon.
    exfalso
    rw [if_pos hVar] at hFirst hSecond h
    rw [Production.exec] at h
    split at h
    next inside s₁ hParsed =>
      have hInside : Sound trying inside := (hSound.of_exec h).right.of_node
      rw [Grammar.declaration, Production.exec] at hParsed
      obtain ⟨hWord, hTaken⟩ := isWord_of_word hParsed hInside
      have hNext := ParserState.window_advance (s := s) hPoised.kind_ne_end
      rw [← hWindow] at hNext
      have hBehind : w.second = s.advance.advance.current.kind := by
        rw [← ParserState.window_next (TokenKind.ne_endOfInput_of_isPlain
          (TokenKind.isPlain_of_isWord hWord))]
        exact (List.cons_prefix_cons.1 (List.cons_prefix_cons.1 hNext).2).1
      rw [hBehind] at hSecond
      rw [Production.exec, ParserState.window_here, if_neg] at hTaken
      · cases hTaken
        rw [(kind_of_expect h hSound).1] at hSecond
        exact absurd hSecond (by decide)
      · intro hIs
        rw [hIs] at hSecond
        exact absurd hSecond (by decide)
    next hBad => exact absurd h (hBad _ _)
  · rw [if_neg hVar] at hFirst hSecond h
    have hClause : s.current.kind ≠ .symbol .semicolon := by
      intro hIs
      rw [← hHere, hIs] at hFirst
      cases hFirst
    have hHead : Grammar.unaryOperators.contains s.current.kind = false := by
      rw [hHere] at hNot ⊢
      refine Bool.eq_false_iff.2 fun hIs => ?_
      simp only [Grammar.unaryOperators, List.contains_iff_mem, List.mem_cons, List.not_mem_nil,
        or_false] at hIs
      rcases hIs with hIs | hIs | hIs | hIs | hIs | hIs <;> simp_all [TokenKind.isWord]
    rw [Grammar.loopClause, Production.exec, ParserState.window_here, if_neg hClause,
      Production.exec] at h
    split at h
    next mid s₁ hParsed =>
      have hMid : Sound trying mid := (hSound.of_exec h).right
      obtain ⟨qs, u, hApplied, hQs⟩ := applied_of_expression hHead steps hParsed hMid
      -- The same operand is read by an attempt.
      have hLast : s.stream.last.kind ≠ .keyword .else_ := by
        have hEnd : s.stream.last.kind = .endOfInput := by
          simpa [Token.isEnd] using s.stream.last_isEnd
        simp [hEnd]
      have hSame := (hCall ⟨[], [], s.stream.last, s.stream.last_isEnd⟩ true hLast hPoised.blind
        hApplied hQs).2 (.inl (by simp [Goal.finish]))
      rw [ParserState.append_end] at hSame
      refine ⟨qs, u.append ⟨[], [], s.stream.last, s.stream.last_isEnd⟩, ?_⟩
      rw [Grammar.loopTarget, Production.exec, ParserState.window_here, hHere, if_neg hVar,
        Production.exec, hSame]
      rfl
    next hBad => exact absurd h (hBad _ _)

theorem Production.Crosses.trial (hCall : CallsJoin steps) {decision : Ambiguity}
    {follow : TokenKind} {attempt yes no : Production} (hAttempt : attempt.Crosses steps t)
    (hYes : yes.Crosses steps t)
    (hNo : no.Crosses steps t) : (trial decision attempt follow yes no).Crosses steps t := by
  intro e seen trying f s parts s' also hJoins hPoised h hSound
  obtain ⟨⟨rfl, rfl, w, rfl, hTarget⟩, hJoinsAttempt, hJoinsYes, hJoinsNo⟩ := hJoins
  have hRest := hPoised.shut.rest_ne_nil
  have hTry : Setting.mk .general true = .general true := rfl
  have hStart : Frame.start (s.append t) = .start s := rfl
  simp only [Production.exec, Setting.prediction_general, hTry, hStart] at h ⊢
  split at h
  · cases h
  next bail s₁ hTried =>
    -- An attempt that fails where the clauses are read fails at once.
    have hNot : s.current.kind = .keyword .not := by
      by_contra hNot
      obtain ⟨ps, u, hParsed⟩ := loopTarget_parsed hCall hPoised hTarget hNot h hSound
      rw [hTried] at hParsed
      cases hParsed
    cases steps with
    | zero =>
      simp [Grammar.loopTarget, Production.exec, run, hNot] at hTried
    | succ steps =>
      have hNot' : (s.append t).current.kind = .keyword .not := by
        rwa [ParserState.current_append t hRest]
      obtain ⟨bail', hTried'⟩ := loopTarget_not hNot' steps
      rw [hStart] at hTried'
      rw [hTried']
      exact hNo also hJoinsNo hPoised h hSound
  next ps s₁ hTried =>
    obtain ⟨hRest₁, hSame⟩ := hAttempt true hJoinsAttempt hPoised hTried (.inl rfl)
    have hKind : (s₁.append t).current.kind = s₁.current.kind := by
      rw [ParserState.current_append t (hRest₁ rfl)]
    rw [hSame (.inl (by simp))]
    dsimp only
    rw [hKind]
    split at h
    next hFollows =>
      rw [if_pos hFollows]
      exact hYes also hJoinsYes hPoised h hSound
    next hFollows =>
      rw [if_neg hFollows]
      exact hNo also hJoinsNo hPoised h hSound

/-! ### Productions -/

/-- A production that is expected to end as `e` says before the seam, does. -/
theorem exec_joins (hElse : t.current.kind ≠ .keyword .else_) (hCall : CallsJoin steps)
    (p : Production) : p.Crosses steps t := by
  induction p with
  | done => exact .done
  | take next ih => exact .take hElse ih
  | expect kind next ih => exact .expect hElse kind ih
  | word next ih => exact .word hElse ih
  | assume fault next ih => exact .assume fault
  | reject fault next ih => exact .reject fault
  | skip next ih => exact .skip
  | recover next ih => exact fun _ _ _ _ _ _ _ _ hJoins => hJoins.elim
  | parse goal next ih => exact .parse hElse hCall goal ih
  | node rule inner next ihInner ih => exact .node rule ihInner ih
  | close rule next ih => exact .close rule ih
  | again goal => exact .again hElse hCall goal
  | progress goal stuck next ihStuck ih => exact .progress hElse hCall goal ih
  | look choose ih => exact .look ih
  | spell choose ih => exact .spell ih
  | scan decision test yes no ihYes ihNo => exact .scan ihYes ihNo
  | trial decision attempt follow yes no ihAttempt ihYes ihNo =>
    exact .trial hCall ihAttempt ihYes ihNo
  | single yes no ihYes ihNo => exact .single ihYes ihNo
  | troubled yes no ihYes ihNo => exact .troubled ihNo

end

end CfScript
