import CfScript.Proofs.Groups
import CfScript.Token.Lexer

/-!
# Where a skipped statement ends

The rest of a broken statement is skipped with a stack of the delimiters that were passed. The stack is
forgiving: what closes a group also closes all groups inside it, and what closes no group is passed
over. So two things have to be shown of it, for tokens of any number and in any order.

Whatever the tokens are, a brace is only passed if a brace that was passed before is still open. And as
long as the delimiters are nested the stack holds exactly the groups around the cursor, so that the
skipping ends at the first place outside all groups where it may. Only a `)` or `]` that stands
outside all groups may be a stray one.

Nesting is stated by a grammar of groups, without a stack. `Delimiter.loose_iff` ties the grammar to a
walk that knows which groups are open, and the stack follows that walk.

## Main results

* `DelimiterStack.after_of_passAll`: the stack holds the open groups of a walk over nested tokens;
* `Token.braces_skippedTokens`: no prefix of what is skipped closes a brace that it did not open;
* `Token.skippedTokens_firstStop`: the skipping ends at the first place where the stack lets it;
* `Production.exec_recover_stops`: what is skipped of a broken statement, and where it ends.
-/

namespace CfScript

/-! ## The stack -/

namespace DelimiterStack

open Delimiter (opened? closed? pass passAll)

variable {stack : DelimiterStack} {d : Delimiter} {ds es : List Delimiter} {k : TokenKind}
  {ks : List TokenKind}

/-- The stack after tokens of the kinds. -/
def after (stack : DelimiterStack) (kinds : List TokenKind) : DelimiterStack :=
  kinds.foldl (fun stack kind => (stack.update kind).1) stack

/-- What is open after a delimiter is closed was open before it, and around it. -/
theorem suffix_of_closing (h : closing d ds = some es) : d :: es <:+ ds := by
  induction ds with
  | nil => cases h
  | cons e ds ih =>
    unfold closing at h
    split at h
    next hTop =>
      cases h
      subst hTop
      exact List.suffix_rfl
    next => exact (ih h).trans (List.suffix_cons e ds)

/-- The stack goes along with a walk over nested tokens. -/
theorem update_of_pass (h : pass ds k = some es) : (update ⟨ds⟩ k).1 = ⟨es⟩ := by
  rcases Delimiter.pass_cases h with
    ⟨d, hOpened, rfl⟩ | ⟨hOpened, hClosed, rfl⟩ | ⟨d, hClosed, rfl⟩ | ⟨hStray, rfl, rfl⟩
  · simp [update, hOpened]
  · simp [update, hOpened, hClosed]
  · simp [update, Delimiter.opened?_of_closed hClosed, hClosed, closing]
  · rcases hStray with rfl | rfl <;> rfl

theorem after_of_passAll (h : passAll ds ks = some es) : after ⟨ds⟩ ks = ⟨es⟩ := by
  induction ks generalizing ds with
  | nil =>
    cases h
    rfl
  | cons k ks ih =>
    rw [Delimiter.passAll_cons, Option.bind_eq_some_iff] at h
    obtain ⟨fs, hStep, hRest⟩ := h
    rw [after, List.foldl_cons, update_of_pass hStep]
    exact ih hRest

/-- Only a brace that opens puts a brace on the stack. -/
theorem count_brace_update_le (h : k ≠ .symbol .lBrace) :
    (stack.update k).1.open_.count .brace ≤ stack.open_.count .brace := by
  unfold update
  split
  next d hOpened =>
    have hOther : d ≠ .brace := by
      rintro rfl
      unfold opened? at hOpened
      split at hOpened <;> cases hOpened
      exact h rfl
    exact Nat.le_of_eq (List.count_cons_of_ne hOther)
  next =>
    split
    · exact Nat.le_refl _
    next d hClosed =>
      split
      next rest hClosing =>
        exact ((List.sublist_cons_self d rest).trans (suffix_of_closing hClosing).sublist).count_le _
      next => exact Nat.le_refl _

/-- A brace that closes takes a brace from the stack, and only one that opens puts one there. -/
theorem count_brace_update (h : k = .symbol .rBrace → stack.inside .brace = true) :
    (stack.update k).1.open_.count .brace + [k].count (.symbol .rBrace) ≤
      stack.open_.count .brace + [k].count (.symbol .lBrace) := by
  by_cases hOpens : k = .symbol .lBrace
  · subst hOpens
    simp [update, opened?]
  by_cases hCloses : k = .symbol .rBrace
  · subst hCloses
    cases hClosing : closing .brace stack.open_ with
    | none =>
      have hInside := h rfl
      rw [closing_eq_none_iff] at hClosing
      simp [inside, hClosing] at hInside
    | some rest =>
      have hCount := (suffix_of_closing hClosing).sublist.count_le .brace
      simpa [update, opened?, closed?, hClosing] using hCount
  · have hCount : (stack.update k).1.open_.count .brace ≤ stack.open_.count .brace :=
      count_brace_update_le hOpens
    simpa [hOpens, hCloses] using hCount

/-- Whether the skipping ends in front of a token of the kind or, if that is a semicolon, with it. -/
def Stops (stack : DelimiterStack) (kind : TokenKind) : Prop :=
  kind = .endOfInput ∨ (kind = .symbol .rBrace ∧ stack.inside .brace = false) ∨
    (stack.isEmpty = true ∧ (kind = .symbol .semicolon ∨ Token.startsStatement kind = true))

end DelimiterStack

/-! ## What is skipped -/

namespace Token

open DelimiterStack (Stops after)

/-- Whether `t`, behind the tokens `passed`, is the first of the tokens `ts` in front of which `stops`
holds, of the kinds of the tokens before it and its own kind. -/
structure FirstStop (stops : List TokenKind → TokenKind → Prop) (ts passed : List Token) (t : Token) :
    Prop where
  ahead : passed ++ [t] <+: ts
  here : stops (passed.map (·.kind)) t.kind
  first : ∀ front u, front ++ [u] <+: passed → ¬ stops (front.map (·.kind)) u.kind

theorem FirstStop.nil {stops : List TokenKind → TokenKind → Prop} {t : Token} {ts : List Token}
    (h : stops [] t.kind) : FirstStop stops (t :: ts) [] t :=
  ⟨⟨ts, rfl⟩, h, fun front u hPrefix => by simp at hPrefix⟩

theorem FirstStop.cons {stops : List TokenKind → TokenKind → Prop} {t u : Token} {ts passed : List Token}
    (hGoes : ¬ stops [] t.kind) (h : FirstStop (fun ks => stops (t.kind :: ks)) ts passed u) :
    FirstStop stops (t :: ts) (t :: passed) u where
  ahead := List.cons_prefix_cons.2 ⟨rfl, h.ahead⟩
  here := h.here
  first := by
    intro front v hPrefix
    cases front with
    | nil =>
      obtain ⟨rfl, -⟩ := List.cons_prefix_cons.1 hPrefix
      exact hGoes
    | cons w front =>
      rw [List.cons_append, List.cons_prefix_cons] at hPrefix
      obtain ⟨rfl, hPrefix⟩ := hPrefix
      exact h.first front v hPrefix

/-- The end of a statement, if the token is one. -/
def semicolon (t : Token) : List Token := if t.kind = .symbol .semicolon then [t] else []

theorem skippedTokens_of_stops {stack : DelimiterStack} {t : Token} (ts : List Token)
    (h : stack.Stops t.kind) : skippedTokens stack (t :: ts) = semicolon t := by
  rcases h with hEnd | ⟨hBrace, hOut⟩ | ⟨hEmpty, hSemicolon | hStart⟩
  · simp [skippedTokens, skipStatement, semicolon, isEnd, hEnd]
  · simp [skippedTokens, skipStatement, semicolon, isEnd, hBrace, hOut]
  · simp [skippedTokens, skipStatement, semicolon, isEnd, hSemicolon, hEmpty]
  · have hBrace : t.kind ≠ .symbol .rBrace := by
      intro hIs
      rw [hIs] at hStart
      cases hStart
    have hSemicolon : t.kind ≠ .symbol .semicolon := by
      intro hIs
      rw [hIs] at hStart
      cases hStart
    simp [skippedTokens, skipStatement, semicolon, hBrace, hSemicolon, hStart, hEmpty]

theorem skippedTokens_of_not_stops {stack : DelimiterStack} {t : Token} (ts : List Token)
    (h : ¬ stack.Stops t.kind) :
    skippedTokens stack (t :: ts) = t :: skippedTokens (stack.update t.kind).1 ts := by
  simp only [Stops, not_or, not_and] at h
  obtain ⟨hEnd, hBrace, hOther⟩ := h
  have hEnd : ¬ t.isEnd = true := by simpa [isEnd] using hEnd
  simp only [skippedTokens, skipStatement]
  rw [if_neg hEnd, if_neg (fun hStop => hBrace hStop.1 hStop.2),
    if_neg (fun hStop => (hOther hStop.1).1 hStop.2), if_neg (fun hStop => (hOther hStop.1).2 hStop.2)]
  rfl

/-- The skipping ends at the first place where the stack lets it, whatever the tokens are. -/
theorem skippedTokens_firstStop (stack : DelimiterStack) {ts : List Token}
    (hEnd : ∃ t ∈ ts, t.isEnd = true) :
    ∃ passed t, FirstStop (fun ks => (stack.after ks).Stops) ts passed t ∧
      skippedTokens stack ts = passed ++ semicolon t := by
  induction ts generalizing stack with
  | nil => simp at hEnd
  | cons t ts ih =>
    by_cases hStops : stack.Stops t.kind
    · exact ⟨[], t, .nil hStops, skippedTokens_of_stops ts hStops⟩
    · have hRest : ∃ u ∈ ts, u.isEnd = true := by
        obtain ⟨u, hMem, hIs⟩ := hEnd
        rcases List.mem_cons.1 hMem with rfl | hMem
        · exact absurd (.inl (by simpa [isEnd] using hIs)) hStops
        · exact ⟨u, hMem, hIs⟩
      obtain ⟨passed, u, hFirst, hSkipped⟩ := ih (stack.update t.kind).1 hRest
      refine ⟨t :: passed, u, .cons hStops hFirst, ?_⟩
      rw [skippedTokens_of_not_stops ts hStops, hSkipped]
      rfl

/-- No prefix of what is skipped closes a brace that neither it nor the stack opened. -/
theorem braces_skippedTokens (stack : DelimiterStack) (ts : List Token) {front : List Token}
    (hFront : front <+: skippedTokens stack ts) :
    (front.map (·.kind)).count (.symbol .rBrace) ≤
      stack.open_.count .brace + (front.map (·.kind)).count (.symbol .lBrace) := by
  induction ts generalizing stack front with
  | nil =>
    obtain rfl : front = [] := by simpa [skippedTokens, skipStatement] using hFront
    simp
  | cons t ts ih =>
    by_cases hStops : stack.Stops t.kind
    · rw [skippedTokens_of_stops ts hStops, semicolon] at hFront
      have hNone : TokenKind.symbol .rBrace ∉ front.map (·.kind) := by
        intro hMem
        obtain ⟨u, hu, hKind⟩ := List.mem_map.1 hMem
        have := hFront.subset hu
        split at this
        next hIs =>
          rw [List.mem_singleton.1 this, hIs] at hKind
          cases hKind
        next => simp at this
      rw [List.count_eq_zero.2 hNone]
      exact Nat.zero_le _
    · rw [skippedTokens_of_not_stops ts hStops] at hFront
      cases front with
      | nil => simp
      | cons u front =>
        obtain ⟨rfl, hFront⟩ := List.cons_prefix_cons.1 hFront
        have hInside : u.kind = .symbol .rBrace → stack.inside .brace = true := by
          intro hBrace
          cases hOut : stack.inside .brace with
          | true => rfl
          | false => exact absurd (.inr (.inl ⟨hBrace, hOut⟩)) hStops
        have hStep := DelimiterStack.count_brace_update hInside
        have hRest := ih (stack.update u.kind).1 hFront
        rw [List.map_cons, ← List.singleton_append, List.count_append, List.count_append]
        omega

/-- The end of the input is never reached. -/
theorem skippedTokens_append_end (stack : DelimiterStack) (ts : List Token) {last : Token}
    (hLast : last.isEnd = true) : skippedTokens stack (ts ++ [last]) = skippedTokens stack ts := by
  induction ts generalizing stack with
  | nil => simp [skippedTokens, skipStatement, hLast]
  | cons t ts ih =>
    rw [List.cons_append]
    by_cases hStops : stack.Stops t.kind
    · rw [skippedTokens_of_stops _ hStops, skippedTokens_of_stops _ hStops]
    · rw [skippedTokens_of_not_stops _ hStops, skippedTokens_of_not_stops _ hStops, ih]

/-! ## Nested statements -/

/-- Whether a statement may end in front of a token, or with a semicolon, behind tokens whose kinds are
given: no group is open there, and the token closes an enclosing block, starts a statement or ends
this one or the input. -/
def EndsOutside (kinds : List TokenKind) (kind : TokenKind) : Prop :=
  Delimiter.Loose kinds ∧ (kind = .symbol .rBrace ∨ startsStatement kind = true ∨
    kind = .endOfInput ∨ kind = .symbol .semicolon)

/-- Whether the tokens `region` in front of `stop` are nested apart from stray ones, where `stop` is the
first brace that closes an enclosing block or the end of the input. -/
structure LooseUpTo (ts region : List Token) (stop : Token) : Prop where
  ahead : region ++ [stop] <+: ts
  stop : stop.kind = .symbol .rBrace ∨ stop.kind = .endOfInput
  noEnd : ∀ t ∈ region, t.kind ≠ .endOfInput
  loose : Delimiter.Loose (region.map (·.kind))

namespace LooseUpTo

variable {ts region front : List Token} {stop u : Token}

/-- Inside the region the stack is empty exactly outside all groups, and a brace that closes finds the
one that it closes on the stack. -/
theorem stops_iff_of_region (h : LooseUpTo ts region stop) (hPrefix : front ++ [u] <+: region) :
    (DelimiterStack.empty.after (front.map (·.kind))).Stops u.kind ↔
      EndsOutside (front.map (·.kind)) u.kind := by
  obtain ⟨rest, rfl⟩ := hPrefix
  have hWalk := Delimiter.loose_iff.1 h.loose
  simp only [List.map_append, List.map_cons, List.map_nil, List.append_assoc] at hWalk
  obtain ⟨open_, hFront, hWalk⟩ := Delimiter.passAll_prefix hWalk
  obtain ⟨next, hStep, -⟩ := Option.bind_eq_some_iff.1 hWalk
  have hStack : DelimiterStack.empty.after (front.map (·.kind)) = ⟨open_⟩ :=
    DelimiterStack.after_of_passAll hFront
  have hLoose : Delimiter.Loose (front.map (·.kind)) ↔ open_ = [] := by
    rw [Delimiter.loose_iff, hFront, Option.some_inj]
  have hEnd : u.kind ≠ .endOfInput := h.noEnd u (by simp)
  have hBrace (hIs : u.kind = .symbol .rBrace) : .brace ∈ open_ := by
    rw [hIs] at hStep
    rcases Delimiter.pass_cases hStep with
      ⟨d, hOpened, -⟩ | ⟨-, hClosed, -⟩ | ⟨d, hClosed, rfl⟩ | ⟨hStray, -, -⟩
    · cases hOpened
    · cases hClosed
    · cases hClosed
      exact List.mem_cons_self
    · rcases hStray with hStray | hStray <;> cases hStray
  rw [hStack, EndsOutside, hLoose]
  constructor
  · rintro (hIs | ⟨hIs, hOut⟩ | ⟨hEmpty, hSemicolon | hStart⟩)
    · exact absurd hIs hEnd
    · simp [DelimiterStack.inside, hBrace hIs] at hOut
    · exact ⟨List.isEmpty_iff.1 hEmpty, .inr (.inr (.inr hSemicolon))⟩
    · exact ⟨List.isEmpty_iff.1 hEmpty, .inr (.inl hStart)⟩
  · rintro ⟨rfl, hIs | hStart | hIs | hSemicolon⟩
    · simpa using hBrace hIs
    · exact .inr (.inr ⟨rfl, .inr hStart⟩)
    · exact absurd hIs hEnd
    · exact .inr (.inr ⟨rfl, .inl hSemicolon⟩)

/-- At the end of the region the skipping ends, if it comes so far. -/
theorem stops_at_stop (h : LooseUpTo ts region stop) :
    (DelimiterStack.empty.after (region.map (·.kind))).Stops stop.kind := by
  rw [show DelimiterStack.empty.after (region.map (·.kind)) = ⟨[]⟩ from
    DelimiterStack.after_of_passAll (Delimiter.loose_iff.1 h.loose)]
  rcases h.stop with hBrace | hEnd
  · exact .inr (.inl ⟨hBrace, rfl⟩)
  · exact .inl hEnd

theorem endsOutside_stop (h : LooseUpTo ts region stop) :
    EndsOutside (region.map (·.kind)) stop.kind := by
  refine ⟨h.loose, ?_⟩
  rcases h.stop with hBrace | hEnd
  · exact .inl hBrace
  · exact .inr (.inr (.inl hEnd))

theorem stops_iff (h : LooseUpTo ts region stop) (hPrefix : front ++ [u] <+: region ++ [stop]) :
    (DelimiterStack.empty.after (front.map (·.kind))).Stops u.kind ↔
      EndsOutside (front.map (·.kind)) u.kind := by
  rcases List.prefix_concat_iff.1 hPrefix with hWhole | hPrefix
  · obtain ⟨rfl, hStop⟩ := List.append_inj' hWhole rfl
    cases hStop
    exact iff_of_true h.stops_at_stop h.endsOutside_stop
  · exact h.stops_iff_of_region hPrefix

/-- Where the stack first lets the skipping end, a statement may first end. -/
theorem firstStop (h : LooseUpTo ts region stop) {passed : List Token} {t : Token}
    (hFirst : FirstStop (fun ks => (DelimiterStack.empty.after ks).Stops) ts passed t) :
    FirstStop EndsOutside ts passed t := by
  have hInside : passed ++ [t] <+: region ++ [stop] := by
    rcases List.prefix_or_prefix_of_prefix hFirst.ahead h.ahead with hInside | hBeyond
    · exact hInside
    · rcases List.prefix_concat_iff.1 hBeyond with hWhole | hBeyond
      · exact hWhole ▸ List.prefix_rfl
      · exact absurd h.stops_at_stop (hFirst.first region stop hBeyond)
  refine ⟨hFirst.ahead, (h.stops_iff hInside).1 hFirst.here, fun front u hPrefix hEnds => ?_⟩
  have hFront := (hPrefix.trans (List.prefix_append passed [t])).trans hInside
  exact hFirst.first front u hPrefix ((h.stops_iff hFront).2 hEnds)

end LooseUpTo

end Token

/-! ## Broken statements -/

namespace ParserState

/-- The tokens from the cursor on, the last one included. -/
def ahead (s : ParserState) : List Token := s.stream.rest ++ [s.stream.last]

/-- The tokens that are skipped of a statement that is broken at the cursor. -/
def skipped (s : ParserState) : List Token := Token.skippedTokens .empty s.stream.rest

/-- The state behind those tokens. -/
def pastSkipped (s : ParserState) : ParserState :=
  { s with stream := s.stream.advanceBy s.skipped.length }

end ParserState

namespace Production

variable (call : Setting → Goal → Frame → ParserState → Outcome) (next : Production) (σ : Setting)
  (f : Frame) (s : ParserState)

theorem exec_recover :
    exec call (.recover next) σ f s =
      exec call next σ (f.append ((Adds.recovered s).map .leaf)) s.pastSkipped := by
  have hParts : (Adds.recovered s).map Tree.leaf =
      (Token.skipStatement .empty s.stream.rest).1.map .skipped ++
        (Token.skipStatement .empty s.stream.rest).2.toList.map .token := by
    rw [Adds.recovered, List.map_append, List.map_map, List.map_map]
    rfl
  have hLength : s.skipped.length = (Token.skipStatement .empty s.stream.rest).1.length +
      (Token.skipStatement .empty s.stream.rest).2.toList.length := List.length_append
  rw [hParts, ParserState.pastSkipped, hLength]
  rfl

/-- What a parser skips of a statement that is broken at the cursor, in any state. It takes the tokens
`s.skipped` and goes on behind them. No prefix of them closes a brace that it did not open. And if the
tokens ahead, up to the first brace that closes an enclosing block or to the end of the input, are
nested apart from stray `)` and `]` outside all groups, then the skipping ends in front of the first
token outside all groups that is such a brace, starts a statement or ends the input, or behind the
first semicolon there. -/
theorem exec_recover_stops :
    exec call (.recover next) σ f s =
        exec call next σ (f.append ((Adds.recovered s).map .leaf)) s.pastSkipped ∧
      (Adds.recovered s).filterMap (·.token?) = s.skipped ∧
      s.stream.Passes s.skipped s.pastSkipped.stream ∧
      (∀ front, front <+: s.skipped → (front.map (·.kind)).count (.symbol .rBrace) ≤
        (front.map (·.kind)).count (.symbol .lBrace)) ∧
      ∀ region stop, Token.LooseUpTo s.ahead region stop →
        ∃ passed t, Token.FirstStop Token.EndsOutside s.ahead passed t ∧
          s.skipped = passed ++ Token.semicolon t := by
  refine ⟨exec_recover call next σ f s, Adds.tokens_recovered s, ?_, ?_, ?_⟩
  · obtain ⟨hPrefix, hOpen⟩ := Token.skipStatement_prefix .empty s.stream.rest
    exact TokenStream.passes_advanceBy hPrefix hOpen
  · intro front hFront
    have hCount := Token.braces_skippedTokens .empty s.stream.rest hFront
    rwa [show DelimiterStack.empty.open_.count .brace = 0 from rfl, Nat.zero_add] at hCount
  · intro region stop hRegion
    have hLast : ∃ t ∈ s.ahead, t.isEnd = true :=
      ⟨s.stream.last, by simp [ParserState.ahead], s.stream.last_isEnd⟩
    obtain ⟨passed, t, hFirst, hSkipped⟩ := Token.skippedTokens_firstStop .empty hLast
    rw [ParserState.ahead, Token.skippedTokens_append_end _ _ s.stream.last_isEnd] at hSkipped
    exact ⟨passed, t, hRegion.firstStop hFirst, hSkipped⟩

/-- The skipping passes the semicolon and the `if` in the groups, and both delimiters that are left
over, and ends behind the semicolon outside. -/
theorem exec_recover_stops_groups :
    let s : ParserState := ⟨.ofTokens (Token.tokens "a) (b; \x7bif\x7d) ]; c \x7d d"), .empty⟩
    Token.LooseUpTo s.ahead (s.ahead.take 12) (s.stream.peek 12) ∧ s.skipped.length = 11 ∧
      ∃ passed t, Token.FirstStop Token.EndsOutside s.ahead passed t ∧
        s.skipped = passed ++ Token.semicolon t := by
  intro s
  have hRegion : Token.LooseUpTo s.ahead (s.ahead.take 12) (s.stream.peek 12) :=
    ⟨by decide +kernel, by decide +kernel, by decide +kernel,
      Delimiter.loose_iff.2 (by decide +kernel)⟩
  have hStops := exec_recover_stops (fun _ _ _ _ => .unfinished) .done ⟨.general, false⟩ (.start s) s
  exact ⟨hRegion, by decide +kernel, hStops.2.2.2.2 _ _ hRegion⟩

end Production

end CfScript
