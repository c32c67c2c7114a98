import CfScript.Proofs.Contract
import CfScript.Proofs.Yield

/-!
# What stands out among the parts of a node

Two things about the parts of a node matter beyond its form. One is the braces among them: whether
they were matched, skipped or assumed. The other is a name without a word: the node of a dotted name
that was assumed as a whole. These are the *marks* of the parts.

The grammar shows which marks the parts of a node may have, also where it is broken. `Shows` follows
the actions of a production with the marks that were collected so far, with the kinds ahead that the
last decision has seen, and with whether words and dots are known to lead to `function`. A production
is checked without running it. What the skipped rest of a broken statement may show is left open; a
property `R` of marks stands for it.

## Main results

* `Tree.Marked`: every node has marks that its rule admits;
* `Production.Shows`: the check of a production;
* `exec_shows`: what the check is worth;
* `run_shows`: so every goal shows what it should, if all goals pass the check.
-/

namespace CfScript

/-! ## Marks -/

/-- The side of a pair of braces. -/
inductive Side where
  | opening
  | closing
deriving DecidableEq

/-- How a brace came into a tree. -/
inductive Standing where
  | matched
  | skipped
  | assumed
deriving DecidableEq

/-- What stands out among the parts of a node. -/
inductive Mark where
  | brace (side : Side) (standing : Standing)
  /-- A name that was assumed as a whole. -/
  | nameless
deriving DecidableEq

/-- The side of a brace. -/
def TokenKind.side? : TokenKind → Option Side
  | .symbol .lBrace => some .opening
  | .symbol .rBrace => some .closing
  | _ => none

theorem TokenKind.side?_of_isWord {kind : TokenKind} (h : kind.isWord = true) : kind.side? = none := by
  cases kind with
  | symbol s => simp [isWord] at h
  | _ => rfl

/-- The mark of a leaf. -/
def Leaf.mark? : Leaf → Option Mark
  | matched t => t.kind.side?.map (.brace · .matched)
  | skipped t => t.kind.side?.map (.brace · .skipped)
  | assumed what =>
    if what = (TokenKind.symbol .lBrace).describe then some (.brace .opening .assumed)
    else if what = (TokenKind.symbol .rBrace).describe then some (.brace .closing .assumed)
    else none

namespace Tree

/-- The mark of a part. -/
def mark? : Tree → Option Mark
  | leaf l => l.mark?
  | node rule cs => if rule = .typeName ∧ (node rule cs).text = "" then some .nameless else none

/-- The marks of parts. -/
def marks (ts : List Tree) : List Mark := ts.filterMap mark?

variable {t : Tree} {ts us : List Tree}

@[simp] theorem marks_nil : marks [] = [] := rfl

@[simp] theorem marks_append : marks (ts ++ us) = marks ts ++ marks us := List.filterMap_append

theorem marks_singleton (t : Tree) : marks [t] = t.mark?.toList := by
  cases h : t.mark? <;> simp [marks, h]

theorem mark?_node {rule : Rule} {cs : List Tree} (h : rule ≠ .typeName) :
    (node rule cs).mark? = none := if_neg fun hBoth => h hBoth.1

end Tree

/-- The marks of a rest that is skipped. -/
def Token.skippedMarks (ts : List Token) : List Mark :=
  (skipStatement .empty ts).1.filterMap fun t => (Leaf.skipped t).mark?

/-- Whether the marks are those of braces that are skipped. -/
def AllSkipped (ms : List Mark) : Prop := ∀ m ∈ ms, ∃ side, m = .brace side .skipped

theorem allSkipped_skippedMarks (ts : List Token) : AllSkipped (Token.skippedMarks ts) := by
  intro m hm
  obtain ⟨t, -, ht⟩ := List.mem_filterMap.1 hm
  obtain ⟨side, -, rfl⟩ := Option.map_eq_some_iff.1 ht
  exact ⟨side, rfl⟩

/-- What marks the parts of a node below the root may have. -/
def Rule.Admits (R : List Mark → Prop) : Rule → List Mark → Prop
  | block, ms => ∃ a b, ms = [.brace .opening a, .brace .closing b] ∧ a ≠ .skipped ∧ b ≠ .skipped
  | structLiteral, ms => ∃ b, ms = [.brace .opening .matched, .brace .closing b] ∧ b ≠ .skipped
  | switchStatement, ms =>
    ∃ a n b, ms = .brace .opening a :: (List.replicate n (.brace .opening .skipped) ++
      [.brace .closing b]) ∧ a ≠ .skipped ∧ b ≠ .skipped
  | arrowFunction, ms => ms = [] ∨ ∃ side, ms = [.brace side .matched]
  | newExpression, ms => ms = [] ∨ ms = [.nameless]
  | importStatement, ms => ∃ us vs, ms = us ++ vs ∧ (us = [] ∨ us = [.nameless]) ∧ R vs
  | scriptBlock, _ | standaloneExpression, _ => False
  | _, ms => R ms

/-- A tree each of whose nodes has marks that its rule admits, as a part of another tree. -/
inductive Tree.Marked (R : List Mark → Prop) : Tree → Prop
  | leaf (l : Leaf) : Marked R (.leaf l)
  | node {rule : Rule} {cs : List Tree} : rule.Admits R (Tree.marks cs) →
    (∀ c ∈ cs, c.Marked R) → Marked R (.node rule cs)

theorem Tree.Marked.child {R : List Mark → Prop} {rule : Rule} {cs : List Tree}
    (h : (Tree.node rule cs).Marked R) : ∀ c ∈ cs, c.Marked R := by
  cases h with
  | node _ hAll => exact hAll

/-! ## What is seen of the tokens ahead -/

/-- Whether words and dots lead from the current word to `function`. -/
def ParserState.Leads (s : ParserState) : Prop :=
  s.current.kind.isWord = true ∧ Grammar.leadsToFunction.go s.kindsAhead = true

/-- The kinds of the next tokens as far as they are known, and whether words and dots are known to
lead to `function`. -/
structure Glance where
  ahead : List TokenKind := []
  leads : Prop := False

namespace Glance

/-- What is known after a token is taken. -/
def pass (v : Glance) : Glance := { ahead := v.ahead.tail }

/-- Whether words and dots lead to `function`, as far as is known. -/
def Leads (v : Glance) : Prop :=
  v.leads ∨ v.ahead.head? = some (.keyword .function) ∨
    ∃ k l ks, v.ahead = k :: l :: ks ∧ k.isWord = true ∧
    (l = .keyword .function ∨ l.isWord = true ∧ ks.head? = some (.keyword .function))

/-- Whether a state is as it is seen. -/
def Holds (v : Glance) (s : ParserState) : Prop := v.ahead <+: s.window.kinds ∧ (v.leads → s.Leads)

variable {v : Glance} {s : ParserState}

theorem holds_blank (s : ParserState) : Holds {} s := ⟨List.nil_prefix, nofun⟩

theorem Holds.head (h : v.Holds s) : ∀ k ∈ v.ahead.head?, s.current.kind = k := by
  intro k hk
  obtain ⟨rest, hRest⟩ := h.1
  obtain ⟨ks, hKs⟩ := List.head?_eq_some_iff.1 hk
  rw [hKs, Window.kinds, ParserState.window_here] at hRest
  exact (List.cons.inj hRest).1.symm

theorem Holds.pass (h : v.Holds s) (hEnds : s.stream.Ends) : v.pass.Holds s.advance := by
  have hSight : Sight.Holds ⟨v.ahead, none⟩ s := ⟨h.1, nofun⟩
  exact ⟨(hSight.pass hEnds).1, nofun⟩

/-- The three tokens of the window show where words lead. -/
theorem Holds.leads (h : v.Holds s) (hLeads : v.Leads) : s.Leads := by
  rcases hLeads with hLeads | hFunction | ⟨k, l, ks, hAhead, hWord, hNext⟩
  · exact h.2 hLeads
  · have hHere := h.head _ hFunction
    have hOpen : s.stream.atEnd = false := by
      rw [Bool.eq_false_iff, ne_eq, s.atEnd_iff, hHere]
      exact nofun
    obtain ⟨ts, hRest⟩ := TokenStream.rest_of_not_atEnd hOpen
    have hKind : s.stream.current.kind = .keyword .function := hHere
    refine ⟨hHere ▸ rfl, ?_⟩
    rw [ParserState.kindsAhead, hRest, List.map_cons, hKind]
    rfl
  obtain ⟨rest, hRest⟩ := h.1
  have hKinds : [s.stream.peek 0, s.stream.peek 1, s.stream.peek 2].map (·.kind) =
      k :: l :: (ks ++ rest) := by
    rw [← List.cons_append, ← List.cons_append, ← hAhead, hRest]
    rfl
  have hLast : s.stream.last.kind = .endOfInput := by
    have := s.stream.last_isEnd
    simpa [Token.isEnd] using this
  have hEndWord : ¬ TokenKind.isWord .endOfInput = true := by simp [TokenKind.isWord]
  simp only [List.map_cons, List.cons.injEq] at hKinds
  obtain ⟨hHere, hSecond, hThird⟩ := hKinds
  refine ⟨?_, ?_⟩
  · rw [ParserState.current, ← TokenStream.peek_zero, hHere, hWord]
  -- A word is not the end of the input, so it is one of the tokens that are left.
  unfold ParserState.kindsAhead
  cases hTokens : s.stream.rest with
  | nil =>
    simp only [TokenStream.peek, hTokens, List.getElem?_nil, Option.getD_none, hLast] at hHere
    exact absurd (hHere ▸ hWord) hEndWord
  | cons t ts =>
    simp only [TokenStream.peek, hTokens, List.getElem?_cons_zero, Option.getD_some] at hHere
    have hGo (more : List TokenKind) (hMore : Grammar.leadsToFunction.go more = true) :
        Grammar.leadsToFunction.go (t.kind :: more) = true := by
      simp [Grammar.leadsToFunction.go, hHere, hWord, hMore]
    refine hGo _ ?_
    cases ts with
    | nil =>
      simp only [TokenStream.peek, hTokens, List.getElem?_cons_succ, List.getElem?_nil,
        Option.getD_none, hLast] at hSecond
      rcases hNext with rfl | ⟨hWord', -⟩
      · cases hSecond
      · exact absurd (hSecond ▸ hWord') hEndWord
    | cons u us =>
      simp only [TokenStream.peek, hTokens, List.getElem?_cons_succ, List.getElem?_cons_zero,
        Option.getD_some] at hSecond
      rcases hNext with rfl | ⟨hWord', hFunction⟩
      · simp [Grammar.leadsToFunction.go, hSecond]
      · obtain ⟨ks', rfl⟩ := List.head?_eq_some_iff.1 hFunction
        have hThird := (List.cons.inj hThird).1
        cases us with
        | nil =>
          simp only [TokenStream.peek, hTokens, List.getElem?_cons_succ, List.getElem?_nil,
            Option.getD_none, hLast] at hThird
          cases hThird
        | cons w ws =>
          simp only [TokenStream.peek, hTokens, List.getElem?_cons_succ, List.getElem?_cons_zero,
            Option.getD_some] at hThird
          simp [Grammar.leadsToFunction.go, hSecond, hWord', hThird]

end Glance

/-! ## Goals and productions -/

namespace Goal

/-- What marks the parts of a goal may have. -/
def Shows : Goal → List Mark → Prop
  | script, ms => ∀ m ∈ ms, m = .brace .closing .skipped
  | standalone, ms | leftovers, ms => AllSkipped ms
  | switchClauses, ms => ∃ n, ms = List.replicate n (.brace .opening .skipped)
  | _, ms => ms = []

/-- Whether statements end in front of a closing brace at the latest. -/
def Stops : Goal → Prop
  | statements stop => .symbol .rBrace ∈ stop
  | _ => True

/-- Whether a goal may begin with parts that have the marks. -/
def MayFollow (goal : Goal) (ms : List Mark) : Prop := goal.Stops ∧ (goal.adds = false → ms = [])

/-- Whether the goal is a name behind its type, which is checked by hand. -/
def isTyped (goal : Goal) : Bool := goal == typedName || goal == propertyName

end Goal

namespace Production

/-- Whether a production begins by taking the current token, if it is a word or a string. -/
def takesName : Production → List TokenKind → Bool
  | take _, k :: _ => k.isWord || k == .string
  | word _, k :: _ => k.isWord
  | _, _ => false

/-- Whether a production that has collected parts with the marks `ms` and sees `v` only makes nodes
whose marks are admitted, and ends with marks that satisfy `Q`. -/
def Shows (R : List Mark → Prop) : Production → (List Mark → Prop) → Glance → List Mark → Prop
  | done, Q, _, ms => Q ms
  | take next, Q, v, ms =>
    ∀ k, (∀ l ∈ v.ahead.head?, k = l) →
      next.Shows R Q v.pass (ms ++ (k.side?.map (.brace · .matched)).toList)
  | expect kind next, Q, _, ms =>
    next.Shows R Q {} (ms ++ (kind.side?.map (.brace · .matched)).toList) ∧
      next.Shows R Q {} (ms ++ (Leaf.assumed kind.describe).mark?.toList)
  | word next, Q, _, ms => next.Shows R Q {} ms
  | assume fault next, Q, _, ms =>
    next.Shows R Q {} (ms ++ (Leaf.assumed fault.assumption).mark?.toList)
  | reject _ next, Q, v, ms | skip next, Q, v, ms =>
    ∀ k, (∀ l ∈ v.ahead.head?, k = l) →
      next.Shows R Q {} (ms ++ (k.side?.map (.brace · .skipped)).toList)
  | recover next, Q, _, ms => ∀ us, R us → next.Shows R Q {} (ms ++ us)
  | parse goal next, Q, v, ms =>
    goal.MayFollow [] ∧
      ∀ us, goal.Shows us → next.Shows R Q { leads := goal = .modifiers ∧ v.Leads } (ms ++ us)
  | node rule inner next, Q, v, ms =>
    if rule = .typeName then
      inner.Shows R (fun us => us = [] ∧ next.Shows R Q {} ms ∧
        (inner.takesName v.ahead = false → next.Shows R Q {} (ms ++ [.nameless]))) v []
    else inner.Shows R (fun us => rule.Admits R us ∧ next.Shows R Q {} ms) v []
  | close rule next, Q, v, ms => rule ≠ .typeName ∧ rule.Admits R ms ∧ next.Shows R Q v []
  | again goal, Q, _, ms =>
    goal.isTyped = false ∧ goal.MayFollow ms ∧ ∀ us, goal.Shows us → Q (ms ++ us)
  | progress goal stuck next, Q, v, ms =>
    goal.MayFollow [] ∧
      (goal = .statement ∧ v.ahead.head? = some (.symbol .lBrace) ∨ stuck.Shows R Q v ms) ∧
      ∀ us, goal.Shows us → next.Shows R Q {} (ms ++ us)
  | look choose, Q, v, ms =>
    ∀ w : Window, v.ahead <+: w.kinds → (v.Leads → w.here.isWord = true) →
      (choose w).Shows R Q { v with ahead := w.kinds } ms
  | spell choose, Q, v, ms => ∀ text, (choose text).Shows R Q v ms
  | scan _ test yes no, Q, v, ms =>
    (∃ leads : Prop, (leads → (∀ kinds, test kinds = true → Grammar.leadsToFunction.go kinds = true) ∧
        ∃ k ∈ v.ahead.head?, k.isWord = true) ∧ yes.Shows R Q { v with leads } ms) ∧
      no.Shows R Q v ms
  | trial _ _ _ yes no, Q, v, ms | single yes no, Q, v, ms | troubled yes no, Q, v, ms =>
    yes.Shows R Q v ms ∧ no.Shows R Q v ms

end Production

/-- Whether a goal passes the check, whatever marks it begins with. -/
def Goal.Passes (R : List Mark → Prop) (goal : Goal) : Prop :=
  goal.isTyped = false → ∀ ms, goal.MayFollow ms →
    goal.production.Shows R (fun us => ∃ vs, us = ms ++ vs ∧ goal.Shows vs) {} ms

/-! ## Streams -/

/-- A stream with one end and no other empty token, and what the rest of a statement may show where
it is skipped. -/
structure TokenStream.Fair (R : List Mark → Prop) (s : TokenStream) : Prop where
  ends : s.Ends
  filled : ∀ t ∈ s.rest, t.lexeme ≠ ""
  skips : ∀ ts, ts <:+ s.rest → R (Token.skippedMarks ts)

namespace TokenStream.Fair

variable {R : List Mark → Prop} {s u : TokenStream}

theorem of_passes {ts : List Token} (h : s.Fair R) (hPasses : s.Passes ts u) : u.Fair R where
  ends := h.ends.of_passes hPasses
  filled t ht := h.filled t (by simp [hPasses.rest, ht])
  skips us hus := h.skips us (hus.trans ⟨ts, hPasses.rest.symm⟩)

theorem advance (h : s.Fair R) : s.advance.Fair R := by
  by_cases hEnd : s.atEnd = true
  · rwa [advance_of_atEnd hEnd]
  · exact h.of_passes (passes_advance (Bool.eq_false_iff.2 hEnd))

/-- A current token that is not the end of the input has a text. -/
theorem lexeme_current {s : ParserState} (h : s.stream.Fair R)
    (hKind : s.current.kind ≠ .endOfInput) : s.current.lexeme ≠ "" := by
  have hOpen : s.stream.atEnd = false := by
    rw [Bool.eq_false_iff, ne_eq, s.atEnd_iff]
    exact hKind
  obtain ⟨ts, hRest⟩ := rest_of_not_atEnd hOpen
  exact h.filled _ (by rw [hRest]; exact List.mem_cons_self)

theorem lexeme_word {s : ParserState} (h : s.stream.Fair R) (hWord : s.current.kind.isWord = true) :
    s.current.lexeme ≠ "" :=
  h.lexeme_current fun hEnd => by simp [hEnd, TokenKind.isWord] at hWord

end TokenStream.Fair

/-! ## Runs -/

/-- Where an action stands: on a fair stream, in sight of what is seen, behind parts whose marks are
admitted. -/
structure Viewed (R : List Mark → Prop) (v : Glance) (ps : List Tree) (s : ParserState) : Prop where
  fair : s.stream.Fair R
  sight : v.Holds s
  parts : ∀ t ∈ ps, t.Marked R

namespace Viewed

variable {R : List Mark → Prop} {v : Glance} {ps qs : List Tree} {s s' : ParserState}

theorem start (h : Viewed R v ps s) : Viewed R v [] s := ⟨h.fair, h.sight, nofun⟩

theorem blur (h : Viewed R v ps s) (s' : ParserState) (hFair : s'.stream.Fair R) :
    Viewed R {} ps s' := ⟨hFair, Glance.holds_blank s', h.parts⟩

theorem append (h : Viewed R v ps s) (hqs : ∀ t ∈ qs, t.Marked R) : Viewed R v (ps ++ qs) s :=
  ⟨h.fair, h.sight, List.forall_mem_append.2 ⟨h.parts, hqs⟩⟩

theorem leaf (h : Viewed R v ps s) (l : Leaf) : Viewed R v (ps ++ [.leaf l]) s :=
  h.append (List.forall_mem_singleton.2 (.leaf l))

theorem advance (h : Viewed R v ps s) : Viewed R v.pass ps s.advance :=
  ⟨h.fair.advance, h.sight.pass h.fair.ends, h.parts⟩

end Viewed

/-- How a parse of goals behaves whose parts show what they should. -/
structure Shown (R : List Mark → Prop) (call : Setting → Goal → Frame → ParserState → Outcome) :
    Prop where
  adds : ∀ σ goal f s parts s', call σ goal f s = .parsed parts s' →
    ∃ ls, Adds σ f.parts s ls parts s'
  shows : ∀ {σ goal f s parts s'}, Viewed R {} f.parts s → (goal.isTyped = true → f.parts = []) →
    goal.MayFollow (Tree.marks f.parts) → call σ goal f s = .parsed parts s' →
      (∀ t ∈ parts, t.Marked R) ∧ ∃ ms, Tree.marks parts = Tree.marks f.parts ++ ms ∧ goal.Shows ms
  /-- Behind the modifiers words and dots still lead to `function`. -/
  modifiers : ∀ {σ f s parts s'}, call σ .modifiers f s = .parsed parts s' → s.Leads → s'.Leads
  /-- At a brace a statement takes a token. -/
  moves : ∀ {σ f s parts s'}, call σ .statement f s = .parsed parts s' →
    s.current.kind = .symbol .lBrace → s'.stream.pos ≠ s.stream.pos

namespace Shown

variable {R : List Mark → Prop} {call : Setting → Goal → Frame → ParserState → Outcome}

/-- What a goal gives that begins with no parts is put behind the parts that are there. -/
theorem child {σ : Setting} {goal : Goal} {v : Glance} {ps parts : List Tree} {s s' : ParserState}
    (hCall : Shown R call) (h : Viewed R v ps s) (hFollows : goal.MayFollow [])
    (hParsed : call σ goal (.start s) s = .parsed parts s') :
    Viewed R { leads := goal = .modifiers ∧ v.Leads } (ps ++ parts) s' ∧
      goal.Shows (Tree.marks parts) := by
  obtain ⟨ls, hAdds⟩ := hCall.adds _ _ _ _ _ _ hParsed
  obtain ⟨hParts, ms, hMs, hShows⟩ :=
    hCall.shows (f := .start s) (h.start.blur s h.fair) (fun _ => rfl) hFollows hParsed
  refine ⟨⟨h.fair.of_passes hAdds.passes, ⟨List.nil_prefix, ?_⟩,
    List.forall_mem_append.2 ⟨h.parts, hParts⟩⟩, ?_⟩
  · rintro ⟨rfl, hLeads⟩
    exact hCall.modifiers hParsed (h.sight.leads hLeads)
  · rw [hMs]
    exact hShows

end Shown

namespace Tree

theorem mark?_token (t : Token) : (token t).mark? = t.kind.side?.map (.brace · .matched) := rfl

theorem mark?_skipped (t : Token) : (skipped t).mark? = t.kind.side?.map (.brace · .skipped) := rfl

theorem marks_push (ps : List Tree) (t : Tree) : marks (ps ++ [t]) = marks ps ++ t.mark?.toList := by
  rw [marks_append, marks_singleton]

theorem marks_recovered (ts : List Token) :
    marks ((Token.skipStatement .empty ts).1.map .skipped ++
      (Token.skipStatement .empty ts).2.toList.map .token) = Token.skippedMarks ts := by
  have hSemicolon : marks ((Token.skipStatement .empty ts).2.toList.map .token) = [] := by
    cases h : (Token.skipStatement .empty ts).2 with
    | none => rfl
    | some t =>
      have hKind := Token.skipStatement_semicolon h
      simp [marks, mark?_token, hKind, TokenKind.side?]
  rw [marks_append, hSemicolon, List.append_nil, marks, List.filterMap_map]
  rfl

/-- Parts with a token that has a text have a text. -/
theorem text_ne_empty {rule : Rule} {cs : List Tree} {t : Token}
    (hMem : .matched t ∈ leavesAll cs) (ht : t.lexeme ≠ "") : (node rule cs).text ≠ "" := by
  intro hEmpty
  have hTexts : ((leavesAll cs).map (·.text)).flatMap String.toList = [] := by
    rw [← String.toList_join, ← String.toList_empty]
    exact congrArg String.toList hEmpty
  have hNil := List.flatMap_eq_nil_iff.1 hTexts t.lexeme
    (List.mem_map.2 ⟨.matched t, hMem, rfl⟩)
  exact ht (String.toList_eq_nil_iff.1 hNil)

end Tree

/-- A token with a text that is taken is among the parts in the end. -/
theorem text_of_taken {call : Setting → Goal → Frame → ParserState → Outcome}
    (hAdds : ∀ σ goal f s parts s', call σ goal f s = .parsed parts s' →
      ∃ ls, Adds σ f.parts s ls parts s') {next : Production} {rule : Rule} {σ : Setting} {f : Frame}
    {s s₁ s' : ParserState} {parts : List Tree} (hText : s.current.lexeme ≠ "")
    (h : next.exec call σ (f.push (.token s.current)) s₁ = .parsed parts s') :
    (Tree.node rule parts).text ≠ "" := by
  obtain ⟨ls, hNext⟩ := exec_adds hAdds next _ _ _ _ _ h
  refine Tree.text_ne_empty (t := s.current) ?_ hText
  rw [hNext.leaves, Frame.push, Frame.append, Tree.leavesAll_append]
  simp [Tree.leavesAll, Tree.leaves, Tree.token]

/-- A name that begins with a word or a string has a text. -/
theorem text_of_takesName {R : List Mark → Prop} {v : Glance} {rule : Rule}
    {call : Setting → Goal → Frame → ParserState → Outcome} (hCall : Shown R call)
    {p : Production} {σ : Setting} {s s' : ParserState} {parts : List Tree} (hViewed : Viewed R v [] s)
    (hTakes : p.takesName v.ahead = true) (h : p.exec call σ (.start s) s = .parsed parts s') :
    (Tree.node rule parts).text ≠ "" := by
  have hHead := hViewed.sight.head
  unfold Production.takesName at hTakes
  split at hTakes
  next next k ks hAhead =>
    refine text_of_taken hCall.adds (hViewed.fair.lexeme_current fun hEnd => ?_) h
    rw [hAhead] at hHead
    rw [hHead k rfl] at hEnd
    simp [hEnd, TokenKind.isWord] at hTakes
  next next k ks hAhead =>
    rw [hAhead] at hHead
    have hWord : s.current.kind.isWord = true := (hHead k rfl).symm ▸ hTakes
    unfold Production.exec at h
    rw [if_pos hWord] at h
    exact text_of_taken hCall.adds (hViewed.fair.lexeme_word hWord) h
  next => cases hTakes

/-- A production that passes the check shows what it should, if all goals do that it asks for. -/
theorem exec_shows {R : List Mark → Prop} (hR : R [])
    {call : Setting → Goal → Frame → ParserState → Outcome} (hCall : Shown R call) (p : Production) :
    ∀ {Q v σ f s parts s'}, Viewed R v f.parts s → p.Shows R Q v (Tree.marks f.parts) →
      p.exec call σ f s = .parsed parts s' → (∀ t ∈ parts, t.Marked R) ∧ Q (Tree.marks parts) := by
  induction p with
  | done =>
    intro Q v σ f s parts s' hViewed hShows h
    cases h
    exact ⟨hViewed.parts, hShows⟩
  | take next ih =>
    intro Q v σ f s parts s' hViewed hShows h
    refine ih (hViewed.advance.leaf (.matched s.current)) ?_ h
    rw [Frame.push, Frame.append, Tree.marks_push]
    exact hShows _ hViewed.sight.head
  | expect kind next ih =>
    intro Q v σ f s parts s' hViewed hShows h
    unfold Production.exec at h
    split at h
    next hKind =>
      refine ih ((hViewed.blur s.advance hViewed.fair.advance).leaf (.matched s.current)) ?_ h
      rw [Frame.push, Frame.append, Tree.marks_push, Tree.mark?_token, hKind]
      exact hShows.1
    next =>
      split at h
      · cases h
      · refine ih ((hViewed.blur (s.report _) hViewed.fair).leaf (.assumed kind.describe)) ?_ h
        rw [Frame.push, Frame.append, Tree.marks_push]
        exact hShows.2
  | word next ih =>
    intro Q v σ f s parts s' hViewed hShows h
    unfold Production.exec at h
    split at h
    next hWord =>
      refine ih ((hViewed.blur s.advance hViewed.fair.advance).leaf (.matched s.current)) ?_ h
      rw [Frame.push, Frame.append, Tree.marks_push, Tree.mark?_token,
        TokenKind.side?_of_isWord hWord]
      simpa [Production.Shows] using hShows
    next =>
      split at h
      · cases h
      · refine ih ((hViewed.blur (s.report .expectedIdentifier) hViewed.fair).leaf
          (.assumed Fault.expectedIdentifier.assumption)) ?_ h
        rw [Frame.push, Frame.append, Tree.marks_push]
        have hNone : (Tree.assumed Fault.expectedIdentifier.assumption).mark? = none := by decide
        rw [hNone]
        simpa [Production.Shows] using hShows
  | assume fault next ih =>
    intro Q v σ f s parts s' hViewed hShows h
    unfold Production.exec at h
    split at h
    · cases h
    · refine ih ((hViewed.blur (s.report fault) hViewed.fair).leaf (.assumed fault.assumption)) ?_ h
      rw [Frame.push, Frame.append, Tree.marks_push]
      exact hShows
  | reject fault next ih =>
    intro Q v σ f s parts s' hViewed hShows h
    unfold Production.exec at h
    split at h
    · cases h
    · refine ih ((hViewed.blur (s.report fault).advance hViewed.fair.advance).leaf
        (.skipped s.current)) ?_ h
      rw [Frame.push, Frame.append, Tree.marks_push]
      exact hShows _ hViewed.sight.head
  | skip next ih =>
    intro Q v σ f s parts s' hViewed hShows h
    unfold Production.exec at h
    split at h
    · cases h
    · refine ih ((hViewed.blur s.advance hViewed.fair.advance).leaf (.skipped s.current)) ?_ h
      rw [Frame.push, Frame.append, Tree.marks_push]
      exact hShows _ hViewed.sight.head
  | recover next ih =>
    intro Q v σ f s parts s' hViewed hShows h
    have hLeaves : ∀ t ∈ (Token.skipStatement .empty s.stream.rest).1.map Tree.skipped ++
        (Token.skipStatement .empty s.stream.rest).2.toList.map Tree.token, t.Marked R := by
      refine List.forall_mem_append.2 ⟨List.forall_mem_map.2 fun u _ => ?_,
        List.forall_mem_map.2 fun u _ => ?_⟩
      · exact .leaf (.skipped u)
      · exact .leaf (.matched u)
    have hFair := hViewed.fair.of_passes (Adds.recover σ f.parts s).passes
    refine ih ((hViewed.blur _ hFair).append hLeaves) ?_ h
    rw [Frame.append, Tree.marks_append, Tree.marks_recovered]
    exact hShows _ (hViewed.fair.skips _ List.suffix_rfl)
  | parse goal next ih =>
    intro Q v σ f s parts s' hViewed hShows h
    unfold Production.exec at h
    split at h
    next mid s₁ hParsed =>
      obtain ⟨hViewed₁, hGoal⟩ := hCall.child hViewed hShows.1 hParsed
      refine ih hViewed₁ ?_ h
      rw [Frame.append, Tree.marks_append]
      exact hShows.2 _ hGoal
    next hNot => exact absurd h (hNot _ _)
  | node rule inner next ihInner ih =>
    intro Q v σ f s parts s' hViewed hShows h
    unfold Production.exec at h
    split at h
    next mid s₁ hParsed =>
      obtain ⟨ls, hAdds⟩ := exec_adds hCall.adds inner _ _ _ _ _ hParsed
      have hViewed₁ := hViewed.blur s₁ (hViewed.fair.of_passes hAdds.passes)
      unfold Production.Shows at hShows
      split at hShows
      next hName =>
        subst hName
        obtain ⟨hMid, hNone, hNext, hNameless⟩ :=
          ihInner (f := .start s) hViewed.start hShows hParsed
        have hMarked : (Tree.node .typeName mid).Marked R := .node (hNone ▸ hR) hMid
        refine ih (hViewed₁.append (List.forall_mem_singleton.2 hMarked)) ?_ h
        rw [Frame.push, Frame.append, Tree.marks_push]
        by_cases hText : (Tree.node .typeName mid).text = ""
        · rw [Tree.mark?, if_pos ⟨rfl, hText⟩]
          refine hNameless (Bool.eq_false_iff.2 fun hTakes => ?_)
          exact text_of_takesName hCall hViewed.start hTakes hParsed hText
        · rw [Tree.mark?, if_neg fun hBoth => hText hBoth.2]
          simpa using hNext
      next hName =>
        obtain ⟨hMid, hAdmits, hNext⟩ := ihInner (f := .start s) hViewed.start hShows hParsed
        have hMarked : (Tree.node rule mid).Marked R := .node hAdmits hMid
        refine ih (hViewed₁.append (List.forall_mem_singleton.2 hMarked)) ?_ h
        rw [Frame.push, Frame.append, Tree.marks_push, Tree.mark?_node hName]
        simpa using hNext
    next hNot => exact absurd h (hNot _ _)
  | close rule next ih =>
    intro Q v σ f s parts s' hViewed hShows h
    obtain ⟨hName, hAdmits, hNext⟩ := hShows
    have hMarked : (Tree.node rule f.parts).Marked R := .node hAdmits hViewed.parts
    refine ih (f := f.close rule) (hViewed.start.append (List.forall_mem_singleton.2 hMarked)) ?_ h
    rw [Frame.close, Tree.marks_singleton, Tree.mark?_node hName]
    exact hNext
  | again goal =>
    intro Q v σ f s parts s' hViewed hShows h
    obtain ⟨hNotTyped, hFollows, hNext⟩ := hShows
    obtain ⟨hMade, ms, hMs, hGoal⟩ := hCall.shows (hViewed.blur s hViewed.fair)
      (fun hTyped => absurd hTyped (hNotTyped ▸ Bool.false_ne_true)) hFollows h
    exact ⟨hMade, hMs ▸ hNext _ hGoal⟩
  | progress goal stuck next ihStuck ih =>
    intro Q v σ f s parts s' hViewed hShows h
    obtain ⟨hFollows, hStuck, hNext⟩ := hShows
    unfold Production.exec at h
    split at h
    next mid s₁ hParsed =>
      obtain ⟨hViewed₁, hGoal⟩ := hCall.child hViewed hFollows hParsed
      split at h
      next hPos =>
        obtain ⟨ls, hAdds⟩ := hCall.adds _ _ _ _ _ _ hParsed
        rw [hAdds.undone hPos] at h
        rcases hStuck with ⟨rfl, hBrace⟩ | hStuck
        · exact absurd hPos (hCall.moves hParsed (hViewed.sight.head _ hBrace))
        · exact ihStuck hViewed hStuck h
      next =>
        refine ih (f := f.append mid) (hViewed₁.blur s₁ hViewed₁.fair) ?_ h
        rw [Frame.append, Tree.marks_append]
        exact hNext _ hGoal
    next hNot => exact absurd h (hNot _ _)
  | look choose ih =>
    intro Q v σ f s parts s' hViewed hShows h
    have hSight : Glance.Holds { v with ahead := s.window.kinds } s :=
      ⟨List.prefix_rfl, hViewed.sight.2⟩
    refine ih s.window ⟨hViewed.fair, hSight, hViewed.parts⟩
      (hShows s.window hViewed.sight.1 fun hLeads => ?_) h
    rw [ParserState.window_here]
    exact (hViewed.sight.leads hLeads).1
  | spell choose ih =>
    intro Q v σ f s parts s' hViewed hShows h
    exact ih _ hViewed (hShows _) h
  | scan decision test yes no ihYes ihNo =>
    intro Q v σ f s parts s' hViewed hShows h
    obtain ⟨⟨leads, hLeads, hYes⟩, hNo⟩ := hShows
    unfold Production.exec at h
    split at h
    · cases h
    · exact ihNo hViewed hNo h
    · split at h
      next hTest =>
        refine ihYes (v := { v with leads }) ⟨hViewed.fair, ⟨hViewed.sight.1, fun hIs => ?_⟩,
          hViewed.parts⟩ hYes h
        obtain ⟨hGo, k, hk, hWord⟩ := hLeads hIs
        exact ⟨(hViewed.sight.head k hk).symm ▸ hWord, hGo _ hTest⟩
      next => exact ihNo hViewed hNo h
  | trial decision attempt follow yes no ihAttempt ihYes ihNo =>
    intro Q v σ f s parts s' hViewed hShows h
    unfold Production.exec at h
    split at h
    · cases h
    · split at h
      · cases h
      · exact ihNo hViewed hShows.2 h
      · split at h
        · exact ihYes hViewed hShows.1 h
        · exact ihNo hViewed hShows.2 h
  | single yes no ihYes ihNo =>
    intro Q v σ f s parts s' hViewed hShows h
    unfold Production.exec at h
    split at h
    · exact ihYes hViewed hShows.1 h
    · exact ihNo hViewed hShows.2 h
  | troubled yes no ihYes ihNo =>
    intro Q v σ f s parts s' hViewed hShows h
    unfold Production.exec at h
    split at h
    · exact ihYes hViewed hShows.1 h
    · exact ihNo hViewed hShows.2 h

/-! ## A name behind its type

Whether what stands before a name is its type is seen only after it is read, so the marks do not tell
that a type has a text: it has one if more than one part was read, or a word follows.
-/

/-- Words with dots between them have a text, or one part is assumed in their place. -/
theorem run_dottedName {R : List Mark → Prop} {steps : Nat} {σ : Setting} {s s' : ParserState}
    {parts : List Tree} {rule : Rule} (hFair : s.stream.Fair R)
    (h : run steps σ .dottedName (.start s) s = .parsed parts s') :
    (Tree.node rule parts).text ≠ "" ∨ parts.length = 1 ∧ s'.current.kind.isWord = false := by
  cases steps with
  | zero => cases h
  | succ steps =>
    by_cases hWord : s.current.kind.isWord = true
    · simp only [run, Goal.production, Grammar.dottedName, Production.exec, if_pos hWord] at h
      have hTail : (Production.again .dottedTail).exec (run steps) σ
          ((Frame.start s).push (.token s.current)) s.advance = .parsed parts s' := h
      exact .inl (text_of_taken (run_adds steps) (hFair.lexeme_word hWord) hTail)
    simp only [run, Goal.production, Grammar.dottedName, Production.exec, if_neg hWord] at h
    split at h
    · cases h
    cases steps with
    | zero => cases h
    | succ steps =>
      -- No dot follows, and so no more parts, or the dot has a text.
      simp only [run, Goal.production, Grammar.dottedTail, Production.exec] at h
      split at h
      next hDot =>
        refine .inl (text_of_taken (s := s.report .expectedIdentifier) (run_adds steps)
          (hFair.lexeme_current fun hEnd => ?_) h)
        rw [ParserState.window_here] at hDot
        have hKind := hDot.1
        change s.current.kind = _ at hKind
        rw [hEnd] at hKind
        cases hKind
      next =>
        cases h
        exact .inr ⟨rfl, Bool.eq_false_iff.2 hWord⟩

/-- A name behind its type, whichever windows say that there is a type. -/
theorem exec_typed {R : List Mark → Prop} (hR : R []) {steps : Nat} (hRun : Shown R (run steps))
    {c : Window → Prop} [DecidablePred c] (hc : ∀ w, c w → w.here.isWord = true) {σ : Setting}
    {f : Frame} {s s' : ParserState} {parts : List Tree} (hViewed : Viewed R {} [] s)
    (hf : f.parts = [])
    (h : (Production.parse .dottedName <| .look fun w =>
      if c w then .close .typeName <| .take .done else Grammar.plainName).exec (run steps) σ f s =
        .parsed parts s') :
    (∀ t ∈ parts, t.Marked R) ∧ Tree.marks parts = [] := by
  unfold Production.exec at h
  split at h
  next mid s₁ hParsed =>
    have hFollows : Goal.dottedName.MayFollow [] := ⟨trivial, fun _ => rfl⟩
    obtain ⟨⟨-, -, hMid⟩, hMarks⟩ := hRun.child hViewed hFollows hParsed
    have hNil : Tree.marks mid = [] := hMarks
    have hAppend : (f.append mid).parts = mid := by rw [Frame.append, hf, List.nil_append]
    have hType : (Tree.node .typeName mid).Marked R := .node (hNil ▸ hR) hMid
    have hPair (hText : (Tree.node .typeName mid).text ≠ "") (l : Leaf) (hLeaf : l.mark? = none) :
        (∀ t ∈ [Tree.node .typeName mid, .leaf l], t.Marked R) ∧
          Tree.marks [.node .typeName mid, .leaf l] = [] := by
      refine ⟨List.forall_mem_cons.2 ⟨hType, List.forall_mem_singleton.2 (.leaf l)⟩, ?_⟩
      simp [Tree.marks, Tree.mark?, hText, hLeaf]
    have hRead : (Tree.node .typeName mid).text ≠ "" ∨
        mid.length = 1 ∧ s₁.current.kind.isWord = false := run_dottedName hViewed.fair hParsed
    simp only [Production.exec] at h
    split at h
    next hIs =>
      have hWord := hc _ hIs
      rw [ParserState.window_here] at hWord
      obtain hText | ⟨-, hNot⟩ := hRead
      · cases h
        rw [Frame.push, Frame.append, Frame.close, hAppend]
        exact hPair hText (.matched s₁.current) (by simp [Leaf.mark?, TokenKind.side?_of_isWord hWord])
      · exact absurd hWord (hNot ▸ Bool.false_ne_true)
    next =>
      simp only [Grammar.plainName, Production.exec, hAppend] at h
      split at h
      · cases h
        exact ⟨hMid, hNil⟩
      next hMore =>
        split at h
        · cases h
        cases h
        rw [Frame.push, Frame.append, Frame.close, hAppend]
        exact hPair (hRead.resolve_right fun hOne => hMore hOne.1) (.assumed _) (by decide)
  next hNot => exact absurd h (hNot _ _)

/-! ## Runs of goals -/

/-- Behind a modifier words and dots still lead to `function`. -/
theorem ParserState.Leads.advance {s : ParserState} (h : s.Leads)
    (hHere : s.window.here = .identifier) (hNext : s.window.next ≠ .symbol .dot) :
    s.advance.Leads := by
  have hOpen : s.stream.atEnd = false := by
    rw [Bool.eq_false_iff, ne_eq, s.atEnd_iff, ← s.window_here, hHere]
    exact nofun
  obtain ⟨ts, hRest⟩ := TokenStream.rest_of_not_atEnd hOpen
  have hPasses := TokenStream.passes_advance hOpen
  have hRest' : s.advance.stream.rest = ts := by
    have := hPasses.rest
    rw [hRest] at this
    exact (List.cons.inj this).2.symm
  have hKinds : s.kindsAhead = s.current.kind :: s.advance.kindsAhead := by
    rw [ParserState.kindsAhead, hRest, ParserState.kindsAhead, hRest', ← hPasses.last]
    rfl
  have hCurrent : s.advance.current.kind = s.window.next := by
    have hWindow : s.window.next = (s.stream.rest[1]?.getD s.stream.last).kind := rfl
    rw [hWindow, hRest, ← hPasses.last, ParserState.current, TokenStream.current, hRest']
    cases ts <;> rfl
  have hGo : Grammar.leadsToFunction.go s.advance.kindsAhead = true := by
    have := h.2
    rw [hKinds, ← s.window_here, hHere] at this
    simpa [Grammar.leadsToFunction.go, TokenKind.isWord] using this
  refine ⟨?_, hGo⟩
  cases hAhead : s.advance.kindsAhead with
  | nil => simp [hAhead, Grammar.leadsToFunction.go] at hGo
  | cons k ks =>
    have hHead : s.advance.current.kind = k := by
      rw [ParserState.kindsAhead, hRest'] at hAhead
      rw [ParserState.current, TokenStream.current, hRest']
      cases ts <;> simpa using (List.cons.inj hAhead).1
    rw [hAhead, ← hHead, hCurrent] at hGo
    rw [hCurrent]
    by_cases hFunction : s.window.next = .keyword .function
    · rw [hFunction]
      rfl
    · simp only [Grammar.leadsToFunction.go, beq_eq_false_iff_ne.2 hFunction,
        beq_eq_false_iff_ne.2 hNext, Bool.false_or, Bool.or_false, Bool.and_eq_true] at hGo
      exact hGo.1

theorem run_modifiers (steps : Nat) :
    ∀ {σ f s parts s'}, run steps σ .modifiers f s = .parsed parts s' → s.Leads → s'.Leads := by
  induction steps with
  | zero =>
    intro σ f s parts s' h _
    cases h
  | succ steps ih =>
    intro σ f s parts s' h hLeads
    simp only [run, Goal.production, Grammar.modifierWords, Production.exec] at h
    split at h
    next hHere =>
      simp only [Production.exec] at h
      split at h
      · exact ih h (hLeads.advance hHere.1 hHere.2)
      · cases h
        exact hLeads
    next =>
      cases h
      exact hLeads

/-- At an opening brace a statement is a block, which takes the brace. -/
theorem run_statement_moves {steps : Nat} {σ : Setting} {f : Frame} {s s' : ParserState}
    {parts : List Tree} (h : run steps σ .statement f s = .parsed parts s')
    (hBrace : s.current.kind = .symbol .lBrace) : s'.stream.pos ≠ s.stream.pos := by
  cases steps with
  | zero => cases h
  | succ steps =>
    simp only [run, Goal.production, Grammar.statement, Grammar.block, Production.exec,
      ParserState.window_here, hBrace, if_true] at h
    split at h
    next mid s₁ hParsed =>
      cases h
      obtain ⟨ls, hAdds⟩ := exec_adds (run_adds steps)
        (.parse (.statements [.symbol .rBrace]) <| .expect (.symbol .rBrace) .done) _ _ _ _ _ hParsed
      have hStep := ParserState.passes_advance (s := s) (by rw [hBrace]; rintro ⟨⟩)
      have hMoved := (hStep.trans hAdds.passes).pos_eq
      rw [hMoved, List.length_append, List.length_singleton]
      omega
    next hNot => exact absurd h (hNot _ _)

/-- If all goals pass the check, every goal shows what it should. -/
theorem run_shows {R : List Mark → Prop} (hR : R []) (hGoals : ∀ goal : Goal, goal.Passes R)
    (steps : Nat) : Shown R (run steps) := by
  refine ⟨run_adds steps, ?_, run_modifiers steps, run_statement_moves⟩
  induction steps with
  | zero =>
    intro σ goal f s parts s' _ _ _ h
    cases h
  | succ steps ih =>
    intro σ goal f s parts s' hViewed hTyped hFollows h
    have hRun : Shown R (run steps) := ⟨run_adds steps, ih, run_modifiers steps, run_statement_moves⟩
    by_cases hIs : goal.isTyped = true
    · have hNil := hTyped hIs
      rw [hNil]
      have hMade : (∀ t ∈ parts, t.Marked R) ∧ Tree.marks parts = [] := by
        cases goal <;> simp [Goal.isTyped] at hIs
        · exact exec_typed hR hRun (fun _ hWord => hWord) hViewed.start hNil h
        · exact exec_typed hR hRun (fun _ hBoth => hBoth.1) hViewed.start hNil h
      refine ⟨hMade.1, [], by rw [hMade.2]; rfl, ?_⟩
      cases goal <;> simp [Goal.isTyped] at hIs <;> rfl
    · exact exec_shows hR hRun goal.production hViewed
        (hGoals goal (Bool.eq_false_iff.2 hIs) _ hFollows) h

end CfScript
