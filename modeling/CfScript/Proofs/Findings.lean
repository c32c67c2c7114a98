import CfScript.Proofs.SourceAccount

/-!
# Where findings stand

Every finding about a source stands at a token of it: it has the span and the line of the token. The
scanner's findings come first, then those of the parser, then those of the build; and the parser finds
things from left to right, since it never goes back behind a finding that it keeps.

## Main results

* `risen_laws`: a run finds things between the tokens that it begins and ends at;
* `exec_blames`, `run_blames`: a run that bails stands at the token it blames;
* `standsAt_run`: what a build finds stands at a token;
* `ofSource_findings`: where the findings about a source stand, and in which order they come.
-/

namespace CfScript

/-! ## Tokens in order -/

/-- Whether the finding stands at the token. -/
def Diagnostic.StandsAt (d : Diagnostic) (t : Token) : Prop := d.span = t.span ∧ d.line = t.line

/-- The byte at which a finding stands. -/
def Diagnostic.start (d : Diagnostic) : Nat := d.span.start.toNat

/-- Whether the tokens of the stream stand in order. -/
def TokenStream.Rising (s : TokenStream) : Prop :=
  s.tokens.Pairwise fun a b => a.span.start.toNat ≤ b.span.start.toNat

/-- Passing tokens of a stream whose tokens stand in order leads to later ones. -/
theorem TokenStream.Passes.start_le {s t : TokenStream} {ts : List Token} (h : s.Passes ts t)
    (hRising : s.Rising) : s.current.span.start.toNat ≤ t.current.span.start.toNat := by
  cases ts with
  | nil => rw [h.eq_of_nil]
  | cons u us =>
    have hCurrent : s.current = u := by rw [current, h.rest, List.cons_append, List.head?_cons]; rfl
    have hTokens : s.tokens = s.before.reverse ++ u :: (us ++ (t.rest ++ [t.last])) := by
      simp [tokens, body, h.rest, h.last]
    rw [Rising, hTokens] at hRising
    have hAfter := (List.pairwise_cons.1 (List.pairwise_append.1 hRising).2.1).1
    rw [hCurrent]
    refine hAfter _ (List.mem_append_right _ ?_)
    cases hRest : t.rest <;> simp [current, hRest]

/-- From `s` to `s'` a run adds findings that stand at tokens between the two cursors, in order. -/
def Risen (s s' : ParserState) : Prop :=
  (∃ ts, s.stream.Passes ts s'.stream) ∧ ∃ ds, s'.findings = s.findings.append ds ∧
    (∀ d ∈ ds, ∃ t ∈ s.stream.tokens, d.StandsAt t) ∧
    (s.stream.Rising → ds.Pairwise (·.start ≤ ·.start) ∧
      ∀ d ∈ ds, s.current.span.start.toNat ≤ d.start ∧ d.start ≤ s'.current.span.start.toNat)

namespace Risen

variable {s s' s'' : ParserState}

theorem quiet {ts : List Token} (hPasses : s.stream.Passes ts s'.stream)
    (hFindings : s'.findings = s.findings) : Risen s s' :=
  ⟨⟨ts, hPasses⟩, [], by simp [hFindings, Log.append], List.forall_mem_nil _,
    fun _ => ⟨.nil, List.forall_mem_nil _⟩⟩

theorem trans (h : Risen s s') (h' : Risen s' s'') : Risen s s'' := by
  obtain ⟨⟨ts, hPasses⟩, ds, hDs, hTokens, hOrder⟩ := h
  obtain ⟨⟨us, hPasses'⟩, es, hEs, hTokens', hOrder'⟩ := h'
  have hSame := hPasses.tokens_eq
  refine ⟨⟨_, hPasses.trans hPasses'⟩, ds ++ es, by rw [hEs, hDs, Log.append_append],
    List.forall_mem_append.2 ⟨hTokens, hSame ▸ hTokens'⟩, fun hRising => ?_⟩
  have hRising' : s'.stream.Rising := by rwa [TokenStream.Rising, hSame]
  obtain ⟨hSorted, hBetween⟩ := hOrder hRising
  obtain ⟨hSorted', hBetween'⟩ := hOrder' hRising'
  have hLeft : s.current.span.start.toNat ≤ s'.current.span.start.toNat := hPasses.start_le hRising
  have hRight : s'.current.span.start.toNat ≤ s''.current.span.start.toNat :=
    hPasses'.start_le hRising'
  refine ⟨List.pairwise_append.2 ⟨hSorted, hSorted', fun d hd e he => ?_⟩,
    List.forall_mem_append.2 ⟨fun d hd => ?_, fun d hd => ?_⟩⟩
  · exact (hBetween d hd).2.trans (hBetween' e he).1
  · exact ⟨(hBetween d hd).1, (hBetween d hd).2.trans hRight⟩
  · exact ⟨hLeft.trans (hBetween' d hd).1, (hBetween' d hd).2⟩

/-- A fault is found at the current token. -/
theorem report (s : ParserState) (fault : Fault) : Risen s (s.report fault) := by
  refine ⟨⟨[], .refl _⟩, [fault.diagnostic s.current], rfl, List.forall_mem_singleton.2 ?_,
    fun _ => ⟨List.pairwise_singleton .., List.forall_mem_singleton.2 ⟨Nat.le_refl _, Nat.le_refl _⟩⟩⟩
  exact ⟨s.current, s.stream.current_mem_tokens, rfl, rfl⟩

theorem advance (s : ParserState) : Risen s s.advance := by
  by_cases hEnd : s.stream.atEnd = true
  · have hSame : s.advance = s := by
      rw [ParserState.advance, TokenStream.advance_of_atEnd hEnd]
    rw [hSame]
    exact quiet (.refl _) rfl
  · exact quiet (TokenStream.passes_advance (Bool.eq_false_iff.2 hEnd)) rfl

end Risen

/-- What a run finds stands between the tokens that it begins and ends at. -/
theorem risen_laws : RunLaws fun _ _ s _ s' => Risen s s' where
  refl _ _ s := .quiet (.refl s.stream) rfl
  trans := .trans
  take _ _ s := .advance s
  assume _ s _ fault _ := .report s fault
  reject _ s fault _ := (Risen.report s fault).trans (.advance (s.report fault))
  skip _ s _ := .advance s
  recover σ ps s := .quiet (Adds.recover σ ps s).passes rfl
  close _ _ s _ := .quiet (.refl s.stream) rfl
  child _ h := h
  node _ _ h := h
  undo _ h hPos := by
    obtain ⟨⟨ts, hPasses⟩, ds, hDs, -⟩ := h
    refine .quiet hPasses ?_
    rw [hDs, Log.truncate_length_append]

/-! ## Bails -/

/-- Whether a run that bails stands at the token it blames. -/
def Outcome.Blames : Outcome → Prop
  | .bailed bail s => bail.token = s.current
  | _ => True

/-- A production that bails stands at the token it blames, if that holds of all that it calls. -/
theorem exec_blames {call : Setting → Goal → Frame → ParserState → Outcome}
    (hCall : ∀ σ goal f s, (call σ goal f s).Blames) (p : Production) :
    ∀ σ f s, (p.exec call σ f s).Blames := by
  induction p with
  | done => exact fun _ _ _ => trivial
  | take next ih => exact fun σ f s => ih σ _ _
  | expect kind next ih =>
    intro σ f s
    unfold Production.exec
    split
    · exact ih σ _ _
    · split
      · rfl
      · exact ih σ _ _
  | word next ih =>
    intro σ f s
    unfold Production.exec
    split
    · exact ih σ _ _
    · split
      · rfl
      · exact ih σ _ _
  | assume fault next ih =>
    intro σ f s
    unfold Production.exec
    split
    · rfl
    · exact ih σ _ _
  | reject fault next ih =>
    intro σ f s
    unfold Production.exec
    split
    · rfl
    · exact ih σ _ _
  | skip next ih =>
    intro σ f s
    unfold Production.exec
    split
    · rfl
    · exact ih σ _ _
  | recover next ih => exact fun σ f s => ih σ _ _
  | parse goal next ih =>
    intro σ f s
    have hGoal := hCall σ goal (.start s) s
    unfold Production.exec
    split
    · exact ih σ _ _
    · exact hGoal
  | node rule inner next ihInner ih =>
    intro σ f s
    have hInner := ihInner σ (.start s) s
    unfold Production.exec
    split
    · exact ih σ _ _
    · exact hInner
  | close rule next ih => exact fun σ f s => ih σ _ _
  | again goal => exact fun σ f s => hCall σ goal f s
  | progress goal stuck next ihStuck ih =>
    intro σ f s
    have hGoal := hCall σ goal (.start s) s
    unfold Production.exec
    split
    · split
      · exact ihStuck σ _ _
      · exact ih σ _ _
    · exact hGoal
  | look choose ih => exact fun σ f s => ih _ σ f s
  | spell choose ih => exact fun σ f s => ih _ σ f s
  | scan decision test yes no ihYes ihNo =>
    intro σ f s
    unfold Production.exec
    split
    · rfl
    · exact ihNo σ f s
    · split
      · exact ihYes σ f s
      · exact ihNo σ f s
  | trial decision attempt follow yes no ihAttempt ihYes ihNo =>
    intro σ f s
    unfold Production.exec
    split
    · rfl
    · split
      · trivial
      · exact ihNo σ f s
      · split
        · exact ihYes σ f s
        · exact ihNo σ f s
  | single yes no ihYes ihNo =>
    intro σ f s
    unfold Production.exec
    split
    · exact ihYes σ f s
    · exact ihNo σ f s
  | troubled yes no ihYes ihNo =>
    intro σ f s
    unfold Production.exec
    split
    · exact ihYes σ f s
    · exact ihNo σ f s

theorem run_blames (steps : Nat) : ∀ σ goal f s, (run steps σ goal f s).Blames := by
  induction steps with
  | zero => exact fun _ _ _ _ => trivial
  | succ steps ih => exact fun σ goal f s => exec_blames ih goal.production σ f s

/-- A parse that bails blames a token of its stream. -/
theorem Parser.token_of_parse {p q : Parser} {entry : Entry} {bail : Bail}
    (h : p.parse entry = (.error bail, q)) : bail.token ∈ p.stream.tokens := by
  have hTokens := stream_tokens_run (enough ⟨p.stream, p.findings⟩) ⟨p.prediction, false⟩ entry.goal
    (.start ⟨p.stream, p.findings⟩) ⟨p.stream, p.findings⟩
  have hBlames := run_blames (enough ⟨p.stream, p.findings⟩) ⟨p.prediction, false⟩ entry.goal
    (.start ⟨p.stream, p.findings⟩) ⟨p.stream, p.findings⟩
  simp only [parse, parseGoal] at h
  split at h
  · cases h
  next other s hBailed =>
    obtain rfl : other = bail := by cases h; rfl
    rw [hBailed] at hTokens hBlames
    have hSame : s.stream.tokens = p.stream.tokens := hTokens
    have hToken : other.token = s.stream.current := hBlames
    exact hSame ▸ hToken ▸ s.stream.current_mem_tokens
  · cases h
    exact p.stream.current_mem_tokens

/-! ## Findings of a build -/

/-- A root of skipped tokens has the form of its rule, unless it should be an expression and there is
no token. -/
theorem wellFormed_skipped {entry : Entry} {ts : List Token} {last : Token} (hLast : last.isEnd = true)
    (h : entry = .script ∨ ts ≠ []) :
    (Tree.node entry.rule (ts.map .skipped ++ [.token last])).WellFormed := by
  have hEnd : Form.kind .endOfInput .done [.token last] := by
    refine Form.one_cons (.inr ?_) Form.done_nil
    simpa [Token.isEnd] using hLast
  have hSkipped (p : Tree → Bool) (us : List Token) : ∀ u ∈ us.map Tree.skipped, u.Fits p :=
    List.forall_mem_map.2 fun _ _ => .inl rfl
  refine .node ?_ (List.forall_mem_append.2 ⟨List.forall_mem_map.2 fun t _ => .leaf (.skipped t),
    List.forall_mem_singleton.2 (.leaf (.matched last))⟩)
  cases entry with
  | script => exact Form.many_append (hSkipped _ ts) hEnd
  | expression =>
    cases ts with
    | nil => exact absurd rfl (h.resolve_left (by rintro ⟨⟩))
    | cons t ts =>
      exact Form.one_cons (.inl rfl) (Form.many_append (hSkipped _ ts) hEnd)

/-- That the end of the input is no expression is found there. -/
theorem standsAt_blank {last : Token} (hLast : last.isEnd = true) (rules : AttributeRules) :
    ∀ d ∈ (Build.run (.node .standaloneExpression [.token last]) rules).2.entries,
      d.StandsAt last := by
  have hKind : last.kind = .endOfInput := by simpa [Token.isEnd] using hLast
  let e : BuildError := .unexpected "expression" ("'" ++ last.lexeme ++ "'") last.span
  let t : Tree := .node .standaloneExpression [.token last]
  have hExpression : Build.leafExpression (.matched last) = throw e := by
    simp [Build.leafExpression, Build.tokenExpression, hKind, TokenKind.isWord, e]
  have hRun : (Build.run t rules).2 =
      Log.empty.append (e.malformed? .standaloneExpression t).toList := by
    have hRoot : Build.root t = Build.standalone t [Reading.ofTree (.token last)] := rfl
    have hReading : (Reading.ofTree (.token last)).expression = throw e := hExpression
    rw [Build.run, hRoot, Build.standalone, hReading]
    rfl
  intro d hd
  rw [hRun] at hd
  have hFound : e.malformed? .standaloneExpression t = some d := by
    simpa [Log.append, Log.empty] using hd
  have hErrors : t.hasErrors = false := rfl
  have hSpan : (if e.span = .dummy then t.span else e.span) = last.span := by
    by_cases hDummy : last.span = .dummy
    · have hNone : t.span = .dummy := by
        simp [t, Tree.span, Tree.children, Tree.spans, Tree.token, Tree.span?, Leaf.span?, Leaf.token?,
          hLast, Tree.mergeSpans]
      rw [show e.span = last.span from rfl, if_pos hDummy, hNone, hDummy]
    · exact if_neg hDummy
  unfold BuildError.malformed? at hFound
  rw [if_neg (by simp [hErrors])] at hFound
  obtain rfl := Option.some.inj hFound
  exact ⟨hSpan, rfl⟩

/-- What a build of a source finds stands at a token. -/
theorem standsAt_run (source : String) (options : ParseOptions) (rules : AttributeRules) :
    ∀ d ∈ (Build.run (parse source options).tree rules).2.entries,
      (d.phase = .validation ∨ d.phase = .structural) ∧
        ∃ t ∈ Token.tokens source, d.StandsAt t := by
  intro d hd
  obtain ⟨root?, ds, hRun, hPlaces, -⟩ := run_accounts source options rules
  have hWhole := TokenStream.Whole.ofSource source
  have hClosed := parse_closed source options
  rcases hPlaces d (by simpa [hRun] using hd) with hPhase | ⟨hPhase, t, ht, hSpan, hLine, -⟩
  · refine ⟨.inr hPhase, ?_⟩
    have hBroken : ¬ (parse source options).tree.WellFormed := fun hWell =>
      Build.phase_run (Build.quiet_root hWell hClosed (rule?_of_parse source options)) rules d hd
        hPhase
    rcases parseStream_cases options hWhole with ⟨_, q, hParse, -⟩ | ⟨bail, q, -, hSkipped⟩
    · exact absurd (Parser.wellFormed_of_parse hWhole hParse) hBroken
    have hTree : (parse source options).tree =
        .node options.entry.rule ((TokenStream.ofTokens (Token.tokens source)).rest.map .skipped ++
          [.token (TokenStream.ofTokens (Token.tokens source)).last]) := congrArg Prod.fst hSkipped
    have hLast := (TokenStream.ofTokens (Token.tokens source)).last_isEnd
    -- Only an expression of no tokens is left.
    have hBlank :
        ¬ (options.entry = .script ∨ (TokenStream.ofTokens (Token.tokens source)).rest ≠ []) :=
      fun h => hBroken (hTree ▸ wellFormed_skipped hLast h)
    rw [not_or, not_not] at hBlank
    have hEntry : options.entry = .expression := by
      cases h : options.entry with
      | script => exact absurd h hBlank.1
      | expression => rfl
    rw [hTree, hBlank.2, hEntry] at hd
    exact ⟨_, List.mem_of_getLast? (TokenStream.last_ofTokens_tokens source),
      standsAt_blank hLast rules d hd⟩
  · refine ⟨.inl hPhase, t, ?_, hSpan, hLine⟩
    rw [Ground.tokens_ofSource] at ht
    exact (List.mem_filter.1 ht).1

/-! ## Findings about a source -/

/-- To locate a finding leaves it where it stands, since the line index knows the line of the token. -/
theorem Diagnostic.StandsAt.locate {d : Diagnostic} {t : Token} {index : LineIndex} (h : d.StandsAt t)
    (hIndexed : t.line = index.line t.span.start.toNat) (source : String) :
    (d.locate source index).StandsAt t := by
  refine ⟨h.1, ?_⟩
  by_cases hLine : d.line = 0
  · have hLocated : (d.locate source index).line = index.line d.span.start.toNat := if_pos hLine
    rw [hLocated, h.1, hIndexed]
  · rw [locate_line source index hLine, h.2]

/-- What a parser finds in a stream stands at tokens of the stream, in order. -/
theorem parseStream_found {stream : TokenStream} (options : ParseOptions) (hWhole : stream.Whole)
    (hRising : stream.Rising) :
    (parseStream stream options).2.1.entries.Pairwise (·.start ≤ ·.start) ∧
      ∀ d ∈ (parseStream stream options).2.1.entries,
        d.phase = .parser ∧ ∃ t ∈ stream.tokens, d.StandsAt t := by
  have hPhase := parseStream_ofPhase options hWhole
  rcases parseStream_cases options hWhole with ⟨_, q, hParse, hFound⟩ | ⟨bail, q, hBail, hSkipped⟩
  · obtain ⟨parts, -, -, hParsed⟩ := Parser.parse_eq_ok_iff.1 hParse
    obtain ⟨-, ds, hDs, hTokens, hOrder⟩ := risen_laws.run _ _ _ _ _ _ _ hParsed
    have hEntries : (parseStream stream options).2.1.entries = ds := by
      rw [hFound]
      exact congrArg Log.entries hDs
    exact hEntries ▸ ⟨(hOrder hRising).1, fun d hd => ⟨hPhase d (hEntries ▸ hd), hTokens d hd⟩⟩
  · have hEntries : (parseStream stream options).2.1.entries = [bail.diagnostic] := by
      rw [hSkipped]
      rfl
    rw [hEntries]
    refine ⟨List.pairwise_singleton .., List.forall_mem_singleton.2 ⟨rfl, bail.token, ?_, rfl, rfl⟩⟩
    exact Parser.token_of_parse hBail

/-- A finding of the scanner stands at the token that it is about. -/
theorem Token.standsAt_of_mem_complaints {ts : List Token} {d : Diagnostic} (h : d ∈ complaints ts) :
    ∃ t ∈ ts, d.StandsAt t := by
  obtain ⟨t, ht, hFound⟩ := List.mem_filterMap.1 h
  unfold complaint? at hFound
  split at hFound
  · cases hFound
    exact ⟨t, ht, rfl, rfl⟩
  · cases hFound

/-- The tokens that the parser sees of a source stand in order. -/
theorem TokenStream.rising_ofSource {source : String} (hSize : Text.byteLength source.toList < 2 ^ 32) :
    (ofTokens (Token.tokens source)).Rising := by
  obtain ⟨body, last, hScan, hLast, -⟩ := Token.scan_split source.toList 0 1
  have hTokens : Token.tokens source = body ++ [last] := hScan
  obtain ⟨hBefore, hRest, hEnd⟩ := ofTokens_append_end hLast
  have hSublist : (ofTokens (Token.tokens source)).tokens.Sublist (Token.tokens source) := by
    rw [hTokens, tokens, TokenStream.body, hBefore, hRest, hEnd]
    simp
  refine (Token.lossless_tokens hSize).ordered.imp (fun {a b} h => ?_) |>.sublist hSublist
  exact Nat.le_trans a.span.start_le_stop h

/-- Every finding about a source of less than `2 ^ 32` bytes stands at a token, at the line of the
token. The scanner's findings come first, then those of the parser, from left to right, then those of
the build. -/
theorem ofSource_findings {source : String} (options : ParseOptions) (rules : AttributeRules)
    (hSize : Text.byteLength source.toList < 2 ^ 32) :
    (∃ lexed parsed built,
      (Script.ofSource source options rules).findings.entries = lexed ++ parsed ++ built ∧
      (∀ d ∈ lexed, d.phase = .lexer) ∧ (∀ d ∈ parsed, d.phase = .parser) ∧
      (∀ d ∈ built, d.phase = .validation ∨ d.phase = .structural) ∧
      parsed.Pairwise fun a b => a.span.start.toNat ≤ b.span.start.toNat) ∧
    ∀ d ∈ (Script.ofSource source options rules).findings.entries,
      (∃ t ∈ Token.tokens source, d.span = t.span) ∧
        ∃ front, Text.takeBytes d.span.start.toNat source.toList = some front ∧
          d.line = 1 + UInt32.ofNat (front.count '\n') ∧
            (front.count '\n' + 1 < 2 ^ 32 → d.line.toNat = 1 + front.count '\n') := by
  have hLossless := Token.lossless_tokens hSize
  obtain ⟨hSorted, hFound⟩ := parseStream_found options (TokenStream.Whole.ofSource source)
    (TokenStream.rising_ofSource hSize)
  let lexed := Token.complaints (Token.tokens source)
  let parsed := (parseStream (.ofTokens (Token.tokens source)) options).2.1.entries
  let built := (Build.run (parse source options).tree rules).2.entries
  let locate (d : Diagnostic) := d.locate source (.ofText source)
  have hEntries : (Script.ofSource source options rules).findings.entries =
      lexed.map (locate ∘ locate) ++ parsed.map (locate ∘ locate) ++ built.map locate := by
    rw [Script.findings_ofSource, parse_findings]
    simp [Log.locate, Log.append, lexed, parsed, built, locate, Function.comp_def]
  have hOnce {d : Diagnostic} (h : ∃ t ∈ Token.tokens source, d.StandsAt t) :
      ∃ t ∈ Token.tokens source, (locate d).StandsAt t := by
    obtain ⟨t, ht, hStands⟩ := h
    exact ⟨t, ht, hStands.locate (hLossless.indexed t ht) _⟩
  have hStands : ∀ d ∈ (Script.ofSource source options rules).findings.entries,
      ∃ t ∈ Token.tokens source, d.StandsAt t := by
    rw [hEntries]
    refine List.forall_mem_append.2 ⟨List.forall_mem_append.2 ⟨?_, ?_⟩, ?_⟩
    · exact List.forall_mem_map.2 fun d hd => hOnce (hOnce (Token.standsAt_of_mem_complaints hd))
    · refine List.forall_mem_map.2 fun d hd => hOnce (hOnce ?_)
      obtain ⟨-, t, ht, hAt⟩ := hFound d hd
      exact ⟨t, TokenStream.mem_ofTokens_tokens ht, hAt⟩
    · exact List.forall_mem_map.2 fun d hd => hOnce (standsAt_run source options rules d hd).2
  refine ⟨⟨_, _, _, hEntries, ?_, ?_, ?_, ?_⟩, fun d hd => ?_⟩
  · refine List.forall_mem_map.2 fun d hd => ?_
    have hPhase : d.phase = .lexer := Token.phase_of_mem_complaints hd
    exact hPhase
  · exact List.forall_mem_map.2 fun d hd => (hFound d hd).1
  · exact List.forall_mem_map.2 fun d hd => (standsAt_run source options rules d hd).1
  · exact List.pairwise_map.2 hSorted
  · obtain ⟨t, ht, hSpan, hAt⟩ := hStands d hd
    obtain ⟨front, hFront, hCount⟩ := hLossless.lines t ht
    exact ⟨⟨t, ht, hSpan⟩, front, hSpan ▸ hFront, hAt ▸ hCount⟩

/-- A token that the scanner refuses, two missing operands and an unknown attribute. -/
theorem ofSource_findings_phases :
    let source := "# ;\nx = ;\ny = );\nlock a=1 {}"
    let findings := (Script.ofSource source {} {}).findings.entries
    Text.byteLength source.toList < 2 ^ 32 ∧
      findings.map (fun d => (d.phase, d.line)) =
        [(.lexer, 1), (.parser, 2), (.parser, 3), (.validation, 4)] ∧
      (∃ lexed parsed built, findings = lexed ++ parsed ++ built ∧
        (∀ d ∈ lexed, d.phase = .lexer) ∧ (∀ d ∈ parsed, d.phase = .parser) ∧
        (∀ d ∈ built, d.phase = .validation ∨ d.phase = .structural) ∧
        parsed.Pairwise fun a b => a.span.start.toNat ≤ b.span.start.toNat) ∧
      ∀ d ∈ findings, (∃ t ∈ Token.tokens source, d.span = t.span) ∧
        ∃ front, Text.takeBytes d.span.start.toNat source.toList = some front ∧
          d.line = 1 + UInt32.ofNat (front.count '\n') ∧
            (front.count '\n' + 1 < 2 ^ 32 → d.line.toNat = 1 + front.count '\n') := by
  intro source findings
  have hSize : Text.byteLength source.toList < 2 ^ 32 := by decide +kernel
  exact ⟨hSize, by decide +kernel, ofSource_findings {} {} hSize⟩

end CfScript
