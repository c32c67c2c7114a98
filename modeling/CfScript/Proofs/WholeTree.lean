import CfScript.Proofs.Blame
import CfScript.Proofs.BuiltStatements
import CfScript.Proofs.GrammarYield

/-!
# Trees of sources

Every tree that a parse gives has nodes of the forms of their rules, and its strings are closed, since
the scanner makes no string of a text without a second quote. So whatever part of it is free of errors
is built. And whatever is found on the way is found by the scanner or by the parser.

Only a parse that may do nothing but predict fast can fail to give a tree. It then skips all tokens,
and of none it makes an expression without a part.

## Main results

* `Tree.WellFormed.built`: a well-formed tree without errors is built;
* `Token.isClosed_of_mem_tokens`: the strings of a source are closed;
* `parseStream_parsed`: where the tree of a stream comes from;
* `parse_wellFormed`, `parse_closed`: the tree of a source;
* `parse_phase`: no finding of a parse is about the structure of the tree;
* `parse_clean`: a source without errors has a well-formed tree without errors.
-/

namespace CfScript

/-! ## Well-formed trees -/

namespace Tree

/-- Whether the strings in the tree are closed. -/
def Closed (t : Tree) : Prop := ∀ u, .matched u ∈ t.leaves → u.isClosed

theorem mem_leavesAll {l : Leaf} {ts : List Tree} :
    l ∈ leavesAll ts ↔ ∃ t ∈ ts, l ∈ t.leaves := by
  induction ts with
  | nil => simp [leavesAll]
  | cons t ts ih => simp [leavesAll, ih]

theorem Closed.child {rule : Rule} {cs : List Tree} (h : (node rule cs).Closed) :
    ∀ c ∈ cs, c.Closed := by
  intro c hc u hu
  exact h u (mem_leavesAll.2 ⟨c, hc, hu⟩)

/-- A well-formed tree without errors is built, from the leaves upwards. -/
theorem WellFormed.built {t : Tree} (h : t.WellFormed) (hErrors : t.hasErrors = false)
    (hClosed : t.Closed) : t.Built := by
  induction h with
  | leaf l =>
    cases l with
    | matched u => exact .token (hClosed u (by simp [leaves]))
    | skipped u => cases hErrors
    | assumed what => cases hErrors
  | @node rule cs hForm _ ih =>
    have hBuilt : ∀ c ∈ cs, c.Built := fun c hc =>
      ih c hc (hasErrorsAny_eq_false_iff.1 hErrors c hc) (hClosed.child c hc)
    exact .node hForm hBuilt (buildsStatement_node ⟨hForm, hBuilt⟩)
      (buildsExpression_node ⟨hForm, hBuilt⟩)

theorem WellFormed.child {rule : Rule} {cs : List Tree} (h : (Tree.node rule cs).WellFormed) :
    ∀ c ∈ cs, c.WellFormed := by
  cases h with
  | node _ hAll => exact hAll

/-- What holds of a tree and passes on to children holds of all parts of the tree. -/
theorem part?_of_child {P : Tree → Prop} (hChild : ∀ rule cs, P (node rule cs) → ∀ c ∈ cs, P c)
    {t part : Tree} {path : List Nat} (ht : P t) (hPart : t.part? path = some part) : P part := by
  induction path generalizing t with
  | nil => exact Option.some.inj hPart ▸ ht
  | cons i path ih =>
    obtain ⟨c, hc, hNext⟩ := Option.bind_eq_some_iff.1 hPart
    cases t with
    | leaf l => simp [children] at hc
    | node rule cs => exact ih (hChild rule cs ht c (List.mem_of_getElem? hc)) hNext

end Tree

/-! ## Strings of a source -/

namespace Scan

theorem word_ne_string (c : Char) (cs : List Char) : (word c cs).1 ≠ .string := by
  unfold word
  dsimp only
  split <;> simp

theorem number_ne_string (cs : List Char) : (number cs).1 ≠ .string := by
  unfold number
  dsimp only
  split <;> simp

theorem blockComment_ne_string (cs : List Char) : (blockComment cs).1 ≠ .string := by
  unfold blockComment
  split <;> simp

theorem symbol_ne_string (c : Char) (cs : List Char) : (symbol c cs).1 ≠ .string := by
  unfold symbol
  split <;> simp

/-- Only a text between two quotes is a string, and its own quotes come in pairs. -/
theorem lexeme_string {c : Char} {cs : List Char} (h : (lexeme c cs).1 = .string) :
    ∃ (quote : Quote) (body : List Char), c = quote.char ∧
      cs.take (lexeme c cs).2 = body ++ [quote.char] ∧ Text.paired quote.char body = true := by
  unfold lexeme at h ⊢
  split at h
  next => exact absurd h (word_ne_string c cs)
  next hWord =>
  split at h
  next => exact absurd h (number_ne_string cs)
  next hDigit =>
  split at h
  next hQuote =>
    rw [if_neg hWord, if_neg hDigit, if_pos hQuote]
    unfold quoted at h ⊢
    split at h
    next length hClosing =>
      obtain ⟨body, rest, rfl, rfl, hPaired, -⟩ := closingQuote_eq_some_iff.1 hClosing
      have hTake : (body ++ c :: rest).take (body.length + 1) = body ++ [c] := by
        simp [List.take_append]
      rcases hQuote with rfl | rfl
      · exact ⟨.double, body, rfl, hTake, hPaired⟩
      · exact ⟨.single, body, rfl, hTake, hPaired⟩
    next => cases h
  next =>
  split at h
  next => cases h
  next =>
  split at h
  next => exact absurd h (blockComment_ne_string cs)
  next => exact absurd h (symbol_ne_string c cs)

end Scan

namespace Token

/-- Whether the token, if it is a string, is a text between two quotes with its own quotes in
pairs. -/
def IsQuoted (t : Token) : Prop :=
  t.kind = .string → ∃ (quote : Quote) (body : List Char),
    t.lexeme.toList = quote.char :: (body ++ [quote.char]) ∧ Text.paired quote.char body = true

theorem isQuoted_of_mem_tokens {source : String} {t : Token} (h : t ∈ tokens source) :
    t.IsQuoted := by
  refine forall_mem_scan (fun _ _ => nofun) (fun c cs start line _ hKind => ?_) source.toList 0 1 t h
  obtain ⟨quote, body, rfl, hBody, hPaired⟩ :=
    Scan.lexeme_string (show (Scan.lexeme c cs).1 = .string from hKind)
  exact ⟨quote, body, by simp [ofLexeme, hBody], hPaired⟩

theorem quoteOf_quoted (quote : Quote) (body : List Char) :
    Build.quoteOf (quote.char :: (body ++ [quote.char])) = quote := by
  cases quote <;> rfl

/-- The strings of a source are closed. -/
theorem isClosed_of_mem_tokens {source : String} {t : Token} (h : t ∈ tokens source) :
    t.isClosed := by
  intro hKind
  obtain ⟨quote, body, hLexeme, -⟩ := isQuoted_of_mem_tokens h hKind
  rw [hLexeme, quoteOf_quoted, Build.stringText_quoted]
  rfl

end Token

/-! ## Where a finding comes from -/

/-- Whether all findings come from one phase. -/
def Log.OfPhase (phase : Phase) (log : Log) : Prop := ∀ d ∈ log.entries, d.phase = phase

theorem Log.OfPhase.push {phase : Phase} {log : Log} {d : Diagnostic} (h : log.OfPhase phase)
    (hd : d.phase = phase) : (log.push d).OfPhase phase := by
  intro e he
  rcases List.mem_append.1 he with he | he
  · exact h e he
  · rwa [List.mem_singleton.1 he]

/-- The parser adds its own findings only. -/
theorem ofParser_laws :
    RunLaws fun _ _ s _ s' => s.findings.OfPhase .parser → s'.findings.OfPhase .parser where
  refl _ _ _ := id
  trans h h' := h' ∘ h
  take _ _ _ := id
  assume _ _ _ _ _ h := h.push rfl
  reject _ _ _ _ h := h.push rfl
  skip _ _ _ := id
  recover _ _ _ := id
  close _ _ _ _ := id
  child _ h := h
  node _ _ h := h
  undo _ h _ hs := fun d hd => h hs d (List.mem_of_mem_take hd)

theorem Token.phase_of_mem_complaints {tokens : List Token} {d : Diagnostic}
    (h : d ∈ complaints tokens) : d.phase = .lexer := by
  obtain ⟨t, -, ht⟩ := List.mem_filterMap.1 h
  unfold complaint? at ht
  split at ht
  · cases ht
    rfl
  · cases ht

/-- To locate findings does not change where they come from. -/
theorem Log.phase_of_mem_locate {log : Log} {source : String} {d : Diagnostic}
    (h : d ∈ (log.locate source).entries) : ∃ e ∈ log.entries, d.phase = e.phase := by
  obtain ⟨e, he, rfl⟩ := List.mem_map.1 h
  exact ⟨e, he, rfl⟩

@[simp] theorem Log.hasErrors_locate (log : Log) (source : String) :
    (log.locate source).hasErrors = log.hasErrors := by
  simp only [hasErrors, locate, List.any_map]
  rfl

/-! ## Parses of a stream -/

namespace Parser

variable {stream : TokenStream} {prediction : Prediction} {entry : Entry} {tree : Tree} {q : Parser}

/-- A tree that a parser gives of a whole stream is well-formed. -/
theorem wellFormed_of_parse (hWhole : stream.Whole)
    (h : (new stream prediction).parse entry = (.ok tree, q)) : tree.WellFormed := by
  obtain ⟨parts, rfl, -, hParsed⟩ := parse_eq_ok_iff.1 h
  have hStands : Stands {} [] ⟨stream, .empty⟩ := ⟨hWhole.ends, Sight.holds_blank _, nofun⟩
  have hBegins : entry.goal.Begins [] := by cases entry <;> exact .inr rfl
  obtain ⟨hParts, hGives⟩ := (run_makes _).makes hStands hBegins hParsed
  refine .node ?_ hParts
  have hForm := Goal.form_of_gives hGives
  cases entry <;> exact hForm

/-- A parser finds nothing but what is wrong for it. -/
theorem ofPhase_of_parse (h : (new stream prediction).parse entry = (.ok tree, q)) :
    q.findings.OfPhase .parser := by
  obtain ⟨parts, -, -, hParsed⟩ := parse_eq_ok_iff.1 h
  exact ofParser_laws.run _ _ _ _ _ _ _ hParsed (List.forall_mem_nil _)

end Parser

/-- The tree of a stream is what a parser gives with one of the predictions, unless fast prediction
alone is allowed and bails. -/
theorem parseStream_parsed {stream : TokenStream} (options : ParseOptions) (hWhole : stream.Whole) :
    (∃ prediction q,
        (Parser.new stream prediction).parse options.entry =
          (.ok (parseStream stream options).1, q) ∧
        (parseStream stream options).2.1 = q.findings) ∨
      options.strategy = .fastOnly ∧
        ∃ bail : Bail, (parseStream stream options).2.1 = Log.empty.push bail.diagnostic := by
  obtain ⟨entry, strategy⟩ := options
  have hGeneral : ∃ q,
      (Parser.new stream .general).parse entry =
          (.ok (parseStream stream ⟨entry, .generalOnly⟩).1, q) ∧
        (parseStream stream ⟨entry, .generalOnly⟩).2.1 = q.findings := by
    obtain ⟨tree, q, hParse, -⟩ := (Parser.new stream .general).parse_lenient entry rfl
    refine ⟨q, ?_, ?_⟩ <;> simp only [parseStream, Parser.parseOrSkip, hParse]
  cases strategy with
  | generalOnly => exact .inl ⟨.general, hGeneral⟩
  | fastOnly =>
    cases hParse : (Parser.new stream .fast).parse entry with
    | mk result q =>
      cases result with
      | ok tree =>
        refine .inl ⟨.fast, q, ?_, ?_⟩ <;> simp only [parseStream, Parser.parseOrSkip, hParse]
      | error bail =>
        refine .inr ⟨rfl, bail, ?_⟩
        simp only [parseStream, Parser.parseOrSkip, hParse, Parser.abandon]
  | adaptive =>
    cases hParse : (Parser.new stream .fast).parse entry with
    | mk result q =>
      cases result with
      | ok tree =>
        refine .inl ⟨.fast, q, ?_, ?_⟩ <;> simp only [parseStream, hParse]
      | error bail =>
        rw [parseStream_adaptive_of_bailed hWhole.rewind_eq hParse]
        exact .inl ⟨.general, hGeneral⟩

/-- A parse that may only predict fast and bails gives a tree in which every token is skipped. -/
theorem parseStream_fastOnly {stream : TokenStream} {entry : Entry} {bail : Bail} {q : Parser}
    (hWhole : stream.Whole) (h : (Parser.new stream .fast).parse entry = (.error bail, q)) :
    parseStream stream ⟨entry, .fastOnly⟩ =
      (.node entry.rule (stream.rest.map .skipped ++ [.token stream.last]),
        Log.empty.push bail.diagnostic, .fast) := by
  have hTokens := (Parser.new stream .fast).stream_tokens_parse entry
  rw [h] at hTokens
  simp only [parseStream, Parser.parseOrSkip, h, Parser.skippedTree_eq entry hWhole hTokens,
    Parser.abandon]

/-- The tree of a stream is what a parser gives, or all tokens are skipped because fast prediction
bailed. -/
theorem parseStream_cases {stream : TokenStream} (options : ParseOptions) (hWhole : stream.Whole) :
    (∃ prediction q,
        (Parser.new stream prediction).parse options.entry =
          (.ok (parseStream stream options).1, q) ∧
        (parseStream stream options).2.1 = q.findings) ∨
      ∃ bail q, (Parser.new stream .fast).parse options.entry = (.error bail, q) ∧
        parseStream stream options =
          (.node options.entry.rule (stream.rest.map .skipped ++ [.token stream.last]),
            Log.empty.push bail.diagnostic, .fast) := by
  rcases parseStream_parsed options hWhole with hParsed | ⟨hFast, -⟩
  · exact .inl hParsed
  obtain ⟨entry, strategy⟩ := options
  cases hFast
  cases hParse : (Parser.new stream .fast).parse entry with
  | mk result q =>
    cases result with
    | ok tree =>
      refine .inl ⟨.fast, q, ?_, ?_⟩ <;> simp only [parseStream, Parser.parseOrSkip, hParse]
    | error bail => exact .inr ⟨bail, q, rfl, parseStream_fastOnly hWhole hParse⟩

theorem parseStream_ofPhase {stream : TokenStream} (options : ParseOptions)
    (hWhole : stream.Whole) : (parseStream stream options).2.1.OfPhase .parser := by
  rcases parseStream_parsed options hWhole with ⟨_, _, hParse, hFound⟩ | ⟨-, bail, hFound⟩
  · rw [hFound]
    exact Parser.ofPhase_of_parse hParse
  · rw [hFound]
    exact Log.OfPhase.push (List.forall_mem_nil _) rfl

/-! ## Trees of sources -/

/-- The tree of a source is well-formed, even if it has errors. -/
theorem parse_wellFormed (source : String) {options : ParseOptions}
    (hStrategy : options.strategy ≠ .fastOnly) : (parse source options).tree.WellFormed := by
  have hWhole := TokenStream.Whole.ofSource source
  obtain ⟨_, _, hParse, -⟩ := (parseStream_parsed options hWhole).resolve_right (hStrategy ·.1)
  exact Parser.wellFormed_of_parse hWhole hParse

theorem parse_findings (source : String) (options : ParseOptions) :
    (parse source options).findings =
      (Log.mk (Token.complaints (Token.tokens source) ++
        (parseStream (.ofTokens (Token.tokens source)) options).2.1.entries)).locate source := rfl

/-- What a parse finds comes from the scanner or from the parser. -/
theorem parse_phase (source : String) (options : ParseOptions) :
    ∀ d ∈ (parse source options).findings.entries, d.phase ≠ .structural := by
  intro d hd
  rw [parse_findings] at hd
  obtain ⟨e, he, hPhase⟩ := Log.phase_of_mem_locate hd
  rw [hPhase]
  rcases List.mem_append.1 he with he | he
  · rw [Token.phase_of_mem_complaints he]
    exact nofun
  · rw [parseStream_ofPhase options (TokenStream.Whole.ofSource source) e he]
    exact nofun

/-- A source in which a parse finds no error has a well-formed tree without errors. -/
theorem parse_clean {source : String} {options : ParseOptions}
    (h : (parse source options).hasErrors = false) :
    (parse source options).tree.WellFormed ∧ (parse source options).tree.hasErrors = false := by
  have hWhole := TokenStream.Whole.ofSource source
  have hNone : ∀ d ∈ Token.complaints (Token.tokens source) ++
      (parseStream (.ofTokens (Token.tokens source)) options).2.1.entries, d.isError = false := by
    rw [ParseOutput.hasErrors, parse_findings, Log.hasErrors_locate, Log.hasErrors] at h
    exact fun d hd => Bool.eq_false_iff.2 fun hError => List.any_eq_false.1 h d hd hError
  rcases parseStream_parsed options hWhole with ⟨_, q, hParse, hFound⟩ | ⟨-, bail, hFound⟩
  · have hBlamed := Blamed.of_parse hWhole hParse
    refine ⟨Parser.wellFormed_of_parse hWhole hParse, Bool.eq_false_iff.2 fun hErrors => ?_⟩
    rcases hBlamed.hasErrors_iff.1 hErrors with hFindings | hInvalid
    · obtain ⟨d, hd⟩ := List.exists_mem_of_ne_nil _ hFindings
      have hClean := hNone d (List.mem_append_right _ (hFound ▸ hd))
      rw [hBlamed.isError d hd] at hClean
      cases hClean
    · obtain ⟨d, hd⟩ := List.exists_mem_of_ne_nil _
        ((Token.complaints_ne_nil_iff source).2 hInvalid)
      have hClean := hNone d (List.mem_append_left _ hd)
      rw [Token.isError_of_mem_complaints hd] at hClean
      cases hClean
  · have hClean := hNone bail.diagnostic (List.mem_append_right _ (by simp [hFound, Log.push]))
    cases hClean

/-- The tokens in the tree of a source are tokens of the source, or its end. -/
theorem parse_closed (source : String) (options : ParseOptions) :
    (parse source options).tree.Closed := by
  intro u hMem hKind
  have hPassed : u ∈ Leaf.passed (parse source options).tree.leaves :=
    List.mem_filter.2 ⟨List.mem_filterMap.2 ⟨_, hMem, rfl⟩, by simp [Token.isEnd, hKind]⟩
  rw [passed_of_parse source options] at hPassed
  exact Token.isClosed_of_mem_tokens (Token.mem_words.1 hPassed).1 hKind

end CfScript
