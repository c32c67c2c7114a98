import CfScript.Proofs.Totality

/-!
# Errors in the tree and findings

A tree has errors exactly when there are findings about its source, from the scanner or from the
parser. A fault is never repaired in silence, and a finding never stands for a tree that is whole:
the findings of a statement that is taken back go with it, an attempt leaves none behind, and an
invalid token, about which the parser says nothing, is always skipped.

The last point is where the order of the decisions matters. The only tokens that are taken unseen
are the arrows after parameters, and one that is not there would be taken as if it were. The nesting
of delimiters shows that an arrow is taken unseen only after something else was found wrong.

## Main results

* `Blamed.of_parse`: errors in the tree that a parse gives, and findings;
* `parseStream_blamed`: errors in the tree of a stream;
* `parse_hasErrors_iff`: errors in the tree of a source.
-/

namespace CfScript

/-- Whether a tree has errors exactly when something was found or a token of the stream is invalid,
and all that was found are errors. -/
structure Blamed (stream : TokenStream) (tree : Tree) (found : Log) : Prop where
  hasErrors_iff : tree.hasErrors = true ↔
    found.entries ≠ [] ∨ ∃ t ∈ stream.rest, t.kind = .invalid
  isError : ∀ d ∈ found.entries, d.isError = true

/-! ## Parses of a stream -/

/-- A parse that gives a tree adds lawful leaves. -/
theorem Parser.parse_lawful {p q : Parser} {entry : Entry} {tree : Tree}
    (h : p.parse entry = (.ok tree, q)) :
    ∃ parts, Adds ⟨p.prediction, false⟩ [] ⟨p.stream, p.findings⟩ tree.leaves parts
        ⟨q.stream, q.findings⟩ ∧
      Lawful ⟨p.prediction, false⟩ False [] ⟨p.stream, p.findings⟩ tree.leaves []
        ⟨q.stream, q.findings⟩ := by
  obtain ⟨parts, rfl, -, hParsed⟩ := Parser.parse_eq_ok_iff.1 h
  have hEnds := parseGoal_answers ⟨p.prediction, false⟩ entry.goal ⟨p.stream, p.findings⟩
    (entry.not_needsBlame · |>.elim)
  rw [hParsed] at hEnds
  obtain ⟨ls, hAdds, hLawful⟩ := hEnds
  have hLeaves : (Tree.node entry.rule parts).leaves = ls := by
    rw [Tree.leaves, hAdds.leaves]
    rfl
  rw [hLeaves]
  exact ⟨parts, hAdds, hLawful⟩

/-- A token that was passed has a leaf, which is an error if the token is skipped. -/
theorem Leaf.exists_of_passed {ls : List Leaf} {t : Token} (h : t ∈ Leaf.passed ls) :
    .matched t ∈ ls ∨ ls.any (·.isError) = true := by
  have hToken := (List.mem_filter.1 h).1
  obtain ⟨l, hMem, hIs⟩ := List.mem_filterMap.1 hToken
  cases l with
  | matched u =>
    cases hIs
    exact .inl hMem
  | skipped u => exact .inr (List.any_eq_true.2 ⟨_, hMem, rfl⟩)
  | assumed what => cases hIs

/-- The invalid tokens of a whole stream stand before its end. -/
theorem TokenStream.Whole.mem_rest_of_invalid {s : TokenStream} (h : s.Whole) {t : Token}
    (hMem : t ∈ s.tokens) (hKind : t.kind = .invalid) : t ∈ s.rest := by
  rw [TokenStream.tokens, h.body] at hMem
  rcases List.mem_append.1 hMem with hMem | hMem
  · exact hMem
  · rw [List.mem_singleton] at hMem
    have hEnd := s.last_isEnd
    rw [← hMem, Token.isEnd, hKind] at hEnd
    cases hEnd

/-- A parse of a whole stream that gives a tree blames nothing but errors, and all of them. -/
theorem Blamed.of_parse {stream : TokenStream} {prediction : Prediction} {entry : Entry}
    {tree : Tree} {q : Parser} (hWhole : stream.Whole)
    (h : (Parser.new stream prediction).parse entry = (.ok tree, q)) :
    Blamed stream tree q.findings := by
  obtain ⟨parts, hAdds, hLawful⟩ := Parser.parse_lawful h
  obtain ⟨hPassed, -⟩ := Covers.of_parse hWhole h
  obtain ⟨ds, hDs, hError, hAll⟩ := hAdds.findings
  have hEntries : q.findings.entries = ds := congrArg Log.entries hDs
  constructor
  · rw [Tree.hasErrors_eq_leaves, hEntries]
    constructor
    · intro hErrors
      rcases hLawful.excused hErrors with hFound | ⟨-, t, hMem, hKind⟩
      · left
        rw [← hEntries]
        exact List.length_pos_iff.1 hFound
      · exact .inr ⟨t, hWhole.mem_rest_of_invalid hMem hKind, hKind⟩
    · rintro (hFound | ⟨t, hMem, hKind⟩)
      · exact hError hFound
      · rw [← hPassed] at hMem
        rcases Leaf.exists_of_passed hMem with hMatched | hErrors
        · exact (hLawful.exposed t hMatched hKind).resolve_left id
        · exact hErrors
  · rw [hEntries]
    exact hAll

theorem Blamed.of_general {stream : TokenStream} (entry : Entry) (hWhole : stream.Whole) :
    Blamed stream (parseStream stream ⟨entry, .generalOnly⟩).1
      (parseStream stream ⟨entry, .generalOnly⟩).2.1 := by
  obtain ⟨tree, q, hParse, -⟩ := (Parser.new stream .general).parse_lenient entry rfl
  have hBlamed := Blamed.of_parse hWhole hParse
  simp only [parseStream, Parser.parseOrSkip, hParse]
  exact hBlamed

theorem parseStream_blamed {stream : TokenStream} {options : ParseOptions} (hWhole : stream.Whole)
    (hStrategy : options.strategy ≠ .fastOnly) :
    Blamed stream (parseStream stream options).1 (parseStream stream options).2.1 := by
  obtain ⟨entry, strategy⟩ := options
  cases strategy with
  | fastOnly => exact absurd rfl hStrategy
  | generalOnly => exact .of_general entry hWhole
  | adaptive =>
    cases hParse : (Parser.new stream .fast).parse entry with
    | mk result q =>
      cases result with
      | ok tree =>
        simp only [parseStream, hParse]
        exact .of_parse hWhole hParse
      | error bail =>
        rw [parseStream_adaptive_of_bailed hWhole.rewind_eq hParse]
        exact .of_general entry hWhole

/-! ## Parses of a source -/

/-- The scanner finds something exactly when a token that the parser sees is invalid. -/
theorem Token.complaints_ne_nil_iff (source : String) :
    Token.complaints (Token.tokens source) ≠ [] ↔
      ∃ t ∈ (TokenStream.ofTokens (Token.tokens source)).rest, t.kind = .invalid := by
  rw [Ne, Token.complaints_eq_nil_iff, TokenStream.rest_ofTokens_tokens]
  push Not
  constructor
  · rintro ⟨t, hMem, hKind⟩
    exact ⟨t, Token.mem_words.2 ⟨hMem, by rw [hKind]; rfl, by rw [Token.isEnd, hKind]; rfl⟩, hKind⟩
  · rintro ⟨t, hMem, hKind⟩
    exact ⟨t, (Token.mem_words.1 hMem).1, hKind⟩

theorem Token.isError_of_mem_complaints {tokens : List Token} {d : Diagnostic}
    (h : d ∈ Token.complaints tokens) : d.isError = true := by
  obtain ⟨t, -, hComplaint⟩ := List.mem_filterMap.1 h
  unfold Token.complaint? at hComplaint
  split at hComplaint
  · cases hComplaint
    rfl
  · cases hComplaint

theorem Log.locate_eq_nil_iff (log : Log) (source : String) :
    (log.locate source).entries = [] ↔ log.entries = [] := by
  simp [Log.locate]

theorem Log.isError_of_mem_locate {log : Log} {source : String}
    (h : ∀ d ∈ log.entries, d.isError = true) :
    ∀ d ∈ (log.locate source).entries, d.isError = true := by
  intro d hMem
  obtain ⟨e, hEntry, rfl⟩ := List.mem_map.1 hMem
  exact h e hEntry

theorem entries_of_parse (source : String) (options : ParseOptions) :
    (parse source options).findings = (Log.mk (Token.complaints (Token.tokens source) ++
      (parseStream (.ofTokens (Token.tokens source)) options).2.1.entries)).locate source := rfl

/-- The tree of a source has errors exactly when there are findings about the source. -/
theorem hasErrors_of_parse_iff (source : String) {options : ParseOptions}
    (hStrategy : options.strategy ≠ .fastOnly) :
    (parse source options).tree.hasErrors = true ↔ (parse source options).findings.entries ≠ [] := by
  have hBlamed := parseStream_blamed (TokenStream.Whole.ofSource source) hStrategy
  rw [entries_of_parse, Ne, Log.locate_eq_nil_iff, List.append_eq_nil_iff, not_and_or, ← Ne, ← Ne,
    Token.complaints_ne_nil_iff source]
  exact hBlamed.hasErrors_iff.trans or_comm

/-- The tree of a source has errors exactly when there are findings about the source, and then the
source is unusable. -/
theorem parse_hasErrors_iff (source : String) (options : ParseOptions)
    (hStrategy : options.strategy ≠ .fastOnly) :
    ((parse source options).tree.hasErrors = true ↔
        (parse source options).findings.entries ≠ []) ∧
      ((parse source options).findings.entries ≠ [] →
        (parse source options).hasErrors = true) := by
  have hBlamed := parseStream_blamed (TokenStream.Whole.ofSource source) hStrategy
  constructor
  · exact hasErrors_of_parse_iff source hStrategy
  · intro hFound
    have hErrors : ∀ d ∈ (parse source options).findings.entries, d.isError = true := by
      rw [entries_of_parse]
      refine Log.isError_of_mem_locate fun d hMem => ?_
      rcases List.mem_append.1 hMem with hMem | hMem
      · exact Token.isError_of_mem_complaints hMem
      · exact hBlamed.isError d hMem
    obtain ⟨d, hMem⟩ := List.exists_mem_of_ne_nil _ hFound
    exact List.any_eq_true.2 ⟨d, hMem, hErrors d hMem⟩

/-- A parenthesis that opens no statement is skipped, as is all in front of the next semicolon, and that
is found to be an error. -/
theorem parse_hasErrors_iff_skipped :
    let output := parse "a(); ) b();" ⟨.script, .adaptive⟩
    (output.tree.hasErrors = true ↔ output.findings.entries ≠ []) ∧
      (output.tree.leaves.filter (·.isError)).map (·.text) = ["", ")", "b", "(", ")"] ∧
        output.tree.hasErrors = true ∧ output.hasErrors = true := by
  intro output
  have hTree : output.tree.hasErrors = true := by decide +kernel
  have h := parse_hasErrors_iff "a(); ) b();" ⟨.script, .adaptive⟩ (by decide)
  exact ⟨h.1, by decide +kernel, hTree, h.2 (h.1.1 hTree)⟩

end CfScript
