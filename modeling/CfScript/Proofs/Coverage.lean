import CfScript.Parser.Retry
import CfScript.Proofs.Additions
import CfScript.Proofs.SourceStream
import Mathlib.Data.List.TakeWhile

/-!
# Every token is in the tree

A tree that a parse of a source gives holds the visible tokens of the source, every one once and in
order, as matched or as skipped leaves, and nothing else but assumed parts and the end of the input,
which is its last child. It does not matter which prediction gave the tree, how broken the source
is, or whether the parse was given up and all tokens were skipped.

The tokens before the cursor are in the tree because a run adds the leaves of what it passes; none
are left behind the cursor because the entry rules end at the end of the input only.

## Main results

* `Finished.of_script`, `Finished.of_standalone`: the entry rules end with the end of the input;
* `parseStream_covers`: the tree of a stream at its first token;
* `parse_covers`: the tree of a source.
-/

namespace CfScript

/-- A run that ends at the end of the input, which is the last part. -/
def Finished (parts : List Tree) (s : ParserState) : Prop :=
  s.stream.atEnd = true ∧ ∃ front, parts = front ++ [.token s.current]

/-- Taking the end of the input finishes a run. -/
theorem Finished.of_take {s : ParserState} (h : s.current.kind = .endOfInput) (parts : List Tree) :
    Finished (parts ++ [.token s.current]) s.advance := by
  rw [ParserState.advance_of_end h]
  exact ⟨s.atEnd_iff.2 h, parts, rfl⟩

theorem Finished.of_script (steps : Nat) {σ : Setting} {f : Frame} {s s' : ParserState}
    {parts : List Tree} (h : run steps σ .script f s = .parsed parts s') : Finished parts s' := by
  induction steps generalizing f s with
  | zero => cases h
  | succ steps ih =>
    simp only [run, Goal.production, Grammar.script, Grammar.listed, Production.exec,
      ParserState.window_here] at h
    split at h
    next hEnd =>
      cases h
      exact .of_take hEnd f.parts
    split at h
    · simp only [Production.exec] at h
      split at h
      · cases h
      · exact ih h
    · simp only [Production.exec] at h
      split at h
      next mid s₁ _ =>
        split at h
        · split at h
          · cases h
          · exact ih h
        · exact ih h
      next hNot => exact absurd h (hNot _ _)

theorem Finished.of_leftovers (steps : Nat) {σ : Setting} {f : Frame} {s s' : ParserState}
    {parts : List Tree} (h : run steps σ .leftovers f s = .parsed parts s') :
    Finished parts s' := by
  induction steps generalizing f s with
  | zero => cases h
  | succ steps ih =>
    simp only [run, Goal.production, Grammar.leftovers, Production.exec,
      ParserState.window_here] at h
    split at h
    next hEnd =>
      cases h
      exact .of_take hEnd f.parts
    · simp only [Production.exec] at h
      split at h
      · cases h
      · exact ih h

theorem Finished.of_standalone (steps : Nat) {σ : Setting} {f : Frame} {s s' : ParserState}
    {parts : List Tree} (h : run steps σ .standalone f s = .parsed parts s') :
    Finished parts s' := by
  cases steps with
  | zero => cases h
  | succ steps =>
    simp only [run, Goal.production, Grammar.standalone, Production.exec,
      ParserState.window_here] at h
    split at h
    next mid s₁ _ =>
      split at h
      next hEnd =>
        cases h
        exact .of_take hEnd _
      · simp only [Production.exec] at h
        split at h
        · cases h
        · exact .of_leftovers steps h
    next hNot => exact absurd h (hNot _ _)

theorem Finished.of_entry (entry : Entry) (steps : Nat) {σ : Setting} {f : Frame}
    {s s' : ParserState} {parts : List Tree} (h : run steps σ entry.goal f s = .parsed parts s') :
    Finished parts s' := by
  cases entry with
  | script => exact .of_script steps h
  | expression => exact .of_standalone steps h

/-! ## Parses of a stream -/

/-- A parser gives a tree exactly if the run of its entry rule gives the children of the root. -/
theorem Parser.parse_eq_ok_iff {p q : Parser} {entry : Entry} {tree : Tree} :
    p.parse entry = (.ok tree, q) ↔
      ∃ parts, tree = .node entry.rule parts ∧ q.prediction = p.prediction ∧
        parseGoal ⟨p.prediction, false⟩ entry.goal ⟨p.stream, p.findings⟩ =
          .parsed parts ⟨q.stream, q.findings⟩ := by
  unfold Parser.parse
  dsimp only
  constructor
  · intro h
    split at h
    next parts s hParsed =>
      obtain ⟨rfl, rfl⟩ : .node entry.rule parts = tree ∧ _ = q := by simpa using h
      exact ⟨parts, rfl, rfl, hParsed⟩
    next => simp at h
    next => simp at h
  · rintro ⟨parts, rfl, hPrediction, hParsed⟩
    rw [hParsed]
    obtain ⟨stream, prediction, findings⟩ := q
    cases hPrediction
    rfl

/-- What a parse that gives a tree did. -/
theorem Parser.parse_ok {p q : Parser} {entry : Entry} {tree : Tree}
    (h : p.parse entry = (.ok tree, q)) :
    ∃ parts, tree = .node entry.rule parts ∧ Finished parts ⟨q.stream, q.findings⟩ ∧
      Adds ⟨p.prediction, false⟩ [] ⟨p.stream, p.findings⟩ tree.leaves parts
        ⟨q.stream, q.findings⟩ := by
  obtain ⟨parts, rfl, -, hParsed⟩ := Parser.parse_eq_ok_iff.1 h
  obtain ⟨ls, hLs⟩ := run_adds _ _ _ _ _ _ _ hParsed
  have hLeaves : (Tree.node entry.rule parts).leaves = ls := by
    rw [Tree.leaves, hLs.leaves]
    rfl
  exact ⟨parts, rfl, .of_entry entry _ hParsed, hLeaves ▸ hLs⟩

/-- A stream at its first token whose only end of the input is the last token. -/
structure TokenStream.Whole (s : TokenStream) : Prop where
  before : s.before = []
  isEnd : ∀ t ∈ s.rest, t.isEnd = false

namespace TokenStream.Whole

variable {s : TokenStream}

theorem ofSource (source : String) : (TokenStream.ofTokens (Token.tokens source)).Whole where
  before := before_ofTokens_tokens source
  isEnd _ h := isEnd_of_mem_rest_ofTokens_tokens h

theorem body (h : s.Whole) : s.body = s.rest := by simp [TokenStream.body, h.before]

theorem rewind_eq (h : s.Whole) : s.rewind = s := by
  have hPos : s.pos = 0 := by simp [pos, h.before]
  rw [rewind, ← hPos, seek_pos]

/-- At the end of the input nothing is left but the last token. -/
theorem rest_of_atEnd {t : TokenStream} {ts : List Token} (h : s.Whole) (hPasses : s.Passes ts t)
    (hEnd : t.atEnd = true) : t.rest = [] ∧ t.current = s.last := by
  cases hRest : t.rest with
  | nil => exact ⟨rfl, by simp [current, hRest, hPasses.last]⟩
  | cons u us =>
    have hOpen := h.isEnd u (by simp [hPasses.rest, hRest])
    simp [atEnd, current, hRest, hOpen] at hEnd

end TokenStream.Whole

/-- A tree with the rule of the entry at the root that holds the tokens of the stream. -/
def Covers (stream : TokenStream) (entry : Entry) (tree : Tree) : Prop :=
  Leaf.passed tree.leaves = stream.rest ∧
    ∃ front, tree = .node entry.rule (front ++ [.token stream.last])

/-- A parse of a whole stream that gives a tree has read it all. -/
theorem Covers.of_parse {stream : TokenStream} {prediction : Prediction} {entry : Entry}
    {tree : Tree} {q : Parser} (hWhole : stream.Whole)
    (h : (Parser.new stream prediction).parse entry = (.ok tree, q)) :
    Covers stream entry tree := by
  obtain ⟨parts, hTree, ⟨hEnd, front, hParts⟩, hAdds⟩ := Parser.parse_ok h
  obtain ⟨hRest, hLast⟩ := hWhole.rest_of_atEnd hAdds.passes hEnd
  refine ⟨?_, front, ?_⟩
  · have hSplit : stream.rest = Leaf.passed tree.leaves ++ q.stream.rest := hAdds.passes.rest
    rw [hSplit, hRest, List.append_nil]
  · have hCurrent : q.stream.current = stream.last := hLast
    rw [hTree, hParts]
    simp only [ParserState.current, hCurrent]

/-- The tree in which every token of a whole stream is skipped. -/
theorem Parser.skippedTree_eq {stream other : TokenStream} (entry : Entry) (hWhole : stream.Whole)
    (hTokens : other.tokens = stream.tokens) :
    skippedTree entry other =
      .node entry.rule (stream.rest.map .skipped ++ [.token stream.last]) := by
  obtain ⟨hBody, hLast⟩ := List.append_inj' hTokens rfl
  have hPassed : other.body.takeWhile (!·.isEnd) = stream.rest := by
    rw [hBody, hWhole.body]
    exact List.takeWhile_eq_self_iff.2 fun t h => by simp [hWhole.isEnd t h]
  have hNext : other.body[stream.rest.length]?.getD other.last = stream.last := by
    rw [hBody, hWhole.body, List.getElem?_eq_none (Nat.le_refl _), Option.getD_none]
    exact List.cons.inj hLast |>.1
  simp only [skippedTree, hPassed, hNext]

/-- The tree in which every token is skipped holds them all. -/
theorem Covers.skippedTree {stream other : TokenStream} (entry : Entry) (hWhole : stream.Whole)
    (hTokens : other.tokens = stream.tokens) :
    Covers stream entry (Parser.skippedTree entry other) := by
  rw [Parser.skippedTree_eq entry hWhole hTokens]
  refine ⟨?_, _, rfl⟩
  have hOpen : Leaf.passed (stream.rest.map Leaf.skipped) = stream.rest := by
    simp only [Leaf.passed, List.filterMap_map, Function.comp_def, Leaf.token?,
      List.filterMap_some]
    exact List.filter_eq_self.2 fun t h => by simp [hWhole.isEnd t h]
  rw [Tree.leaves, Tree.leavesAll_append, Tree.leavesAll_skipped, Leaf.passed_append, hOpen]
  simp [Tree.leavesAll, Tree.leaves, Tree.token, Leaf.passed, Leaf.token?, stream.last_isEnd]

theorem Covers.of_parseOrSkip {stream : TokenStream} (prediction : Prediction) (entry : Entry)
    (hWhole : stream.Whole) :
    Covers stream entry ((Parser.new stream prediction).parseOrSkip entry).1 := by
  unfold Parser.parseOrSkip
  split
  next tree q hOk => exact .of_parse hWhole hOk
  next bail q hError =>
    have hTokens := (Parser.new stream prediction).stream_tokens_parse entry
    rw [hError] at hTokens
    exact .skippedTree entry hWhole hTokens

theorem parseStream_covers {stream : TokenStream} (options : ParseOptions)
    (hWhole : stream.Whole) : Covers stream options.entry (parseStream stream options).1 := by
  obtain ⟨entry, strategy⟩ := options
  cases strategy with
  | generalOnly => exact .of_parseOrSkip .general entry hWhole
  | fastOnly => exact .of_parseOrSkip .fast entry hWhole
  | adaptive =>
    cases hParse : (Parser.new stream .fast).parse entry with
    | mk result q =>
      cases result with
      | ok tree =>
        simp only [parseStream, hParse]
        exact .of_parse hWhole hParse
      | error bail =>
        rw [parseStream_adaptive_of_bailed hWhole.rewind_eq hParse]
        exact .of_parseOrSkip .general entry hWhole

/-! ## Parses of a source -/

/-- The tokens of the tree of a source are those that the parser sees. -/
theorem passed_of_parse (source : String) (options : ParseOptions) :
    Leaf.passed (parse source options).tree.leaves = Token.words source :=
  (parseStream_covers options (TokenStream.Whole.ofSource source)).1.trans
    (TokenStream.rest_ofTokens_tokens source)

/-- The tree of a source is closed by the end of the input. -/
theorem root_of_parse (source : String) (options : ParseOptions) :
    ∃ front, (parse source options).tree = .node options.entry.rule
      (front ++ [.token (TokenStream.ofTokens (Token.tokens source)).last]) :=
  (parseStream_covers options (TokenStream.Whole.ofSource source)).2

theorem rule?_of_parse (source : String) (options : ParseOptions) :
    (parse source options).tree.rule? = some options.entry.rule := by
  obtain ⟨front, hTree⟩ := root_of_parse source options
  rw [hTree, Tree.rule?]

/-- The leaves of a parse are the visible tokens of the source, each once and in order, and the end
of the input, which closes the root. -/
theorem parse_covers (source : String) (options : ParseOptions) :
    Leaf.passed (parse source options).tree.leaves =
        (parse source options).tokens.filter (fun t => !t.kind.isTrivia && !t.isEnd) ∧
      (parse source options).tree.rule? = some options.entry.rule ∧
      ∃ front last, (parse source options).tree.children = front ++ [.token last] ∧
        last.isEnd = true ∧ (parse source options).tokens.getLast? = some last := by
  obtain ⟨front, hTree⟩ := root_of_parse source options
  refine ⟨passed_of_parse source options, rule?_of_parse source options, front,
    (TokenStream.ofTokens (Token.tokens source)).last, ?_, ?_, ?_⟩
  · exact congrArg Tree.children hTree
  · exact TokenStream.last_isEnd _
  · exact TokenStream.last_ofTokens_tokens source

end CfScript
