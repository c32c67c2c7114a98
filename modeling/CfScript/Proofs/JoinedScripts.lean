import CfScript.Proofs.Form
import CfScript.Proofs.GrammarSeam
import CfScript.Proofs.JoinedTokens
import CfScript.Proofs.WholeTree

/-!
# Scripts one after the other

Two scripts without a fault, of which the first ends with a semicolon or holds no tokens at all, are
a script without a fault when they stand one after the other with a line feed between them. Its
statements are those of the first script and then those of the second one, further on in the source.

A script that is read without a fault is a sequence of statements. Those of the first script are
read in the same way in front of the tokens of the second one, which is what the seam is about;
those of the second are read behind the first as they are read on their own, since a parse does not
see places.

## Main results

* `script_parsed`, `Sequence.script`: a sound script is a sequence of sound statements;
* `Sequence.across`, `Sequence.moved`: sequences before and behind a seam;
* `parse_join`: the script of joined sources.
-/

namespace CfScript

open CfScript.Tree (hasErrorsAny)

/-! ## Sequences of statements -/

/-- The statements that are read without a fault from one state to another, each in front of a token
that does not end the script. -/
inductive Sequence : ParserState → List Tree → ParserState → Prop where
  | nil (s : ParserState) : Sequence s [] s
  | cons {s s₁ s₂ : ParserState} {parts more : List Tree} {steps : Nat}
    (hHere : s.current.kind ≠ .endOfInput ∧ s.current.kind ≠ .symbol .rBrace)
    (h : run steps (.general false) .statement (.start s) s = .parsed parts s₁)
    (hSound : Sound false parts) (hMoved : s₁.stream.pos ≠ s.stream.pos)
    (hMore : Sequence s₁ more s₂) : Sequence s (parts ++ more) s₂

variable {s s' s₁ : ParserState} {parts more : List Tree} {steps : Nat} {f : Frame}

/-- A sound script is a sequence of statements up to the end of the input. -/
theorem script_parsed (h : run steps (.general false) .script f s = .parsed parts s')
    (hSound : Sound false parts) :
    ∃ ps s₁, Sequence s ps s₁ ∧ s₁.current.kind = .endOfInput ∧
      parts = f.parts ++ ps ++ [.token s₁.current] := by
  induction steps generalizing f s with
  | zero => cases h
  | succ steps ih =>
    rw [run, Goal.production, Grammar.script, Production.exec, ParserState.window_here] at h
    split at h
    next hEnd =>
      cases h
      exact ⟨[], s, .nil s, hEnd, by simp [Frame.push, Frame.append]⟩
    next hOpen =>
      split at h
      next hBrace => exact (no_fault rfl h hSound).elim
      next hBrace =>
        rw [Grammar.listed, Production.exec] at h
        split at h
        next mid s₁ hParsed =>
          split at h
          next => exact (no_fault rfl h hSound).elim
          next hMoved =>
            have hMid : Sound false mid := (hSound.of_exec h : Sound false (f.parts ++ mid)).right
            obtain ⟨ps, s₂, hMore, hEnd, hParts⟩ := ih h
            refine ⟨mid ++ ps, s₂, .cons ⟨hOpen, hBrace⟩ hParsed hMid hMoved hMore, hEnd, ?_⟩
            rw [hParts, Frame.append, List.append_assoc f.parts]
        next hBad => exact absurd h (hBad _ _)

/-- A sequence of statements up to the end of the input is a script. -/
theorem Sequence.script (h : Sequence s parts s₁) (hEnd : s₁.current.kind = .endOfInput)
    (f : Frame) :
    ∃ steps, run steps (.general false) .script f s =
      .parsed (f.parts ++ parts ++ [.token s₁.current]) s₁.advance := by
  induction h generalizing f with
  | nil s =>
    refine ⟨1, ?_⟩
    rw [run, Goal.production, Grammar.script, Production.exec, ParserState.window_here, if_pos hEnd]
    simp [Production.exec, Frame.push, Frame.append]
  | @cons s s₁ s₂ parts more steps hHere h _ hMoved _ ih =>
    obtain ⟨count, hMore⟩ := ih hEnd (f.append parts)
    refine ⟨max steps count + 1, ?_⟩
    rw [run, Goal.production, Grammar.script, Production.exec, ParserState.window_here,
      if_neg hHere.1, if_neg hHere.2, Grammar.listed, Production.exec,
      run_more (Nat.le_max_left steps count) h]
    dsimp only
    rw [if_neg hMoved, Production.exec, run_more (Nat.le_max_right steps count) hMore, Frame.append,
      List.append_assoc f.parts]

namespace Sequence

theorem append (h : Sequence s parts s₁) (hMore : Sequence s₁ more s') :
    Sequence s (parts ++ more) s' := by
  induction h with
  | nil => exact hMore
  | cons hHere h hSound hMoved _ ih =>
    rw [List.append_assoc]
    exact .cons hHere h hSound hMoved (ih hMore)

theorem sound (h : Sequence s parts s₁) : Sound false parts := by
  induction h with
  | nil => exact .inr rfl
  | cons _ _ hSound _ _ ih =>
    refine .inr ?_
    rw [hasErrorsAny_append, hSound.resolve_left Bool.false_ne_true,
      ih.resolve_left Bool.false_ne_true]
    rfl

/-- A sequence passes tokens and finds nothing. -/
theorem passes (h : Sequence s parts s₁) :
    ∃ ts, s.stream.Passes ts s₁.stream ∧ s₁.findings = s.findings := by
  induction h with
  | nil s => exact ⟨[], .refl _, rfl⟩
  | cons _ h hSound _ _ ih =>
    obtain ⟨ls, hAdds⟩ := run_adds _ _ _ _ _ _ _ h
    obtain ⟨us, hMore, hFound⟩ := ih
    exact ⟨_, hAdds.passes.trans hMore, hFound.trans (hSound.findings_eq hAdds)⟩

/-- A sequence up to the end of the input does not begin with `else`. -/
theorem ne_else (h : Sequence s parts s₁) (hEnd : s₁.current.kind = .endOfInput) :
    s.current.kind ≠ .keyword .else_ := by
  cases h with
  | nil => simp [hEnd]
  | cons _ h hSound _ _ => exact fun hElse => no_statement hElse h hSound

/-- A sequence up to the seam is the same with other tokens behind the seam, if these do not begin
with `else`. -/
theorem across (h : Sequence s parts s₁) {t : TokenStream}
    (hElse : t.current.kind ≠ .keyword .else_) (hPoised : s.stream.rest ≠ [] → Poised [] s)
    (hSeam : s₁.stream.rest = []) :
    Sequence (s.append t) parts (s₁.append t) := by
  induction h with
  | nil => exact .nil _
  | @cons s s₁ s₂ parts more steps hHere h hSound hMoved hMore ih =>
    have hRest : s.stream.rest ≠ [] := fun hNil => hHere.1 (ParserState.kind_of_nil hNil)
    have hBefore := hPoised hRest
    -- A statement may end at the seam, without a look at what is behind.
    have hSame := (run_joins steps t false hElse hBefore h hSound).2 (.inl (by simp [Goal.finish]))
    obtain ⟨ls, hAdds⟩ := run_adds steps _ _ _ _ _ _ h
    have hPoised₁ := hBefore.of_passes hAdds.passes (hSound.findings_eq hAdds)
    rw [← ParserState.current_append t hRest] at hHere
    exact .cons hHere hSame hSound hMoved (ih hPoised₁ hSeam)

/-- A sequence of statements further on in the source. -/
theorem moved {d : Distance} {k : Nat} {t : ParserState} (h : Sequence s parts s₁)
    (hMoves : s.MovesTo d k t) :
    ∃ t₁, Sequence t (Tree.movedAll d parts) t₁ ∧ s₁.MovesTo d k t₁ := by
  induction h generalizing t with
  | nil => exact ⟨t, .nil t, hMoves⟩
  | @cons s s₁ s₂ parts more steps hHere h hSound hMoved _ ih =>
    have hRun := run_moved steps (.general false) .statement (.start s) s t hMoves
    rw [h, Frame.moved_start hMoves] at hRun
    generalize hOther : run steps (.general false) .statement (.start t) t = o at hRun
    cases hRun with
    | @parsed _ _ t₁ hMoves₁ =>
      obtain ⟨t₂, hMore, hMoves₂⟩ := ih hMoves₁
      refine ⟨t₂, ?_, hMoves₂⟩
      rw [Tree.movedAll_append]
      refine .cons ?_ hOther ?_ ?_ hMore
      · rwa [hMoves.kind]
      · exact hSound.imp id fun hClean => (Tree.hasErrorsAny_movedAll d parts).trans hClean
      · have hPos := hMoves.pos
        have hPos₁ := hMoves₁.pos
        omega

end Sequence

/-! ## Scripts of sources -/

/-- How a source is parsed with general prediction as a script. -/
def ParseOptions.generalScript : ParseOptions := ⟨.script, .generalOnly⟩

/-- The state in front of a source. -/
def ParserState.ofSource (source : String) : ParserState :=
  ⟨.ofTokens (Token.tokens source), .empty⟩

/-- A source is parsed with general prediction by a single run. -/
theorem parse_generalScript (source : String) :
    ∃ parts s', parseGoal (.general false) .script (.ofSource source) = .parsed parts s' ∧
      (parse source .generalScript).tree = .node .scriptBlock parts := by
  obtain ⟨tree, q, hParse, -⟩ :=
    (Parser.new (.ofTokens (Token.tokens source)) .general).parse_lenient .script rfl
  obtain ⟨parts, rfl, -, hParsed⟩ := Parser.parse_eq_ok_iff.1 hParse
  refine ⟨parts, _, hParsed, ?_⟩
  simp only [parse, parseStream, ParseOptions.generalScript, Parser.parseOrSkip, hParse]
  rfl

/-- Nothing is found in a source exactly if its script has no errors. -/
theorem findings_generalScript (source : String) :
    (parse source .generalScript).findings = .empty ↔
      (parse source .generalScript).tree.hasErrors = false := by
  have hErrors := hasErrors_of_parse_iff source
    (show ParseOptions.generalScript.strategy ≠ .fastOnly by simp [ParseOptions.generalScript])
  rw [Bool.eq_false_iff, Ne, hErrors, not_not]
  exact ⟨congrArg Log.entries, fun h => congrArg Log.mk h⟩

/-- A source in which nothing is found is a sequence of statements up to its end. -/
theorem parse_sequence {source : String} (h : (parse source .generalScript).findings = .empty) :
    ∃ parts s₁, Sequence (.ofSource source) parts s₁ ∧ s₁.current.kind = .endOfInput ∧
      (parse source .generalScript).tree = .node .scriptBlock (parts ++ [.token s₁.current]) := by
  obtain ⟨all, s', hParsed, hTree⟩ := parse_generalScript source
  rw [findings_generalScript, hTree, Tree.hasErrors] at h
  obtain ⟨parts, s₁, hParts, hEnd, rfl⟩ := script_parsed hParsed (.inr h)
  exact ⟨parts, s₁, hParts, hEnd, hTree⟩

/-- In a source that is a sequence of statements up to its end nothing is found. -/
theorem Sequence.parse {source : String} (h : Sequence (.ofSource source) parts s₁)
    (hEnd : s₁.current.kind = .endOfInput) :
    (parse source .generalScript).findings = .empty ∧
      (parse source .generalScript).tree = .node .scriptBlock (parts ++ [.token s₁.current]) := by
  obtain ⟨all, s', hParsed, hTree⟩ := parse_generalScript source
  obtain ⟨steps, hRun⟩ := h.script hEnd (.start (.ofSource source))
  -- Both runs end, so they come to the same with as many steps as the longer one.
  have hMost := run_more (Nat.le_max_left (enough (.ofSource source)) steps) hParsed
  rw [run_more (Nat.le_max_right _ _) hRun] at hMost
  cases hMost
  refine ⟨?_, hTree⟩
  rw [findings_generalScript, hTree, Tree.hasErrors]
  have hClean := h.sound.resolve_left Bool.false_ne_true
  simp [Frame.start, hasErrorsAny_append, hClean, Tree.hasErrorsAny, Tree.hasErrors, Tree.token,
    Leaf.isError]

/-! ## Joined sources -/

namespace Token

/-- A source in which nothing is found has no invalid tokens. -/
theorem valid_of_parse {source : String} {options : ParseOptions}
    (h : (parse source options).findings = .empty) : ∀ t ∈ tokens source, t.kind ≠ .invalid := by
  have hNone : (parse source options).findings.entries = [] := congrArg Log.entries h
  rw [parse_findings, Log.locate_eq_nil_iff, List.append_eq_nil_iff] at hNone
  exact complaints_eq_nil_iff.1 hNone.1

end Token

/-- The stream of tokens that end with the end of the input. -/
theorem TokenStream.ofTokens_concat {body : List Token} {last : Token} (hLast : last.isEnd = true) :
    ofTokens (body ++ [last]) = ⟨[], body.filter (!·.kind.isTrivia), last, hLast⟩ := by
  obtain ⟨hBefore, hRest, hEnd⟩ := @ofTokens_append_end body last hLast
  generalize ofTokens (body ++ [last]) = stream at *
  cases stream
  simp_all

/-- The state in front of a source that goes on with another one behind a line feed. -/
theorem ParserState.ofSource_join {first : String}
    (h : ∀ t ∈ Token.tokens first, t.kind ≠ .invalid) (second : String) :
    ofSource (first ++ "\n" ++ second) =
      (ofSource first).append ((ofSource second).stream.moved (.behind first)) := by
  obtain ⟨body, last, hFirst, hLast, -⟩ := Token.scan_split first.toList 0 1
  obtain ⟨more, stop, hSecond, hStop, -⟩ := Token.scan_split second.toList 0 1
  have hJoined := Token.tokens_join h second
  rw [← Token.tokens] at hFirst hSecond
  rw [hFirst, hSecond, List.dropLast_concat, List.map_append, List.map_singleton,
    ← List.append_assoc] at hJoined
  have hMoved : (more.map (Token.moved (.behind first))).filter (!·.kind.isTrivia) =
      (more.filter (!·.kind.isTrivia)).map (Token.moved (.behind first)) := by
    rw [List.filter_map]
    rfl
  simp only [ofSource, append, TokenStream.append, TokenStream.moved, hFirst, hSecond, hJoined,
    TokenStream.ofTokens_concat hLast, TokenStream.ofTokens_concat hStop]
  rw [TokenStream.ofTokens_concat (show (stop.moved (.behind first)).isEnd = true from hStop),
    List.filter_append, hMoved]

/-- In front of a source that ends with a semicolon stands a run in front of a seam. -/
theorem Poised.ofSource {source : String}
    (h : ∀ t ∈ (Token.words source).getLast?, t.kind = .symbol .semicolon)
    (hRest : (ParserState.ofSource source).stream.rest ≠ []) : Poised [] (.ofSource source) where
  shut := by
    have hLast := List.getLast?_eq_some_getLast hRest
    refine ⟨_, hLast, h _ ?_⟩
    rw [← TokenStream.rest_ofTokens_tokens]
    exact hLast
  isEnd := (TokenStream.Whole.ofSource source).isEnd
  sees := List.nil_prefix
  quiet := rfl

/-- A source that stands behind the end of another one is read as on its own, further on. -/
theorem ParserState.MovesTo.behind (hSeam : s.stream.rest = []) (hQuiet : s.findings = .empty)
    (d : Distance) (source : String) :
    (ofSource source).MovesTo d s.stream.pos (s.append ((ofSource source).stream.moved d)) where
  rest := by simp [ParserState.append, TokenStream.append, TokenStream.moved, hSeam]
  last := rfl
  pos := by
    have hStart : (ofSource source).stream.pos = 0 :=
      congrArg List.length (TokenStream.before_ofTokens_tokens source)
    rw [hStart, Nat.zero_add]
    rfl
  findings := congrArg Log.length hQuiet

/-- The statements at the root of a tree. -/
def Tree.statements (t : Tree) : List Tree := t.children.filter (·.isStatement)

@[simp] theorem Tree.isStatement_moved (d : Distance) (t : Tree) :
    (t.moved d).isStatement = t.isStatement := by
  rw [isStatement, isStatement, rule?_moved]

theorem Tree.filter_isStatement_moved (d : Distance) (ts : List Tree) :
    (ts.map (moved d)).filter (·.isStatement) = (ts.filter (·.isStatement)).map (moved d) := by
  simp [List.filter_map, Function.comp_def]

/-- Two scripts in which nothing is found, of which the first one ends with a semicolon or holds no
token, are a script in which nothing is found if a line feed stands between them. Its root holds the
statements of the first script and then those of the second one, further on in the source. -/
theorem parse_join {first second : String} (hFirst : (parse first .generalScript).findings = .empty)
    (hSecond : (parse second .generalScript).findings = .empty)
    (hSemicolon : ∀ t ∈ (Token.words first).getLast?, t.kind = .symbol .semicolon) :
    (parse (first ++ "\n" ++ second) .generalScript).findings = .empty ∧
      (parse (first ++ "\n" ++ second) .generalScript).tree = .node .scriptBlock
        ((parse first .generalScript).tree.children.dropLast ++
          (parse second .generalScript).tree.children.map (Tree.moved (.behind first))) ∧
      (parse (first ++ "\n" ++ second) .generalScript).tree.statements =
        (parse first .generalScript).tree.statements ++
          (parse second .generalScript).tree.statements.map (Tree.moved (.behind first)) := by
  obtain ⟨ps, s₁, hPs, hEnd, hTree⟩ := parse_sequence hFirst
  obtain ⟨qs, u₁, hQs, hStop, hOther⟩ := parse_sequence hSecond
  obtain ⟨ts, hPasses, hQuiet⟩ := hPs.passes
  have hSeam : s₁.stream.rest = [] :=
    ((TokenStream.Whole.ofSource first).rest_of_atEnd hPasses (s₁.atEnd_iff.2 hEnd)).1
  have hMoves := ParserState.MovesTo.behind hSeam hQuiet (.behind first) second
  set t := (ParserState.ofSource second).stream.moved (.behind first)
  have hElse : t.current.kind ≠ .keyword .else_ := by
    rw [← ParserState.current_append_of_nil t hSeam, hMoves.kind]
    exact hQs.ne_else hStop
  have hAcross := hPs.across hElse (Poised.ofSource hSemicolon) hSeam
  obtain ⟨v₁, hMoved, hMoves₁⟩ := hQs.moved hMoves
  have hAll := hAcross.append hMoved
  rw [← ParserState.ofSource_join (Token.valid_of_parse hFirst)] at hAll
  obtain ⟨hFound, hJoined⟩ := hAll.parse (hMoves₁.kind.trans hStop)
  have hChildren : ps ++ Tree.movedAll (.behind first) qs ++ [Tree.token v₁.current] =
      (ps ++ [Tree.token s₁.current]).dropLast ++
        (qs ++ [Tree.token u₁.current]).map (Tree.moved (.behind first)) := by
    rw [List.dropLast_concat, Tree.movedAll_eq_map, List.map_append, List.append_assoc,
      hMoves₁.current]
    rfl
  have hMark (u : Token) : (Tree.token u).isStatement = false := rfl
  rw [hTree, hOther, hJoined, hChildren]
  refine ⟨hFound, rfl, ?_⟩
  simp only [Tree.statements, Tree.children]
  rw [List.filter_append, Tree.filter_isStatement_moved, List.dropLast_concat,
    List.filter_append ps]
  simp [hMark]

/-- An `if` without `else` and a loop. -/
theorem parse_join_if_for :
    let first := "if (a) b();"
    let second := "for (x in y) {}"
    let joined := parse (first ++ "\n" ++ second) .generalScript
    ((parse first .generalScript).findings = .empty ∧
        (parse second .generalScript).findings = .empty ∧
        ∀ t ∈ (Token.words first).getLast?, t.kind = .symbol .semicolon) ∧
      joined.findings = .empty ∧ joined.tree.statements =
        (parse first .generalScript).tree.statements ++
          (parse second .generalScript).tree.statements.map (Tree.moved (.behind first)) := by
  intro first second joined
  have hFirst : (parse first .generalScript).findings = .empty := by decide +kernel
  have hSecond : (parse second .generalScript).findings = .empty := by decide +kernel
  have hSemicolon : ∀ t ∈ (Token.words first).getLast?, t.kind = .symbol .semicolon := by
    decide +kernel
  obtain ⟨hFound, -, hStatements⟩ := parse_join hFirst hSecond hSemicolon
  exact ⟨⟨hFirst, hSecond, hSemicolon⟩, hFound, hStatements⟩

end CfScript
