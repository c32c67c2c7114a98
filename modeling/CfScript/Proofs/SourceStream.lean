import CfScript.Token.Lexer
import CfScript.Token.Stream

/-!
# The stream of a source

A source ends with the end of the input and has no other; its comments are not seen by the parser.
So the stream of a source stands at its first visible token, holds each visible token once, and its
last token is the last one of the source.

## Main results

* `forall_mem_scan`: what holds of tokens as they are made holds of all tokens of a text;
* `scan_split`: the tokens of a text are tokens of characters and then one end of the input;
* `words`: the tokens of a source that the parser sees, besides its end;
* `rest_ofTokens_tokens`, `last_ofTokens_tokens`: what the stream of a source holds.
-/

namespace CfScript

namespace Scan

/-- No characters are an end of the input. -/
theorem lexeme_ne_endOfInput (c : Char) (cs : List Char) : (lexeme c cs).1 ≠ .endOfInput := by
  unfold lexeme
  split
  · unfold word
    dsimp only
    split <;> simp
  split
  · unfold number
    dsimp only
    split <;> simp
  split
  · unfold quoted
    split <;> simp
  split
  · simp
  split
  · unfold blockComment
    split <;> simp
  · unfold symbol
    split <;> simp

end Scan

namespace Token

theorem isEnd_ofLexeme (c : Char) (cs : List Char) (start : Nat) (line : LineNumber) :
    (ofLexeme c cs start line).isEnd = false := by
  have h := Scan.lexeme_ne_endOfInput c cs
  simpa [ofLexeme, isEnd] using h

/-- The tokens of a text are tokens of characters and then one end of the input. -/
theorem scan_split (chars : List Char) (offset : Nat) (line : LineNumber) :
    ∃ body last, scan chars offset line = body ++ [last] ∧ last.isEnd = true ∧
      ∀ t ∈ body, t.isEnd = false := by
  fun_induction scan chars offset line with
  | case1 => exact ⟨[], _, rfl, rfl, by simp⟩
  | case2 _ _ _ _ _ _ c cs _ _ _ ih =>
    obtain ⟨body, last, hScan, hLast, hBody⟩ := ih
    exact ⟨_ :: body, last, congrArg _ hScan, hLast,
      List.forall_mem_cons.2 ⟨isEnd_ofLexeme c cs _ _, hBody⟩⟩

/-- What holds of the end of the input and of every token of characters holds of all tokens of a
text. -/
theorem forall_mem_scan {P : Token → Prop} (hEnd : ∀ size line, P (endAt size line))
    (hLexeme : ∀ c cs start line, Scan.isGap c = false → P (ofLexeme c cs start line))
    (chars : List Char) (offset : Nat) (line : LineNumber) : ∀ t ∈ scan chars offset line, P t := by
  fun_induction scan chars offset line with
  | case1 => exact List.forall_mem_singleton.2 (hEnd _ _)
  | case2 chars _ _ _ _ _ c cs hRest _ _ ih =>
    have hGap : Scan.isGap c = false := by
      simpa [hRest] using List.head?_dropWhile_not Scan.isGap chars
    exact List.forall_mem_cons.2 ⟨hLexeme c cs _ _ hGap, ih⟩

/-- The scanner finds nothing exactly when no token is invalid. -/
theorem complaints_eq_nil_iff {ts : List Token} :
    complaints ts = [] ↔ ∀ t ∈ ts, t.kind ≠ .invalid := by
  simp only [complaints, List.filterMap_eq_nil_iff, complaint?, ite_eq_right_iff, reduceCtorEq,
    imp_false, ne_eq]

/-- The tokens of a source that are neither trivia nor its end. -/
def words (source : String) : List Token :=
  (tokens source).filter fun t => !t.kind.isTrivia && !t.isEnd

theorem mem_words {source : String} {t : Token} :
    t ∈ words source ↔ t ∈ tokens source ∧ t.kind.isTrivia = false ∧ t.isEnd = false := by
  simp [words]

end Token

namespace TokenStream

/-- Of tokens that end with the end of the input the stream holds those that are no comments. -/
theorem ofTokens_append_end {body : List Token} {last : Token} (hLast : last.isEnd = true) :
    (ofTokens (body ++ [last])).before = [] ∧
      (ofTokens (body ++ [last])).rest = body.filter (!·.kind.isTrivia) ∧
      (ofTokens (body ++ [last])).last = last := by
  have hKind : last.kind = .endOfInput := by simpa [Token.isEnd] using hLast
  have hVisible : (body ++ [last]).filter (!·.kind.isTrivia) =
      body.filter (!·.kind.isTrivia) ++ [last] := by
    simp [List.filter_append, hKind, TokenKind.isTrivia]
  simp only [ofTokens, hVisible, List.getLast?_append, List.getLast?_singleton, Option.some_or,
    hLast, dite_true, List.dropLast_concat, and_self]

/-- The stream of a source holds the tokens that the parser sees. -/
theorem rest_ofTokens_tokens (source : String) :
    (ofTokens (Token.tokens source)).rest = Token.words source := by
  obtain ⟨body, last, hScan, hLast, hBody⟩ := Token.scan_split source.toList 0 1
  have hTokens : Token.tokens source = body ++ [last] := hScan
  rw [Token.words, hTokens, (ofTokens_append_end hLast).2.1, List.filter_append]
  have hEnd : [last].filter (fun t => !t.kind.isTrivia && !t.isEnd) = [] := by simp [hLast]
  rw [hEnd, List.append_nil]
  exact List.filter_congr fun t hMem => by simp [hBody t hMem]

theorem before_ofTokens_tokens (source : String) :
    (ofTokens (Token.tokens source)).before = [] := by
  obtain ⟨body, last, hScan, hLast, -⟩ := Token.scan_split source.toList 0 1
  rw [Token.tokens, hScan]
  exact (ofTokens_append_end hLast).1

theorem last_ofTokens_tokens (source : String) :
    (Token.tokens source).getLast? = some (ofTokens (Token.tokens source)).last := by
  obtain ⟨body, last, hScan, hLast, -⟩ := Token.scan_split source.toList 0 1
  rw [Token.tokens, hScan, (ofTokens_append_end hLast).2.2]
  simp

theorem isEnd_of_mem_rest_ofTokens_tokens {source : String} {t : Token}
    (h : t ∈ (ofTokens (Token.tokens source)).rest) : t.isEnd = false := by
  rw [rest_ofTokens_tokens] at h
  exact (Token.mem_words.1 h).2.2

end TokenStream

end CfScript
