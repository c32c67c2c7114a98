import CfScript.Diagnostic.Log
import CfScript.Token.Basic
import CfScript.Token.Scan

/-!
# From a source to its tokens

`tokens` reads a source from left to right: it skips the gap at the cursor, takes the longest token
there and goes on after it, until the end of the input. A lexer hands the tokens of a source out one
at a time and can be wound back to the first.

## Main results

* `scan_ne_nil`, `isEnd_of_mem_getLast?_scan`: the tokens of a text end with the end of the input;
* `reset_next`: a lexer that is wound back has lost what it handed out.
-/

namespace CfScript

namespace Token

/-- The token that starts with `c` at byte `start` of line `line` and goes on in `cs`. -/
def ofLexeme (c : Char) (cs : List Char) (start : Nat) (line : LineNumber) : Token :=
  let (kind, more) := Scan.lexeme c cs
  let text := c :: cs.take more
  ⟨kind, String.ofList text, Span.ofLength start (Text.byteLength text), line⟩

/-- The tokens of the characters, the first of which stands at byte `offset` of line `line`. -/
def scan (chars : List Char) (offset : Nat) (line : LineNumber) : List Token :=
  let gap := chars.takeWhile Scan.isGap
  let start := offset + Text.byteLength gap
  let startLine := line + UInt32.ofNat (gap.count '\n')
  match _hRest : chars.dropWhile Scan.isGap with
  | [] => [endAt start startLine]
  | c :: cs =>
    let more := (Scan.lexeme c cs).2
    let text := c :: cs.take more
    ofLexeme c cs start startLine ::
      scan (cs.drop more) (start + Text.byteLength text) (startLine + UInt32.ofNat (text.count '\n'))
termination_by chars.length
decreasing_by
  have hDrop := (List.dropWhile_suffix (l := chars) Scan.isGap).length_le
  rw [_hRest] at hDrop
  simp only [List.length_cons, List.length_drop] at hDrop ⊢
  omega

/-- The tokens of a source, comments and the end of the input included. -/
def tokens (source : String) : List Token := scan source.toList 0 1

/-- The findings that come with the tokens. -/
def complaints (tokens : List Token) : List Diagnostic := tokens.filterMap complaint?

theorem scan_of_gap {chars : List Char} (offset : Nat) (line : LineNumber)
    (h : chars.dropWhile Scan.isGap = []) :
    scan chars offset line =
      [endAt (offset + Text.byteLength (chars.takeWhile Scan.isGap))
        (line + UInt32.ofNat ((chars.takeWhile Scan.isGap).count '\n'))] := by
  rw [scan]
  split
  · rfl
  · simp_all

theorem scan_of_lexeme {chars cs : List Char} {c : Char} (offset : Nat) (line : LineNumber)
    (h : chars.dropWhile Scan.isGap = c :: cs) :
    let start := offset + Text.byteLength (chars.takeWhile Scan.isGap)
    let startLine := line + UInt32.ofNat ((chars.takeWhile Scan.isGap).count '\n')
    let text := c :: cs.take (Scan.lexeme c cs).2
    scan chars offset line = ofLexeme c cs start startLine ::
      scan (cs.drop (Scan.lexeme c cs).2) (start + Text.byteLength text)
        (startLine + UInt32.ofNat (text.count '\n')) := by
  intro start startLine text
  rw [scan]
  split
  · next hNil => cases h.symm.trans hNil
  · next hCons =>
    cases h.symm.trans hCons
    rfl

theorem scan_ne_nil (chars : List Char) (offset : Nat) (line : LineNumber) :
    scan chars offset line ≠ [] := by
  unfold scan
  split <;> simp

theorem isEnd_of_mem_getLast?_scan (chars : List Char) (offset : Nat) (line : LineNumber) :
    ∀ t ∈ (scan chars offset line).getLast?, t.isEnd = true := by
  intro t hMem
  fun_induction scan chars offset line with
  | case1 =>
    simp only [List.getLast?_singleton, Option.mem_def, Option.some.injEq] at hMem
    exact hMem ▸ rfl
  | case2 _ _ _ _ _ _ _ _ _ _ _ ih =>
    rw [List.getLast?_cons, List.getLast?_eq_some_getLast (scan_ne_nil _ _ _), Option.getD_some] at hMem
    exact ih (Option.some.inj hMem ▸ List.getLast?_eq_some_getLast (scan_ne_nil _ _ _))

end Token

/-- A cursor over the tokens of a source. -/
structure Lexer where
  /-- All tokens of the source. -/
  tokens : List Token
  /-- The tokens that are still to come. -/
  pending : List Token
  /-- Whether the end of the input has been handed out. -/
  finished : Bool
  /-- The findings about the tokens handed out so far. -/
  findings : Log

namespace Lexer

/-- A lexer at the first of the tokens. -/
def ofTokens (tokens : List Token) : Lexer := ⟨tokens, tokens, false, .empty⟩

/-- A lexer at the start of a source. -/
def ofSource (source : String) : Lexer := ofTokens (Token.tokens source)

/-- The next token. The end of the input is handed out again and again. -/
def next (lexer : Lexer) : Token × Lexer :=
  match lexer.pending with
  | [] => (default, { lexer with finished := true })
  | [last] => (last, { lexer with finished := true })
  | t :: rest =>
    (t, { lexer with pending := rest, findings := lexer.findings.append t.complaint?.toList })

/-- The next token, unless the end of the input has been handed out. -/
def next? (lexer : Lexer) : Option Token × Lexer :=
  if lexer.finished then (none, lexer) else
    let (t, lexer) := lexer.next
    (some t, lexer)

/-- The tokens from the cursor on, and the lexer after them. -/
def rest (lexer : Lexer) : List Token × Lexer :=
  if lexer.finished then ([], lexer) else
    (lexer.pending,
      { lexer with
        pending := lexer.pending.drop (lexer.pending.length - 1)
        finished := true
        findings := lexer.findings.append (Token.complaints lexer.pending) })

/-- The lexer at the start of its source again. -/
def reset (lexer : Lexer) : Lexer := ofTokens lexer.tokens

@[simp] theorem next_tokens (lexer : Lexer) : lexer.next.2.tokens = lexer.tokens := by
  unfold next
  split <;> rfl

theorem reset_next (lexer : Lexer) : lexer.next.2.reset = lexer.reset := by
  simp [reset]

end Lexer

end CfScript
