import CfScript.Proofs.LineNumbers
import CfScript.Proofs.SourceStream
import Mathlib.Algebra.Group.Nat.Defs
import Mathlib.Data.List.Forall2

/-!
# The tokens of a source say all of it

A source falls apart into gaps and tokens in turn, and `Tiles` says how: each token is a piece of
the text behind a gap, it knows its text, the bytes and the line feeds in front of it, and after the
last gap stands the end of the input. The scanner tiles every text. What a reader may rely on
follows from the tiling: the spans of the tokens lie side by side in the order of the tokens, the
text under each is its lexeme, and what lies between them is blank.

Positions fit in 32 bits, so the spans tell the pieces of a source apart only below that size.

## Main results

* `Token.tiles_scan`: the scanner tiles a text;
* `Lexer.rest_lossless`: the tokens and findings of a source.
-/

namespace CfScript

/-! ## Gaps and tokens in turn -/

namespace Token

/-- The token that is the text `text` behind the characters `front`. -/
def behind (front text : List Char) (kind : TokenKind) : Token :=
  ⟨kind, String.ofList text, Span.ofLength (Text.byteLength front) (Text.byteLength text),
    1 + UInt32.ofNat (front.count '\n')⟩

/-- How a text falls apart into gaps and tokens where it stands behind the characters `front`. -/
inductive Tiles : List Char → List Char → List Token → Prop where
  /-- A last gap and the end of the input. -/
  | gap {front gap : List Char} (hGap : gap.all Scan.isGap = true) :
    Tiles front gap [behind (front ++ gap) [] .endOfInput]
  /-- A gap, a token and what stands behind it. -/
  | token {front gap text rest : List Char} {kind : TokenKind} {ts : List Token}
    (hGap : gap.all Scan.isGap = true) (hText : text ≠ []) (hKind : kind ≠ .endOfInput)
    (h : Tiles (front ++ gap ++ text) rest ts) :
    Tiles front (gap ++ (text ++ rest)) (behind (front ++ gap) text kind :: ts)

theorem behind_end (front gap : List Char) :
    behind (front ++ gap) [] .endOfInput =
      endAt (Text.byteLength front + Text.byteLength gap)
        (1 + UInt32.ofNat (front.count '\n') + UInt32.ofNat (gap.count '\n')) := by
  simp only [behind, endAt, Text.byteLength_append, List.count_append, UInt32.ofNat_add,
    ← UInt32.add_assoc]
  rfl

theorem behind_lexeme (front gap : List Char) (c : Char) (cs : List Char) :
    behind (front ++ gap) (c :: cs.take (Scan.lexeme c cs).2) (Scan.lexeme c cs).1 =
      ofLexeme c cs (Text.byteLength front + Text.byteLength gap)
        (1 + UInt32.ofNat (front.count '\n') + UInt32.ofNat (gap.count '\n')) := by
  simp only [behind, ofLexeme, Text.byteLength_append, List.count_append, UInt32.ofNat_add,
    ← UInt32.add_assoc]

/-- The scanner tiles a text. -/
theorem tiles_scan (front chars : List Char) :
    Tiles front chars
      (scan chars (Text.byteLength front) (1 + UInt32.ofNat (front.count '\n'))) := by
  induction hSize : chars.length using Nat.strongRecOn generalizing front chars with
  | ind size ih =>
    have hSplit := List.takeWhile_append_dropWhile (p := Scan.isGap) (l := chars)
    have hGap : (chars.takeWhile Scan.isGap).all Scan.isGap = true := List.all_takeWhile
    cases hRest : chars.dropWhile Scan.isGap with
    | nil =>
      rw [hRest, List.append_nil] at hSplit
      rw [scan_of_gap _ _ hRest, ← behind_end, hSplit]
      exact .gap (hSplit ▸ hGap)
    | cons c cs =>
      let text := c :: cs.take (Scan.lexeme c cs).2
      have hText : text ++ cs.drop (Scan.lexeme c cs).2 = c :: cs := by
        simp [text, List.take_append_drop]
      have hShorter : (cs.drop (Scan.lexeme c cs).2).length < size := by
        have hLength := congrArg List.length hSplit
        rw [hRest, List.length_append, List.length_cons] at hLength
        rw [List.length_drop]
        omega
      have hTail := ih _ hShorter (front ++ chars.takeWhile Scan.isGap ++ text) _ rfl
      have hTiles := Tiles.token hGap (List.cons_ne_nil c _) (Scan.lexeme_ne_endOfInput c cs) hTail
      rw [hText, ← hRest, hSplit, behind_lexeme] at hTiles
      rw [scan_of_lexeme _ _ hRest]
      simpa only [Text.byteLength_append, List.count_append, UInt32.ofNat_add, ← Nat.add_assoc,
        ← UInt32.add_assoc] using hTiles

/-! ## What a tiling says of its tokens -/

section

variable {front chars : List Char} {ts : List Token} {t : Token}

/-- The end of the input comes last and nowhere else. -/
theorem Tiles.ends (h : Tiles front chars ts) :
    ∃ body, ts = body ++ [behind (front ++ chars) [] .endOfInput] ∧
      ∀ t ∈ body, t.kind ≠ .endOfInput := by
  induction h with
  | gap => exact ⟨[], rfl, by simp⟩
  | @token front gap text rest kind ts _ _ hKind _ ih =>
    obtain ⟨body, rfl, hBody⟩ := ih
    refine ⟨behind (front ++ gap) text kind :: body, by simp, fun t hMem => ?_⟩
    rcases List.mem_cons.1 hMem with rfl | hMem
    · exact hKind
    · exact hBody t hMem

/-- Each token is a piece of the text. -/
theorem Tiles.exists_behind (h : Tiles front chars ts) (hMem : t ∈ ts) :
    ∃ gap text back kind, front ++ chars = front ++ gap ++ (text ++ back) ∧
      t = behind (front ++ gap) text kind ∧ (kind ≠ .endOfInput → text ≠ []) := by
  induction h with
  | @gap front gap _ =>
    exact ⟨gap, [], [], .endOfInput, by simp, List.mem_singleton.1 hMem, fun h => absurd rfl h⟩
  | @token front gap text rest kind ts _ hText _ _ ih =>
    rcases List.mem_cons.1 hMem with rfl | hMem
    · exact ⟨gap, text, rest, kind, by simp, rfl, fun _ => hText⟩
    · obtain ⟨between, text', back, kind', hSplit, rfl, hFilled⟩ := ih hMem
      exact ⟨gap ++ text ++ between, text', back, kind', by simpa using hSplit, by simp, hFilled⟩

/-- The bytes under a token of a small enough source. -/
theorem span_behind {text : List Char} (back : List Char) (kind : TokenKind)
    (hSize : Text.byteLength (front ++ (text ++ back)) ≤ BytePos.limit) :
    (behind front text kind).span.start.toNat = Text.byteLength front ∧
      (behind front text kind).span.stop.toNat = Text.byteLength front + Text.byteLength text := by
  simp only [Text.byteLength_append] at hSize
  exact ⟨BytePos.toNat_ofNat_of_le (by omega), BytePos.toNat_ofNat_of_le (by omega)⟩

/-- The tokens of a tiling stand behind what the tiling stands behind. -/
theorem Tiles.le_start (h : Tiles front chars ts)
    (hSize : Text.byteLength (front ++ chars) ≤ BytePos.limit) (hMem : t ∈ ts) :
    Text.byteLength front ≤ t.span.start.toNat := by
  obtain ⟨gap, text, back, kind, hSplit, rfl, -⟩ := h.exists_behind hMem
  rw [(span_behind back kind (hSplit ▸ hSize)).1, Text.byteLength_append]
  exact Nat.le_add_right ..

/-- The tokens stand in order, each behind the last byte of the one before. -/
theorem Tiles.pairwise (h : Tiles front chars ts)
    (hSize : Text.byteLength (front ++ chars) ≤ BytePos.limit) :
    ts.Pairwise fun a b => a.span.stop.toNat ≤ b.span.start.toNat := by
  induction h with
  | gap => exact List.pairwise_singleton ..
  | @token front gap text rest kind ts _ _ _ hTail ih =>
    have hRest : Text.byteLength (front ++ gap ++ text ++ rest) ≤ BytePos.limit := by
      simpa only [List.append_assoc] using hSize
    refine List.pairwise_cons.2 ⟨fun t hMem => ?_, ih hRest⟩
    rw [(span_behind rest kind (by simpa only [List.append_assoc] using hSize)).2,
      ← Text.byteLength_append]
    exact hTail.le_start hRest hMem

/-- The byte behind the last of the tokens; `start` if there is none. -/
def stopOf (start : Nat) (ts : List Token) : Nat :=
  (ts.getLast?.map (·.span.stop.toNat)).getD start

@[simp] theorem stopOf_nil (start : Nat) : stopOf start [] = start := rfl

@[simp] theorem stopOf_cons (start : Nat) (t : Token) (ts : List Token) :
    stopOf start (t :: ts) = stopOf t.span.stop.toNat ts := by
  cases h : ts.getLast? <;> simp [stopOf, List.getLast?_cons, h]

/-- Between a token and the one before it stands a gap. -/
theorem Tiles.gap_before (h : Tiles front chars ts)
    (hSize : Text.byteLength (front ++ chars) ≤ BytePos.limit) {before after : List Token}
    (hts : ts = before ++ t :: after) :
    ∃ gap, gap.all Scan.isGap = true ∧
      Text.sliceBytes (stopOf (Text.byteLength front) before) t.span.start.toNat (front ++ chars) =
        some gap := by
  induction h generalizing before with
  | @gap front gap hGap =>
    obtain ⟨rfl, rfl⟩ : before = [] ∧ behind (front ++ gap) [] .endOfInput = t := by
      cases before <;> simp_all
    refine ⟨gap, hGap, ?_⟩
    rw [(span_behind [] .endOfInput (by simpa using hSize)).1, Text.byteLength_append]
    simpa using Text.sliceBytes_append front gap []
  | @token front gap text rest kind ts hGap _ _ hTail ih =>
    have hBound : Text.byteLength (front ++ gap ++ (text ++ rest)) ≤ BytePos.limit := by
      simpa only [List.append_assoc] using hSize
    cases before with
    | nil =>
      obtain ⟨rfl, -⟩ := List.cons_eq_cons.1 hts
      refine ⟨gap, hGap, ?_⟩
      rw [(span_behind rest kind hBound).1, Text.byteLength_append]
      exact Text.sliceBytes_append front gap (text ++ rest)
    | cons p before =>
      obtain ⟨rfl, hTokens⟩ := List.cons_eq_cons.1 hts
      have hRest := ih (by simpa only [List.append_assoc] using hSize) hTokens
      rw [stopOf_cons, (span_behind rest kind hBound).2, ← Text.byteLength_append]
      simpa only [List.append_assoc] using hRest

end

/-! ## The tokens and findings of a source -/

/-- Whether a finding is an error of the scanner at a token. -/
def FoundAt (t : Token) (d : Diagnostic) : Prop :=
  d.phase = .lexer ∧ d.severity = .error ∧ d.span = t.span ∧ d.line = t.line

/-- What the tokens and findings of a source say about it. -/
structure Lossless (source : String) (ts : List Token) (findings : List Diagnostic) : Prop where
  /-- One end of the input comes last, at the end of the source; no other token is empty. -/
  ends : ∃ body last, ts = body ++ [last] ∧ last.kind = .endOfInput ∧
    last.span.start.toNat = Text.byteLength source.toList ∧
    last.span.stop.toNat = Text.byteLength source.toList ∧
    ∀ t ∈ body, t.kind ≠ .endOfInput ∧ t.span.start.toNat < t.span.stop.toNat
  /-- The tokens stand in order and share no byte. -/
  ordered : ts.Pairwise fun a b => a.span.stop.toNat ≤ b.span.start.toNat
  /-- The text under a token is its lexeme. -/
  sliced : ∀ t ∈ ts, t.span.slice source = some t.lexeme
  /-- In front of each token, back to the one before or to the start of the source, stand blanks. -/
  gaps : ∀ before t after, ts = before ++ t :: after → ∃ gap,
    Text.sliceBytes (stopOf 0 before) t.span.start.toNat source.toList = some gap ∧
      ∀ c ∈ gap, c ∈ [' ', '\t', '\r', '\n', '\x0c']
  /-- The line of a token is one more than the line feeds in front of it, counted in 32 bits. -/
  lines : ∀ t ∈ ts, ∃ front, Text.takeBytes t.span.start.toNat source.toList = some front ∧
    t.line = 1 + UInt32.ofNat (front.count '\n') ∧
      (front.count '\n' + 1 < 2 ^ 32 → t.line.toNat = 1 + front.count '\n')
  /-- The line of a token is that of its first byte in the line index. -/
  indexed : ∀ t ∈ ts, t.line = (LineIndex.ofText source).line t.span.start.toNat
  /-- Each invalid token comes with one finding, in order. -/
  findings : List.Forall₂ FoundAt (ts.filter (·.kind == .invalid)) findings

theorem mem_blanks_of_isGap {c : Char} (h : Scan.isGap c = true) :
    c ∈ [' ', '\t', '\r', '\n', '\x0c'] := by
  simpa [Scan.isGap, or_assoc] using h

/-- One finding comes with each invalid token. -/
theorem forall₂_complaints (ts : List Token) :
    List.Forall₂ FoundAt (ts.filter (·.kind == .invalid)) (complaints ts) := by
  induction ts with
  | nil => exact .nil
  | cons t ts ih =>
    by_cases h : t.kind = .invalid
    · have hFinding : t.complaint? = some (invalidText t.lexeme t.span t.line) := if_pos h
      rw [List.filter_cons_of_pos (by simpa using h), complaints, List.filterMap_cons_some hFinding]
      exact .cons ⟨rfl, rfl, rfl, rfl⟩ ih
    · have hFinding : t.complaint? = none := if_neg h
      rw [List.filter_cons_of_neg (by simpa using h), complaints, List.filterMap_cons_none hFinding]
      exact ih

/-- The tokens of a source of less than `2 ^ 32` bytes say all of it. -/
theorem lossless_tokens {source : String} (h : Text.byteLength source.toList < 2 ^ 32) :
    Lossless source (tokens source) (complaints (tokens source)) := by
  have hSize : Text.byteLength source.toList ≤ BytePos.limit := Nat.le_of_lt_succ h
  have hTiles : Tiles [] source.toList (tokens source) := tiles_scan [] source.toList
  -- A token with the text in front of it and behind it.
  have hPiece {t : Token} (hMem : t ∈ tokens source) : ∃ front text back kind,
      source.toList = front ++ (text ++ back) ∧ t = behind front text kind ∧
        (kind ≠ .endOfInput → text ≠ []) ∧ t.span.start.toNat = Text.byteLength front ∧
        t.span.stop.toNat = Text.byteLength front + Text.byteLength text := by
    obtain ⟨gap, text, back, kind, hSplit, rfl, hFilled⟩ := hTiles.exists_behind hMem
    have hSource : source.toList = gap ++ (text ++ back) := hSplit
    exact ⟨gap, text, back, kind, hSource, rfl, hFilled, span_behind back kind (hSource ▸ hSize)⟩
  refine ⟨?_, hTiles.pairwise hSize, ?_, ?_, ?_, ?_, forall₂_complaints _⟩
  · obtain ⟨body, hBody, hOthers⟩ := hTiles.ends
    have hWhole : Text.byteLength (source.toList ++ ([] ++ [])) ≤ BytePos.limit := by simpa using hSize
    have hEnd := span_behind [] .endOfInput hWhole
    refine ⟨body, _, hBody, rfl, hEnd.1, hEnd.2, fun t hMem => ⟨hOthers t hMem, ?_⟩⟩
    obtain ⟨front, text, back, kind, -, rfl, hFilled, hStart, hStop⟩ :=
      hPiece (hBody ▸ List.mem_append_left _ hMem)
    rw [hStart, hStop]
    cases text with
    | nil => exact absurd rfl (hFilled (hOthers _ hMem))
    | cons c cs =>
      have := c.utf8Size_pos
      simp only [Text.byteLength]
      omega
  · intro t hMem
    obtain ⟨front, text, back, kind, hSplit, rfl, -, hStart, hStop⟩ := hPiece hMem
    rw [Span.slice, hStart, hStop, hSplit, Text.sliceBytes_append]
    rfl
  · intro before t after hts
    obtain ⟨gap, hGap, hSlice⟩ := hTiles.gap_before hSize hts
    exact ⟨gap, hSlice, fun c hMem => mem_blanks_of_isGap (List.all_eq_true.1 hGap c hMem)⟩
  · intro t hMem
    obtain ⟨front, text, back, kind, hSplit, rfl, -, hStart, -⟩ := hPiece hMem
    exact ⟨front, by rw [hStart, hSplit, Text.takeBytes_append], rfl, LineIndex.toNat_one_add⟩
  · intro t hMem
    obtain ⟨front, text, back, kind, hSplit, rfl, -, hStart, -⟩ := hPiece hMem
    rw [hStart, LineIndex.line_ofText hSplit]
    rfl

end Token

/-! ## The lexer -/

namespace Lexer

/-- Reading a source of less than `2 ^ 32` bytes loses nothing of it. -/
theorem rest_lossless (source : String) (h : Text.byteLength source.toList < 2 ^ 32) :
    Token.Lossless source (ofSource source).rest.1 (ofSource source).rest.2.findings.entries := by
  have hFindings : (ofSource source).rest.2.findings.entries =
      Token.complaints (Token.tokens source) := by
    simp [ofSource, ofTokens, rest, Log.append, Log.empty]
  rw [hFindings]
  exact Token.lossless_tokens h

theorem rest_lossless_openString :
    Text.byteLength "é = 'x\n".toList < 2 ^ 32 ∧
      Token.Lossless "é = 'x\n" (ofSource "é = 'x\n").rest.1
        (ofSource "é = 'x\n").rest.2.findings.entries :=
  ⟨by decide, rest_lossless _ (by decide)⟩

end Lexer

end CfScript
