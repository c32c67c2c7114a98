import CfScript.Proofs.Lexemes
import CfScript.Proofs.Moved

/-!
# The tokens of texts with a line feed between them

No token but a comment in slashes and stars or a string holds a line feed, and these end with a
character of their own. So a text whose tokens are all valid has the same ones in front of a line
feed, and what stands behind the line feed has its own tokens, further on in the source.

## Main results

* `lexeme_append_newline`: a valid token is the same in front of a line feed;
* `scan_moved`: what stands further on has the same tokens further on;
* `tokens_join`: the tokens of two sources with a line feed between them.
-/

namespace CfScript

namespace Text

/-- What stands first in a text stands first in a longer one. -/
theorem cut_append {pattern chars before after : List Char} (rest : List Char)
    (h : cut pattern chars = some (before, after)) :
    cut pattern (chars ++ rest) = some (before, after ++ rest) := by
  induction chars generalizing before with
  | nil =>
    unfold cut at h
    split at h
    next hEmpty =>
      cases h
      obtain rfl := List.isEmpty_iff.1 hEmpty
      cases rest <;> rfl
    next => cases h
  | cons c cs ih =>
    have hLong := congrArg List.length (cut_eq_some h)
    unfold cut at h
    rw [List.cons_append, cut]
    split at h
    next hHead =>
      cases h
      have hPrefix := List.isPrefixOf_iff_prefix.1 hHead
      have hLonger := hPrefix.trans (List.prefix_append (c :: cs) rest)
      rw [← List.cons_append, if_pos (List.isPrefixOf_iff_prefix.2 hLonger),
        List.drop_append_of_le_length hPrefix.length_le]
    next hHead =>
      obtain ⟨⟨front, back⟩, hCut, hEq⟩ := Option.map_eq_some_iff.1 h
      cases hEq
      rw [if_neg, ih hCut]
      · rfl
      · intro hLonger
        refine hHead (List.isPrefixOf_iff_prefix.2 ?_)
        refine List.prefix_of_prefix_length_le (List.isPrefixOf_iff_prefix.1 hLonger)
          (List.prefix_append (c :: cs) rest) ?_
        simp only [List.length_append, List.length_cons] at hLong ⊢
        omega

end Text

namespace Scan

/-! ## A token in front of a line feed -/

variable {c : Char} {cs : List Char} (more : List Char)

theorem follows_newline : Follows ('\n' :: more) := follows_of_isBreak rfl more

/-- A text without the character stands in front of it, or it does not stand there at all. -/
theorem prefix_append_cons {d : Char} {pattern : List Char} (h : d ∉ pattern) (chars : List Char) :
    pattern <+: chars ++ d :: more ↔ pattern <+: chars := by
  refine ⟨fun hPrefix => ?_, fun hPrefix => hPrefix.trans (List.prefix_append _ _)⟩
  by_cases hLe : pattern.length ≤ chars.length
  · exact List.prefix_of_prefix_length_le hPrefix (List.prefix_append _ _) hLe
  · obtain ⟨tail, hTail⟩ : chars <+: pattern :=
      List.prefix_of_prefix_length_le (List.prefix_append _ _) hPrefix (by omega)
    rw [← hTail, List.prefix_append_right_inj] at hPrefix
    cases tail with
    | nil =>
      rw [← hTail, List.append_nil] at hLe
      exact absurd (Nat.le_refl _) hLe
    | cons e es =>
      obtain ⟨rfl, -⟩ := List.cons_prefix_cons.1 hPrefix
      exact absurd (hTail ▸ List.mem_append_right chars List.mem_cons_self) h

theorem symbol_append_newline : symbol c (cs ++ '\n' :: more) = symbol c cs := by
  have hLongest : Symbol.longest? (c :: (cs ++ '\n' :: more)) = Symbol.longest? (c :: cs) := by
    refine List.find?_congr fun s _ => ?_
    have hFeed (s : Symbol) : '\n' ∉ s.spelling := by cases s <;> decide
    rw [Bool.eq_iff_iff, List.isPrefixOf_iff_prefix, List.isPrefixOf_iff_prefix,
      ← List.cons_append]
    exact prefix_append_cons more (hFeed s) (c :: cs)
  rw [symbol, hLongest, symbol]

theorem blockComment_append (h : (blockComment cs).1 ≠ .invalid) (hHead : cs ≠ []) :
    blockComment (cs ++ more) = blockComment cs := by
  have hDrop : (cs ++ more).drop 1 = cs.drop 1 ++ more :=
    List.drop_append_of_le_length (List.length_pos_iff.2 hHead)
  rw [blockComment, hDrop]
  unfold blockComment at h ⊢
  cases hCut : Text.cut ['*', '/'] (cs.drop 1) with
  | none =>
    simp only [hCut] at h
    exact absurd rfl h
  | some parts => rw [Text.cut_append more hCut]

theorem head?_append_newline (cs : List Char) {d : Char} (hd : d ≠ '\n') :
    (cs ++ '\n' :: more).head? = some d ↔ cs.head? = some d := by
  cases cs with
  | nil => simp [Ne.symm hd]
  | cons e es => rfl

/-- A valid token is the same in front of a line feed. -/
theorem lexeme_append_newline (h : (lexeme c cs).1 ≠ .invalid) :
    lexeme c (cs ++ '\n' :: more) = lexeme c cs := by
  have hFollows := follows_newline more
  have hSlash := head?_append_newline more cs (show '/' ≠ '\n' by decide)
  have hStar := head?_append_newline more cs (show '*' ≠ '\n' by decide)
  unfold lexeme at h ⊢
  simp only [hSlash, hStar]
  split at h
  next hWord => rw [if_pos hWord, word_append hFollows, if_pos hWord]
  next hWord =>
    rw [if_neg hWord, if_neg hWord]
    split at h
    next hDigit =>
      rw [if_pos hDigit, if_pos hDigit]
      exact number_append hFollows (.inl rfl)
    next hDigit =>
      rw [if_neg hDigit, if_neg hDigit]
      split at h
      next hQuote =>
        rw [if_pos hQuote, if_pos hQuote]
        refine quoted_append (fun d hd hSame => ?_) ?_
        · cases hd
          rcases hQuote with rfl | rfl <;> cases hSame
        · unfold quoted at h ⊢
          split
          · rfl
          · simp_all
      next hQuote =>
        rw [if_neg hQuote, if_neg hQuote]
        split at h
        next hLine =>
          rw [if_pos hLine, if_pos hLine, run_append]
          simp
        next hLine =>
          rw [if_neg hLine, if_neg hLine]
          split at h
          next hBlock =>
            rw [if_pos hBlock, if_pos hBlock]
            refine blockComment_append _ h fun hNil => ?_
            simp [hNil] at hBlock
          next hBlock =>
            rw [if_neg hBlock, if_neg hBlock]
            exact symbol_append_newline more

end Scan

/-! ## Whole texts -/

/-- How far a source stands further on behind another one and a line feed. -/
def Distance.behind (source : String) : Distance :=
  ⟨Text.byteLength source.toList + 1, UInt32.ofNat (source.toList.count '\n' + 1)⟩

namespace Token

/-- A text is blank, or it is a gap and goes on with a token. -/
theorem gap_cases (chars : List Char) :
    chars.all Scan.isGap = true ∨
      ∃ gap c cs, gap.all Scan.isGap = true ∧ Scan.isGap c = false ∧ chars = gap ++ c :: cs := by
  have hSplit := List.takeWhile_append_dropWhile (p := Scan.isGap) (l := chars)
  have hGap : (chars.takeWhile Scan.isGap).all Scan.isGap = true := List.all_takeWhile
  cases hRest : chars.dropWhile Scan.isGap with
  | nil =>
    rw [hRest, List.append_nil] at hSplit
    exact .inl (hSplit ▸ hGap)
  | cons c cs =>
    have hHead := List.head?_dropWhile_not Scan.isGap chars
    rw [hRest] at hHead hSplit
    exact .inr ⟨_, c, cs, hGap, by simpa using hHead, hSplit.symm⟩

/-- Blanks in front of a text only move its tokens. -/
theorem scan_gap_append {gap : List Char} (hGap : gap.all Scan.isGap = true) (rest : List Char)
    (offset : Nat) (line : LineNumber) :
    scan (gap ++ rest) offset line =
      scan rest (offset + Text.byteLength gap) (line + UInt32.ofNat (gap.count '\n')) := by
  have hTake : (gap ++ rest).takeWhile Scan.isGap = gap ++ rest.takeWhile Scan.isGap :=
    List.takeWhile_append_of_pos (List.all_eq_true.1 hGap)
  have hDrop : (gap ++ rest).dropWhile Scan.isGap = rest.dropWhile Scan.isGap :=
    List.dropWhile_append_of_pos (List.all_eq_true.1 hGap)
  cases hRest : rest.dropWhile Scan.isGap with
  | nil =>
    rw [scan_of_gap _ _ hRest, scan_of_gap _ _ (hDrop.trans hRest), hTake, Text.byteLength_append,
      List.count_append, UInt32.ofNat_add, Nat.add_assoc, UInt32.add_assoc]
  | cons c cs =>
    rw [scan_of_lexeme _ _ hRest, scan_of_lexeme _ _ (hDrop.trans hRest), hTake,
      Text.byteLength_append, List.count_append]
    simp only [UInt32.ofNat_add, Nat.add_assoc, UInt32.add_assoc]

/-- The tokens of a text that begins with one. -/
theorem scan_cons {c : Char} (hc : Scan.isGap c = false) (cs : List Char) (offset : Nat)
    (line : LineNumber) :
    scan (c :: cs) offset line = ofLexeme c cs offset line ::
      scan (cs.drop (Scan.lexeme c cs).2)
        (offset + Text.byteLength (c :: cs.take (Scan.lexeme c cs).2))
        (line + UInt32.ofNat ((c :: cs.take (Scan.lexeme c cs).2).count '\n')) := by
  have hDrop : (c :: cs).dropWhile Scan.isGap = c :: cs :=
    List.dropWhile_cons_of_neg (by simp [hc])
  have hTake : (c :: cs).takeWhile Scan.isGap = [] := List.takeWhile_cons_of_neg (by simp [hc])
  have hLine : line + UInt32.ofNat (([] : List Char).count '\n') = line := UInt32.add_zero line
  rw [scan_of_lexeme _ _ hDrop, hTake, hLine]
  rfl

/-- A token and what stands behind it are the text that begins with the token. -/
theorem lexeme_append_drop (c : Char) (cs : List Char) :
    c :: cs.take (Scan.lexeme c cs).2 ++ cs.drop (Scan.lexeme c cs).2 = c :: cs := by
  rw [List.cons_append, List.take_append_drop]

/-- A valid token and what stands behind it, in front of a line feed. -/
theorem scan_cons_newline {c : Char} (hc : Scan.isGap c = false) {cs : List Char}
    (hValid : (Scan.lexeme c cs).1 ≠ .invalid) (more : List Char) (offset : Nat) (line : LineNumber) :
    scan (c :: cs ++ '\n' :: more) offset line = ofLexeme c cs offset line ::
      scan (cs.drop (Scan.lexeme c cs).2 ++ '\n' :: more)
        (offset + Text.byteLength (c :: cs.take (Scan.lexeme c cs).2))
        (line + UInt32.ofNat ((c :: cs.take (Scan.lexeme c cs).2).count '\n')) := by
  have hLexeme := Scan.lexeme_append_newline more hValid
  have hLe := Scan.lexeme_le c cs
  have hTake : (cs ++ '\n' :: more).take (Scan.lexeme c cs).2 = cs.take (Scan.lexeme c cs).2 :=
    List.take_append_of_le_length hLe
  have hDrop : (cs ++ '\n' :: more).drop (Scan.lexeme c cs).2 =
      cs.drop (Scan.lexeme c cs).2 ++ '\n' :: more :=
    List.drop_append_of_le_length hLe
  have hSame : ofLexeme c (cs ++ '\n' :: more) offset line = ofLexeme c cs offset line := by
    simp only [ofLexeme, hLexeme, hTake]
  rw [List.cons_append, scan_cons hc, hSame, hLexeme, hTake, hDrop]

/-- A text whose tokens are valid has the same tokens in front of a line feed, and the rest has its
own. -/
theorem scan_join (chars more : List Char) (offset : Nat) (line : LineNumber)
    (h : ∀ t ∈ scan chars offset line, t.kind ≠ .invalid) :
    scan (chars ++ '\n' :: more) offset line = (scan chars offset line).dropLast ++
      scan more (offset + (Text.byteLength chars + 1))
        (line + UInt32.ofNat (chars.count '\n' + 1)) := by
  induction hSize : chars.length using Nat.strongRecOn generalizing chars offset line with
  | ind size ih =>
    rcases gap_cases chars with hGap | ⟨gap, c, cs, hGap, hc, rfl⟩
    · have hAll : (chars ++ ['\n']).all Scan.isGap = true := by
        rw [List.all_append, hGap]
        rfl
      rw [scan_of_gap _ _ (List.dropWhile_eq_nil_iff.2 (List.all_eq_true.1 hGap)), List.append_cons,
        scan_gap_append hAll, Text.byteLength_append, List.count_append]
      rfl
    · have hShorter : (cs.drop (Scan.lexeme c cs).2).length < size := by
        rw [List.length_drop, ← hSize, List.length_append, List.length_cons]
        omega
      have hText := lexeme_append_drop c cs
      have hBytes := congrArg Text.byteLength hText
      have hLines := congrArg (List.count '\n') hText
      rw [Text.byteLength_append] at hBytes
      rw [List.count_append] at hLines
      rw [scan_gap_append hGap, scan_cons hc, List.forall_mem_cons] at h
      rw [List.append_assoc, scan_gap_append hGap, scan_gap_append hGap,
        scan_cons_newline hc h.1, scan_cons hc, ih _ hShorter _ _ _ h.2 rfl,
        List.dropLast_cons_of_ne_nil (scan_ne_nil _ _ _), List.cons_append, Text.byteLength_append,
        List.count_append, ← hBytes, ← hLines]
      simp only [UInt32.ofNat_add, Nat.add_assoc, UInt32.add_assoc]

theorem moved_ofLexeme (d : Distance) (c : Char) (cs : List Char) (start : Nat) (line : LineNumber) :
    (ofLexeme c cs start line).moved d = ofLexeme c cs (start + d.bytes) (line + d.lines) := by
  simp only [ofLexeme, moved, Span.moved_ofLength]

/-- What stands further on has the same tokens further on. -/
theorem scan_moved (d : Distance) (chars : List Char) (offset : Nat) (line : LineNumber) :
    scan chars (offset + d.bytes) (line + d.lines) = (scan chars offset line).map (moved d) := by
  have hLines (a b : LineNumber) : a + d.lines + b = a + b + d.lines := by
    rw [UInt32.add_assoc, UInt32.add_comm d.lines, UInt32.add_assoc]
  fun_induction scan chars offset line with
  | case1 chars offset line gap start startLine hRest =>
    rw [scan_of_gap _ _ hRest, List.map_singleton, moved_endAt]
    simp only [start, startLine, gap, Nat.add_right_comm, hLines]
  | case2 chars offset line gap start startLine c cs hRest more text ih =>
    rw [scan_of_lexeme _ _ hRest, List.map_cons, moved_ofLexeme, ← ih]
    simp only [start, startLine, gap, text, more, Nat.add_right_comm, hLines]

/-- Two sources with a line feed between them have the tokens of both, those of the second one
further on. -/
theorem tokens_join {first : String} (h : ∀ t ∈ tokens first, t.kind ≠ .invalid) (second : String) :
    tokens (first ++ "\n" ++ second) =
      (tokens first).dropLast ++ (tokens second).map (moved (.behind first)) := by
  have hChars : (first ++ "\n" ++ second).toList = first.toList ++ '\n' :: second.toList := by simp
  rw [tokens, hChars, scan_join _ _ _ _ h, tokens, tokens, ← scan_moved]
  rfl

end Token

end CfScript
