import CfScript.Proofs.LikeStatements
import CfScript.Proofs.PlainText
import CfScript.Proofs.GrammarMarks
import CfScript.Proofs.WholeTree

/-!
# Tokens with other blanks between them

The scanner takes a token by looking on as far as it can, so what is behind a token could matter to it.
It does not: each rule that gives a word, a literal or a symbol gives the same on the characters it
took, with nothing behind them. So the lexeme of every token is that token on its own. In front of a
blank it stays what it is, and so the tokens of a source can be set with any blanks between them.

## Main results

* `Scan.kindOf?_take_lexeme`: what the scanner takes for a token is that token on its own;
* `Token.kindOf?_lexeme`: so is the lexeme of every token of a source;
* `Token.tokens_respaced`: the lexemes of a source with any blanks between them are its tokens.
-/

namespace CfScript

namespace Scan

/-! ## On the characters that were taken -/

variable {chars : List Char} {n : Nat}

theorem run_take {p : Char → Bool} (h : run p chars ≤ n) : run p (chars.take n) = run p chars := by
  induction chars generalizing n with
  | nil => rw [List.take_nil]
  | cons c cs ih =>
    by_cases hc : p c = true
    · have hRun : run p (c :: cs) = run p cs + 1 := by simp [run, hc]
      cases n with
      | zero => omega
      | succ n =>
        have hTail : run p (cs.take n) = run p cs := ih (by omega)
        rw [List.take_succ_cons, hRun, ← hTail]
        simp [run, hc]
    · cases n <;> simp [run, hc]

theorem fraction_take (h : fraction chars ≤ n) : fraction (chars.take n) = fraction chars := by
  cases n with
  | zero =>
    rw [List.take_zero]
    exact (Nat.le_zero.1 h).symm
  | succ n =>
    cases chars with
    | nil => rfl
    | cons c cs =>
      rw [List.take_succ_cons]
      by_cases hc : c = '.'
      · subst hc
        have hDigits : run Char.isDigit (cs.take n) = run Char.isDigit cs := by
          refine run_take ?_
          simp only [fraction] at h
          split at h <;> omega
        simp only [fraction, hDigits]
      · simp [fraction, hc]

theorem signedDigits_take (h : signedDigits chars ≤ n) :
    signedDigits (chars.take n) = signedDigits chars := by
  cases n with
  | zero =>
    rw [List.take_zero]
    exact (Nat.le_zero.1 h).symm
  | succ n =>
    cases chars with
    | nil => rfl
    | cons c cs =>
      rw [List.take_succ_cons]
      by_cases hSign : c = '+' ∨ c = '-'
      · have hDigits : run Char.isDigit (cs.take n) = run Char.isDigit cs := by
          refine run_take ?_
          simp only [signedDigits, if_pos hSign] at h
          split at h <;> omega
        simp only [signedDigits, if_pos hSign, hDigits]
      · simp only [signedDigits, if_neg hSign] at h ⊢
        exact run_take h

theorem exponent_take (h : exponent chars ≤ n) : exponent (chars.take n) = exponent chars := by
  cases n with
  | zero =>
    rw [List.take_zero]
    exact (Nat.le_zero.1 h).symm
  | succ n =>
    cases chars with
    | nil => rfl
    | cons c cs =>
      rw [List.take_succ_cons]
      by_cases hLetter : c = 'e' ∨ c = 'E'
      · have hDigits : signedDigits (cs.take n) = signedDigits cs := by
          refine signedDigits_take ?_
          simp only [exponent, if_pos hLetter] at h
          split at h <;> omega
        simp only [exponent, if_pos hLetter, hDigits]
      · simp only [exponent, if_neg hLetter]

theorem number_take (cs : List Char) : number (cs.take (number cs).2) = number cs := by
  have hDigits : run Char.isDigit (cs.take (number cs).2) = run Char.isDigit cs :=
    run_take (by simp only [number]; omega)
  have hPlaces : fraction ((cs.take (number cs).2).drop (run Char.isDigit cs)) =
      fraction (cs.drop (run Char.isDigit cs)) := by
    rw [List.drop_take]
    exact fraction_take (by simp only [number]; omega)
  have hPower : exponent (((cs.take (number cs).2).drop (run Char.isDigit cs)).drop
      (fraction (cs.drop (run Char.isDigit cs)))) =
        exponent ((cs.drop (run Char.isDigit cs)).drop (fraction (cs.drop (run Char.isDigit cs)))) := by
    rw [List.drop_take, List.drop_take]
    exact exponent_take (by simp only [number]; omega)
  rw [number, hDigits, hPlaces, hPower]
  rfl

theorem word_take (c : Char) (cs : List Char) : word c (cs.take (word c cs).2) = word c cs := by
  have hLength : (word c cs).2 = run isWordPart cs := rfl
  have hRun : run isWordPart (cs.take (run isWordPart cs)) = run isWordPart cs :=
    run_take (Nat.le_refl _)
  rw [hLength, word, hRun, List.take_take, Nat.min_self]
  rfl

theorem quoted_take {quote : Char} {cs : List Char} (h : (quoted quote cs).1 = .string) :
    quoted quote (cs.take (quoted quote cs).2) = quoted quote cs := by
  cases hClosing : closingQuote quote cs with
  | none => simp [quoted, hClosing] at h
  | some length =>
    have hAgain : closingQuote quote (cs.take length) = some length := by
      obtain ⟨body, rest, rfl, rfl, hPaired, -⟩ := closingQuote_eq_some_iff.1 hClosing
      exact closingQuote_eq_some_iff.2 ⟨body, [], by simp [List.take_append], rfl, hPaired, by simp⟩
    simp only [quoted, hClosing, hAgain]

theorem symbol_take {c : Char} {cs : List Char} {s : Symbol} (h : (symbol c cs).1 = .symbol s) :
    c :: cs.take (symbol c cs).2 = s.spelling := by
  unfold symbol at h ⊢
  split at h
  next s' hLongest =>
    cases h
    have hPos := List.length_pos_iff.2 s.spelling_ne_nil
    calc c :: cs.take (s.spelling.length - 1)
        = (c :: cs).take (s.spelling.length - 1 + 1) := rfl
      _ = (c :: cs).take s.spelling.length := by rw [Nat.sub_add_cancel hPos]
      _ = s.spelling := (List.prefix_iff_eq_take.1 (Symbol.longest?_prefix hLongest)).symm
  next => cases h

/-! ## Lexemes on their own -/

variable {c : Char} {cs : List Char}

theorem kindOf?_of_take (hGap : isGap c = false)
    (h : lexeme c (cs.take (lexeme c cs).2) = lexeme c cs) :
    kindOf? (String.ofList (c :: cs.take (lexeme c cs).2)) = some (lexeme c cs).1 := by
  have hLength : (cs.take (lexeme c cs).2).length = (lexeme c cs).2 :=
    List.length_take_of_le (lexeme_le c cs)
  simp [kindOf?, hGap, h, hLength]

/-- What the scanner takes for a word, a literal or a symbol is that on its own. -/
theorem kindOf?_take_lexeme (hGap : isGap c = false) (hValid : (lexeme c cs).1 ≠ .invalid)
    (hSeen : (lexeme c cs).1.isTrivia = false) :
    kindOf? (String.ofList (c :: cs.take (lexeme c cs).2)) = some (lexeme c cs).1 := by
  by_cases hWord : isWordStart c = true
  · have hLexeme (cs : List Char) : lexeme c cs = word c cs := if_pos hWord
    exact kindOf?_of_take hGap (by simpa only [hLexeme] using word_take c cs)
  by_cases hDigit : c.isDigit = true
  · have hLexeme (cs : List Char) : lexeme c cs = number cs := by
      rw [lexeme, if_neg hWord, if_pos hDigit]
    exact kindOf?_of_take hGap (by simpa only [hLexeme] using number_take cs)
  by_cases hQuote : c = '"' ∨ c = '\''
  · have hLexeme (cs : List Char) : lexeme c cs = quoted c cs := by
      rw [lexeme, if_neg hWord, if_neg hDigit, if_pos hQuote]
    have hString : (quoted c cs).1 = .string := by
      rw [hLexeme] at hValid
      unfold quoted at hValid ⊢
      split at hValid
      next => rfl
      next => exact absurd rfl hValid
    exact kindOf?_of_take hGap (by simpa only [hLexeme] using quoted_take hString)
  by_cases hLine : c = '/' ∧ cs.head? = some '/'
  · rw [lexeme, if_neg hWord, if_neg hDigit, if_neg hQuote, if_pos hLine] at hSeen
    cases hSeen
  by_cases hBlock : c = '/' ∧ cs.head? = some '*'
  · rw [lexeme, if_neg hWord, if_neg hDigit, if_neg hQuote, if_neg hLine, if_pos hBlock]
      at hValid hSeen
    unfold blockComment at hValid hSeen
    split at hSeen
    next => cases hSeen
    next => simp_all
  have hLexeme : lexeme c cs = symbol c cs := by
    rw [lexeme, if_neg hWord, if_neg hDigit, if_neg hQuote, if_neg hLine, if_neg hBlock]
  obtain ⟨s, hSymbol⟩ : ∃ s, (symbol c cs).1 = .symbol s := by
    rw [hLexeme] at hValid
    unfold symbol at hValid ⊢
    split at hValid
    next s _ => exact ⟨s, rfl⟩
    next => exact absurd rfl hValid
  have hText : String.ofList (c :: cs.take (symbol c cs).2) = s.text := by
    rw [symbol_take hSymbol, Symbol.text]
  rw [hLexeme, hText, hSymbol, kindOf?_text]

end Scan

namespace Token

/-! ## The lexemes of a source -/

/-- The lexeme of a token that the parser sees is that token on its own. -/
theorem kindOf?_lexeme {source : String} {t : Token} (h : t ∈ tokens source)
    (hValid : t.kind ≠ .invalid) (hSeen : t.kind.isTrivia = false) (hEnd : t.isEnd = false) :
    Scan.kindOf? t.lexeme = some t.kind := by
  have hAll : ∀ t ∈ scan source.toList 0 1, t.kind ≠ .invalid → t.kind.isTrivia = false →
      t.isEnd = false → Scan.kindOf? t.lexeme = some t.kind := by
    refine forall_mem_scan (fun _ _ _ _ hEnd => by cases hEnd) ?_ source.toList 0 1
    intro c cs start line hGap hValid hSeen _
    exact Scan.kindOf?_take_lexeme hGap hValid hSeen
  exact hAll t h hValid hSeen hEnd

theorem isLexeme_of_mem_words {source : String} {t : Token} (hClean : complaints (tokens source) = [])
    (h : t ∈ words source) : Scan.IsLexeme t.lexeme t.kind := by
  obtain ⟨hMem, hWord⟩ := mem_words.1 h
  have hValid := complaints_eq_nil_iff.1 hClean t hMem
  refine ⟨kindOf?_lexeme hMem hValid hWord.1 hWord.2, ?_⟩
  cases hKind : t.kind <;> simp_all [Scan.isOperand, TokenKind.isTrivia, isEnd]

/-- The tokens of a source that the parser sees, and its end. -/
theorem visible_eq (source : String) :
    ∃ last, visible source = words source ++ [last] ∧ last.kind = .endOfInput ∧ last.lexeme = "" := by
  obtain ⟨body, last, hScan, hLast, hBody⟩ := scan_split source.toList 0 1
  have hTokens : tokens source = body ++ [last] := hScan
  have hKind : last.kind = .endOfInput := by simpa [isEnd] using hLast
  have hMem : last ∈ tokens source := by simp [hTokens]
  have hEmpty : last.lexeme = "" := (lexeme_eq_empty_iff hMem).2 hLast
  have hWords : body.filter (fun t => !t.kind.isTrivia && !t.isEnd) =
      body.filter (!·.kind.isTrivia) := List.filter_congr fun t ht => by simp [hBody t ht]
  refine ⟨last, ?_, hKind, hEmpty⟩
  rw [visible, words, hTokens, List.filter_append, List.filter_append, hWords]
  simp [hLast, hKind, TokenKind.isTrivia]

/-! ## Other blanks between lexemes -/

/-- The texts in a row, with one of the gaps between each two. -/
def respaced (gaps : List String) : List String → String
  | [] => ""
  | first :: rest => first ++ String.join (List.zipWith (· ++ ·) gaps rest)

theorem respaced_cons_cons (gap text next : String) (gaps texts : List String) :
    respaced (gap :: gaps) (text :: next :: texts) = text ++ (gap ++ respaced gaps (next :: texts)) := by
  simp only [respaced, List.zipWith_cons_cons, String.join_cons, String.append_assoc]

/-- The lexemes of tokens, set with any blanks between them, are tokens of the same kinds. -/
theorem scan_respaced {gaps : List String} {ts : List Token}
    (hTokens : ∀ t ∈ ts, Scan.IsLexeme t.lexeme t.kind) (hLength : gaps.length = ts.length - 1)
    (hGaps : ∀ gap ∈ gaps, gap ≠ "" ∧ gap.toList.all Scan.isGap = true) {lead : List Char}
    (hLead : lead.all Scan.isGap = true) (offset : Nat) (line : LineNumber) :
    ∃ body size last, scan (lead ++ (respaced gaps (ts.map (·.lexeme))).toList) offset line =
      body ++ [endAt size last] ∧
        body.map (fun t => (t.kind, t.lexeme)) = ts.map fun t => (t.kind, t.lexeme) := by
  have hEnd {gap : List Char} (hGap : gap.all Scan.isGap = true) (offset : Nat) (line : LineNumber) :
      ∃ size last, scan gap offset line = [endAt size last] :=
    ⟨_, _, scan_of_gap offset line (List.dropWhile_eq_nil_iff.2 (List.all_eq_true.1 hGap))⟩
  have hSame {t u : Token} (ht : Scan.IsLexeme t.lexeme t.kind) (hu : u.Spells t.lexeme) :
      (u.kind, u.lexeme) = (t.kind, t.lexeme) := by
    rw [hu.2, Option.some.inj (hu.1.symm.trans ht.1)]
  induction ts generalizing gaps lead offset line with
  | nil =>
    obtain ⟨size, last, hScan⟩ := hEnd hLead offset line
    exact ⟨[], size, last, by simpa [respaced] using hScan, rfl⟩
  | cons t ts ih =>
    obtain ⟨ht, hTokens⟩ := List.forall_mem_cons.1 hTokens
    cases ts with
    | nil =>
      obtain ⟨u, offset', line', hScan, hSpells⟩ := ht.stands_nil.scan hLead offset line
      obtain ⟨size, last, hLast⟩ := hEnd (show [].all Scan.isGap = true from rfl) offset' line'
      refine ⟨[u], size, last, ?_, by simp [hSame ht hSpells]⟩
      rw [List.append_nil, hLast] at hScan
      simpa [respaced] using hScan
    | cons next ts =>
      obtain ⟨gap, gaps, rfl⟩ : ∃ gap gaps', gaps = gap :: gaps' :=
        List.exists_cons_of_length_eq_add_one hLength
      obtain ⟨⟨hNonempty, hGap⟩, hGaps⟩ := List.forall_mem_cons.1 hGaps
      have hStands : Scan.Stands t.lexeme
          (gap.toList ++ (respaced gaps ((next :: ts).map (·.lexeme))).toList) := by
        cases hChars : gap.toList with
        | nil => exact absurd (String.toList_eq_nil_iff.1 hChars) hNonempty
        | cons d ds =>
          rw [hChars, List.all_cons, Bool.and_eq_true] at hGap
          exact ht.stands hGap.1 _
      obtain ⟨u, offset', line', hScan, hSpells⟩ := hStands.scan hLead offset line
      obtain ⟨body, size, last, hRest, hBody⟩ := ih hTokens (by simpa using hLength) hGaps hGap
        offset' line'
      refine ⟨u :: body, size, last, ?_, by rw [List.map_cons, hSame ht hSpells, hBody]; rfl⟩
      rw [List.map_cons, List.map_cons, respaced_cons_cons, String.toList_append,
        String.toList_append, ← List.map_cons, hScan, hRest]
      rfl

/-- The lexemes of a source without invalid text, set with any blanks between them, are the tokens of
the source again. -/
theorem tokens_respaced {source : String} (hClean : complaints (tokens source) = [])
    {gaps : List String} (hLength : gaps.length = (words source).length - 1)
    (hGaps : ∀ gap ∈ gaps, gap ≠ "" ∧ gap.toList.all Scan.isGap = true) :
    let text := respaced gaps ((words source).map (·.lexeme))
    (tokens text).map (fun t => (t.kind, t.lexeme)) =
        (visible source).map (fun t => (t.kind, t.lexeme)) ∧ complaints (tokens text) = [] := by
  intro text
  obtain ⟨body, size, line, hScan, hBody⟩ :=
    scan_respaced (fun t ht => isLexeme_of_mem_words hClean ht) hLength hGaps
      (show [].all Scan.isGap = true from rfl) 0 1
  have hTokens : tokens text = body ++ [endAt size line] := hScan
  obtain ⟨last, hVisible, hKind, hEmpty⟩ := visible_eq source
  have hSame : (tokens text).map (fun t => (t.kind, t.lexeme)) =
      (visible source).map (fun t => (t.kind, t.lexeme)) := by
    rw [hTokens, hVisible, List.map_append, List.map_append, hBody]
    simp [endAt, hKind, hEmpty]
  refine ⟨hSame, complaints_eq_nil_iff.2 fun t ht => ?_⟩
  obtain ⟨u, hu, hPair⟩ : ∃ u ∈ visible source, (u.kind, u.lexeme) = (t.kind, t.lexeme) :=
    List.mem_map.1 (hSame ▸ List.mem_map_of_mem ht)
  have hValid := complaints_eq_nil_iff.1 hClean u (List.mem_filter.1 hu).1
  rwa [(Prod.mk.inj hPair).1] at hValid

/-- Operators, an arrow, a number with a point behind it and a string, with other blanks between them. -/
theorem tokens_respaced_lines :
    let text := respaced ["\n", "\n", " ", "\t", "\r\n", "\n", "  ", "\n\n"]
      ((words "a+ +b=>1.e/* */'x'").map (·.lexeme))
    complaints (tokens "a+ +b=>1.e/* */'x'") = [] ∧
      (tokens text).map (fun t => (t.kind, t.lexeme)) =
        (visible "a+ +b=>1.e/* */'x'").map (fun t => (t.kind, t.lexeme)) ∧
      complaints (tokens text) = [] := by
  have hClean : complaints (tokens "a+ +b=>1.e/* */'x'") = [] := by decide +kernel
  exact ⟨hClean, tokens_respaced hClean (by decide +kernel) (by decide)⟩

end Token

end CfScript
