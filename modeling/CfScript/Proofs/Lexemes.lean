import CfScript.Proofs.SourceStream
import Mathlib.Data.List.Find
import Mathlib.Data.List.Forall2
import Mathlib.Data.List.TakeWhile

/-!
# Texts cut into lexemes

A text that is one token on its own stays that token in front of another text, unless the scanner goes
on into it. `Stands` says so of two texts, and for each kind of token there is a lemma that tells by the
next character or two whether it holds. A text put together from such pieces and from blanks has the
pieces as the lexemes of its tokens, in whatever place it stands.

## Main results

* `stands_operand`, `stands_symbol`: when a word, a literal or a symbol stays what it is;
* `Lexes.scan`: the tokens of a text that is put together from lexemes.
-/

namespace CfScript

/-- The characters that would make another token of the symbol if they came after it. -/
def Symbol.joins (s : Symbol) : List Char :=
  all.filterMap (fun other =>
    if s.spelling.isPrefixOf other.spelling then other.spelling[s.spelling.length]? else none) ++
    if s = slash then ['/', '*'] else []

/-- Whether no character joins the symbol, and it is no arrow. -/
def Symbol.isClosed (s : Symbol) : Bool := s.joins.isEmpty && s != .arrow

/-- The symbol as a text. -/
def Symbol.text (s : Symbol) : String := String.ofList s.spelling

namespace Scan

/-- The kind of a text that is one token. -/
def kindOf? (text : String) : Option TokenKind :=
  match text.toList with
  | [] => none
  | c :: cs => if isGap c = false ∧ (lexeme c cs).2 = cs.length then some (lexeme c cs).1 else none

/-- Whether the text is a word. -/
def isWord (text : String) : Bool := (kindOf? text).any (·.isWord)

/-- Whether a text that is one token stays it in front of the characters. -/
def Stands (text : String) (rest : List Char) : Prop :=
  ∃ c cs, text.toList = c :: cs ∧ isGap c = false ∧
    kindOf? text = some (lexeme c (cs ++ rest)).1 ∧ (lexeme c (cs ++ rest)).2 = cs.length

theorem kindOf?_eq_some {text : String} {kind : TokenKind} (h : kindOf? text = some kind) :
    ∃ c cs, text.toList = c :: cs ∧ isGap c = false ∧ lexeme c cs = (kind, cs.length) := by
  unfold kindOf? at h
  split at h
  · cases h
  next c cs hText =>
    split at h
    next hOne =>
      cases h
      exact ⟨c, cs, hText, hOne.1, Prod.ext rfl hOne.2⟩
    next => cases h

theorem stands_of_lexeme {text : String} {c : Char} {cs rest : List Char} {kind : TokenKind}
    (hKind : kindOf? text = some kind) (hText : text.toList = c :: cs)
    (h : lexeme c (cs ++ rest) = lexeme c cs) : Stands text rest := by
  obtain ⟨d, ds, hText', hGap, hOne⟩ := kindOf?_eq_some hKind
  obtain ⟨rfl, rfl⟩ := List.cons.inj (hText.symm.trans hText')
  exact ⟨c, cs, hText, hGap, by rw [h, hOne, hKind], by rw [h, hOne]⟩

/-! ## Words and literals -/

/-- Whether the characters may follow a word or a literal: they go on with none of them. -/
def Follows : List Char → Prop
  | [] => True
  | c :: cs => isWordPart c = false ∧ c ≠ '"' ∧ c ≠ '\'' ∧ (c = '.' → ∀ d ∈ cs.head?, d.isDigit = false)

/-- A character that goes on with no word and no literal, whatever comes after it. -/
def isBreak (c : Char) : Bool :=
  !isWordPart c && c != '"' && c != '\'' && c != '.'

theorem follows_of_isBreak {c : Char} (h : isBreak c = true) (rest : List Char) :
    Follows (c :: rest) := by
  simp only [isBreak, Bool.and_eq_true, Bool.not_eq_true', bne_iff_ne] at h
  exact ⟨h.1.1.1, h.1.1.2, h.1.2, fun hDot => absurd hDot h.2⟩

theorem isDigit_of_isWordPart {c : Char} (h : isWordPart c = false) : c.isDigit = false := by
  simp only [isWordPart, Char.isAlphanum, Bool.or_eq_false_iff] at h
  exact h.1.1.2

theorem isDigit_of_isWordStart {c : Char} (h : isWordStart c = true) : c.isDigit = false := by
  simp only [isWordStart, Bool.or_eq_true, beq_iff_eq] at h
  rcases h with (hAlpha | rfl) | rfl
  · delta Char.isAlpha Char.isUpper Char.isLower at hAlpha
    simp only [Bool.or_eq_true, Bool.and_eq_true, decide_eq_true_eq, ge_iff_le,
      UInt32.le_iff_toNat_le] at hAlpha
    simp only [Char.isDigit, Bool.and_eq_false_iff, decide_eq_false_iff_not, ge_iff_le,
      UInt32.le_iff_toNat_le]
    simp at hAlpha ⊢
    omega
  · rfl
  · rfl

theorem run_append {p : Char → Bool} {rest : List Char} (h : ∀ d ∈ rest.head?, p d = false)
    (chars : List Char) : run p (chars ++ rest) = run p chars := by
  induction chars with
  | nil =>
    cases rest with
    | nil => rfl
    | cons d ds => simp [run, h d rfl]
  | cons c cs ih =>
    by_cases hc : p c = true
    · simpa [run, hc] using ih
    · simp [run, hc]

variable {rest : List Char}

theorem Follows.not_isWordPart (h : Follows rest) : ∀ d ∈ rest.head?, isWordPart d = false := by
  cases rest with
  | nil => simp
  | cons c cs =>
    intro d hd
    cases hd
    exact h.1

theorem Follows.not_isDigit (h : Follows rest) : ∀ d ∈ rest.head?, d.isDigit = false :=
  fun d hd => isDigit_of_isWordPart (h.not_isWordPart d hd)

theorem Follows.fraction_eq (h : Follows rest) : fraction rest = 0 := by
  unfold fraction
  split
  · next cs =>
    have hDigits : run Char.isDigit cs = 0 := run_append (h.2.2.2 rfl) []
    rw [if_pos hDigits]
  · rfl

theorem Follows.exponent_eq (h : Follows rest) : exponent rest = 0 := by
  unfold exponent
  split
  · rfl
  · next c cs =>
    have hLetters : ¬ (c = 'e' ∨ c = 'E') := by
      rintro (rfl | rfl) <;> exact absurd h.1 (by decide)
    rw [if_neg hLetters]

theorem fraction_append (h : Follows rest) (chars : List Char) :
    fraction (chars ++ rest) = fraction chars := by
  cases chars with
  | nil => exact h.fraction_eq
  | cons c cs =>
    by_cases hc : c = '.'
    · subst hc
      simp only [List.cons_append, fraction, run_append h.not_isDigit]
    · simp [fraction, hc]

/-- The end of a number is not changed by what follows it, unless it lacks digits that follow. -/
theorem exponent_append (h : Follows rest) {chars : List Char}
    (hAll : signedDigits rest = 0 ∨ exponent chars = chars.length) :
    exponent (chars ++ rest) = exponent chars := by
  cases chars with
  | nil => exact h.exponent_eq
  | cons c cs =>
    have hSigned : signedDigits (cs ++ rest) = signedDigits cs := by
      cases cs with
      | nil =>
        rcases hAll with hNone | hAll
        · simpa [signedDigits] using hNone
        · simp [exponent, signedDigits] at hAll
      | cons d ds =>
        have hLong := run_append h.not_isDigit (d :: ds)
        rw [List.cons_append] at hLong
        simp only [List.cons_append, signedDigits, run_append h.not_isDigit, hLong]
    simp only [List.cons_append, exponent, hSigned]

theorem number_append (h : Follows rest) {cs : List Char}
    (hAll : signedDigits rest = 0 ∨ (number cs).2 = cs.length) :
    number (cs ++ rest) = number cs := by
  have hDigits := run_append h.not_isDigit cs
  have hLe := run_le Char.isDigit cs
  have hAfter : (cs ++ rest).drop (run Char.isDigit cs) = cs.drop (run Char.isDigit cs) ++ rest :=
    List.drop_append_of_le_length hLe
  have hFraction := fraction_append h (cs.drop (run Char.isDigit cs))
  have hPlaces := fraction_le (cs.drop (run Char.isDigit cs))
  have hBehind : (cs.drop (run Char.isDigit cs) ++ rest).drop
      (fraction (cs.drop (run Char.isDigit cs))) =
      (cs.drop (run Char.isDigit cs)).drop (fraction (cs.drop (run Char.isDigit cs))) ++ rest :=
    List.drop_append_of_le_length hPlaces
  have hLength : signedDigits rest = 0 ∨ exponent ((cs.drop (run Char.isDigit cs)).drop
      (fraction (cs.drop (run Char.isDigit cs)))) =
      ((cs.drop (run Char.isDigit cs)).drop (fraction (cs.drop (run Char.isDigit cs)))).length := by
    simp only [number] at hAll
    simp only [List.length_drop] at hPlaces ⊢
    omega
  have hExponent := exponent_append h hLength
  simp only [number, hDigits, hAfter, hFraction, hBehind, hExponent]

theorem closingQuote_append {quote : Char} (h : ∀ d ∈ rest.head?, d ≠ quote) {chars : List Char}
    {length : Nat} (hClosed : closingQuote quote chars = some length) :
    closingQuote quote (chars ++ rest) = some length := by
  obtain ⟨body, more, rfl, rfl, hPaired, hMore⟩ := closingQuote_eq_some_iff.1 hClosed
  refine closingQuote_eq_some_iff.2 ⟨body, more ++ rest, by simp, rfl, hPaired, ?_⟩
  cases more with
  | nil => exact h
  | cons => exact hMore

theorem quoted_append {quote : Char} (h : ∀ d ∈ rest.head?, d ≠ quote) {cs : List Char}
    (hString : (quoted quote cs).1 = .string) : quoted quote (cs ++ rest) = quoted quote cs := by
  cases hClosed : closingQuote quote cs with
  | some length => simp only [quoted, hClosed, closingQuote_append h hClosed]
  | none => simp [quoted, hClosed] at hString

theorem word_append (h : Follows rest) (c : Char) (cs : List Char) :
    word c (cs ++ rest) = word c cs := by
  have hRun := run_append h.not_isWordPart cs
  have hTake : (cs ++ rest).take (run isWordPart cs) = cs.take (run isWordPart cs) :=
    List.take_append_of_le_length (run_le isWordPart cs)
  simp only [word, hRun, hTake]

/-- The kinds of words and literals. -/
def isOperand : TokenKind → Bool
  | .keyword _ | .identifier | .string | .integer | .float => true
  | _ => false

/-- A word or a literal stays what it is in front of what may follow it. -/
theorem stands_operand {text : String} {kind : TokenKind} (h : kindOf? text = some kind)
    (hKind : isOperand kind = true) (hRest : Follows rest) : Stands text rest := by
  obtain ⟨c, cs, hText, hGap, hOne⟩ := kindOf?_eq_some h
  refine stands_of_lexeme h hText ?_
  have hKind : isOperand (lexeme c cs).1 = true := by rwa [hOne]
  have hAll : (lexeme c cs).2 = cs.length := by rw [hOne]
  unfold lexeme at hKind hAll ⊢
  by_cases hWord : isWordStart c = true
  · rw [if_pos hWord, if_pos hWord]
    exact word_append hRest c cs
  rw [if_neg hWord] at hKind hAll
  rw [if_neg hWord, if_neg hWord]
  by_cases hDigit : c.isDigit = true
  · rw [if_pos hDigit] at hAll
    rw [if_pos hDigit, if_pos hDigit]
    exact number_append hRest (.inr hAll)
  rw [if_neg hDigit] at hKind
  rw [if_neg hDigit, if_neg hDigit]
  by_cases hQuote : c = '"' ∨ c = '\''
  · rw [if_pos hQuote] at hKind
    rw [if_pos hQuote, if_pos hQuote]
    refine quoted_append (fun d hd hSame => ?_) ?_
    · cases rest with
      | nil => cases hd
      | cons e es =>
        cases hd
        rcases hQuote with rfl | rfl
        · exact hRest.2.1 hSame
        · exact hRest.2.2.1 hSame
    · cases hClosed : closingQuote c cs with
      | some length => simp [quoted, hClosed]
      | none => simp [quoted, hClosed, isOperand] at hKind
  -- What starts otherwise is a comment, a symbol or nothing.
  rw [if_neg hQuote] at hKind
  exfalso
  revert hKind
  split
  · simp [isOperand]
  split
  · unfold blockComment
    split <;> simp [isOperand]
  · unfold symbol
    split <;> simp [isOperand]

/-! ## Symbols -/

theorem longest?_append (s : Symbol) (h : ∀ d ∈ rest.head?, d ∉ s.joins) :
    Symbol.longest? (s.spelling ++ rest) = some s := by
  have hAlone : Symbol.longest? s.spelling = some s := by cases s <;> decide
  rw [← hAlone]
  refine List.find?_congr fun other hMem => ?_
  rw [Bool.eq_iff_iff, List.isPrefixOf_iff_prefix, List.isPrefixOf_iff_prefix]
  refine ⟨fun hPrefix => ?_, fun hPrefix => hPrefix.trans (List.prefix_append _ _)⟩
  by_cases hLe : other.spelling.length ≤ s.spelling.length
  · exact List.prefix_of_prefix_length_le hPrefix (List.prefix_append _ _) hLe
  -- A longer symbol goes on with the first character of the rest.
  obtain ⟨more, hMore⟩ : s.spelling <+: other.spelling :=
    List.prefix_of_prefix_length_le (List.prefix_append _ _) hPrefix (by omega)
  rw [← hMore, List.prefix_append_right_inj] at hPrefix
  cases more with
  | nil =>
    rw [List.append_nil] at hMore
    exact absurd (hMore ▸ Nat.le_refl _) hLe
  | cons d ds =>
    obtain ⟨tail, hTail⟩ := hPrefix
    refine absurd ?_ (h d (by rw [← hTail]; rfl))
    refine List.mem_append_left _ (List.mem_filterMap.2 ⟨other, hMem, ?_⟩)
    rw [← hMore, if_pos (List.isPrefixOf_iff_prefix.2 (List.prefix_append _ _))]
    simp

theorem kindOf?_text (s : Symbol) : kindOf? s.text = some (.symbol s) := by cases s <;> decide

/-- A symbol stays what it is in front of all characters but a few. -/
theorem stands_symbol (s : Symbol) (h : ∀ d ∈ rest.head?, d ∉ s.joins) : Stands s.text rest := by
  have hHead (s : Symbol) : ∀ c ∈ s.spelling.head?, isGap c = false ∧ isWordStart c = false ∧
      c.isDigit = false ∧ ¬ (c = '"' ∨ c = '\'') ∧ (c = '/' → s = .slash ∨ s = .slashEq) := by
    cases s <;>
    · rintro _ ⟨⟩
      decide
  obtain ⟨c, cs, hSpelling⟩ := List.exists_cons_of_ne_nil s.spelling_ne_nil
  have hText : s.text.toList = c :: cs := by rw [Symbol.text, String.toList_ofList, hSpelling]
  obtain ⟨hGap, hWord, hDigit, hQuote, hSlash⟩ := hHead s c (by rw [hSpelling]; rfl)
  have hComment : ∀ q ∈ ['/', '*'], ¬ (c = '/' ∧ (cs ++ rest).head? = some q) := by
    rintro q hq ⟨hc, hNext⟩
    rcases hSlash hc with rfl | rfl
    · obtain rfl : cs = [] := (List.cons.inj hSpelling).2.symm
      have hJoins : ['/', '*'].all (· ∈ Symbol.slash.joins) = true := rfl
      exact h q hNext (of_decide_eq_true (List.all_eq_true.1 hJoins q hq))
    · obtain rfl : cs = ['='] := (List.cons.inj hSpelling).2.symm
      obtain rfl : '=' = q := Option.some.inj hNext
      revert hq
      decide
  have hLexeme : lexeme c (cs ++ rest) = (.symbol s, cs.length) := by
    have hLongest := longest?_append s h
    rw [hSpelling, List.cons_append] at hLongest
    rw [lexeme, if_neg (by simp [hWord]), if_neg (by simp [hDigit]), if_neg hQuote,
      if_neg (hComment '/' (by simp)), if_neg (hComment '*' (by simp)), symbol, hLongest]
    simp [hSpelling]
  exact ⟨c, cs, hText, hGap, by rw [hLexeme, kindOf?_text], by rw [hLexeme]⟩

theorem lexeme_of_symbol {c : Char} {cs : List Char} {s : Symbol}
    (h : (lexeme c cs).1 = .symbol s) : lexeme c cs = symbol c cs := by
  unfold lexeme at h ⊢
  split at h
  next =>
    unfold word at h
    dsimp only at h
    split at h <;> cases h
  split at h
  next =>
    unfold number at h
    dsimp only at h
    split at h <;> cases h
  split at h
  next =>
    unfold quoted at h
    split at h <;> cases h
  split at h
  next => cases h
  split at h
  next =>
    unfold blockComment at h
    split at h <;> cases h
  next hWord hDigit hQuote hLine hBlock =>
    rw [if_neg hWord, if_neg hDigit, if_neg hQuote, if_neg hLine, if_neg hBlock]

/-- Only the symbol itself is a token of a symbol. -/
theorem text_of_symbol {text : String} {s : Symbol} (h : kindOf? text = some (.symbol s)) :
    text = s.text := by
  obtain ⟨c, cs, hText, -, hOne⟩ := kindOf?_eq_some h
  have hSymbol : symbol c cs = (.symbol s, cs.length) := by
    rw [← hOne, lexeme_of_symbol (by rw [hOne])]
  unfold symbol at hSymbol
  split at hSymbol
  next s' hLongest =>
    obtain ⟨hKind, hLength⟩ := Prod.mk.inj hSymbol
    cases hKind
    have hPrefix := Symbol.longest?_prefix hLongest
    have hPos := List.length_pos_iff.2 s.spelling_ne_nil
    have hSpelling : s.spelling = c :: cs := hPrefix.eq_of_length (by
      rw [List.length_cons]
      omega)
    rw [Symbol.text, hSpelling, ← hText, String.ofList_toList]
  next => cases hSymbol

theorem follows_of_isGap {d : Char} (h : isGap d = true) (rest : List Char) : Follows (d :: rest) := by
  simp only [isGap, Bool.or_eq_true, beq_iff_eq] at h
  rcases h with ((((rfl | rfl) | rfl) | rfl) | rfl) <;> exact follows_of_isBreak rfl rest

/-- Whether the text is a word, a literal or a symbol on its own. -/
def IsLexeme (text : String) (kind : TokenKind) : Prop :=
  kindOf? text = some kind ∧ (isOperand kind = true ∨ ∃ s, kind = .symbol s)

/-- Every word, literal and symbol stays what it is in front of a blank. -/
theorem IsLexeme.stands {text : String} {kind : TokenKind} (h : IsLexeme text kind) {d : Char}
    (hGap : isGap d = true) (rest : List Char) : Stands text (d :: rest) := by
  obtain ⟨hKind, hOperand | ⟨s, rfl⟩⟩ := h
  · exact stands_operand hKind hOperand (follows_of_isGap hGap rest)
  · have hJoins (s : Symbol) : s.joins.any isGap = false := by cases s <;> rfl
    rw [text_of_symbol hKind]
    refine stands_symbol s fun e he hJoin => ?_
    cases he
    exact List.any_eq_false.1 (hJoins s) d hJoin hGap

/-- Every word, literal and symbol stays what it is at the end of a text. -/
theorem IsLexeme.stands_nil {text : String} {kind : TokenKind} (h : IsLexeme text kind) :
    Stands text [] := by
  obtain ⟨c, cs, hText, -, -⟩ := kindOf?_eq_some h.1
  exact stands_of_lexeme h.1 hText (by rw [List.append_nil])

/-- Whether the text is a word, a literal or a symbol that is no arrow. -/
def isSolid (text : String) : Bool :=
  (kindOf? text).any fun
    | .symbol s => s != .arrow
    | kind => isOperand kind

theorem isSolid_operand {text : String} {kind : TokenKind} (h : kindOf? text = some kind)
    (hKind : isOperand kind = true) : isSolid text = true := by
  rw [isSolid, h, Option.any_some]
  split
  · cases hKind
  · exact hKind

theorem isSolid_symbol {s : Symbol} (h : s ≠ .arrow) : isSolid s.text = true := by
  cases s <;> first | contradiction | decide

theorem exists_isLexeme {text : String} (h : isSolid text = true) : ∃ kind, IsLexeme text kind := by
  unfold isSolid at h
  obtain ⟨kind, hKind, hSolid⟩ := (Option.any_eq_true _ _).1 h
  refine ⟨kind, hKind, ?_⟩
  split at hSolid
  next s => exact .inr ⟨s, rfl⟩
  next => exact .inl hSolid

/-! ## Whole texts -/

/-- Whether a text is put together from lexemes and blanks. -/
inductive Lexes : List Char → List String → Prop where
  | nil {gap : List Char} (hGap : gap.all isGap = true) : Lexes gap []
  | cons {gap rest : List Char} {text : String} {texts : List String} (hGap : gap.all isGap = true)
      (hText : Stands text rest) (hSolid : isSolid text = true) (h : Lexes rest texts) :
      Lexes (gap ++ (text.toList ++ rest)) (text :: texts)

theorem Lexes.gap {gap chars : List Char} {texts : List String} (hGap : gap.all isGap = true)
    (h : Lexes chars texts) : Lexes (gap ++ chars) texts := by
  cases h with
  | nil hGap' => exact .nil (by rw [List.all_append, hGap, hGap']; rfl)
  | cons hGap' hText hSolid h =>
    rw [← List.append_assoc]
    exact .cons (by rw [List.all_append, hGap, hGap']; rfl) hText hSolid h

theorem Lexes.text {text : String} {texts : List String} (hText : Stands text rest)
    (hSolid : isSolid text = true) (h : Lexes rest texts) :
    Lexes (text.toList ++ rest) (text :: texts) :=
  .cons (show [].all isGap = true from rfl) hText hSolid h

theorem Lexes.solid {chars : List Char} {texts : List String} (h : Lexes chars texts) :
    ∀ text ∈ texts, isSolid text = true := by
  induction h with
  | nil => nofun
  | cons _ _ hSolid _ ih => exact List.forall_mem_cons.2 ⟨hSolid, ih⟩

end Scan

/-- Whether a token is spelled like a text, and of its kind. -/
def Token.Spells (t : Token) (text : String) : Prop :=
  Scan.kindOf? text = some t.kind ∧ t.lexeme = text

namespace Scan

theorem Stands.spells {text : String} {c : Char} {cs rest : List Char} (h : Stands text rest)
    (hText : text.toList = c :: cs) (start : Nat) (line : LineNumber) :
    (Token.ofLexeme c (cs ++ rest) start line).Spells text := by
  obtain ⟨c', cs', hText', -, hKind, hLength⟩ := h
  obtain ⟨rfl, rfl⟩ := List.cons.inj (hText.symm.trans hText')
  refine ⟨hKind, ?_⟩
  simp only [Token.ofLexeme, hLength, List.take_left', ← hText, String.ofList_toList]

/-- The first token of a text that begins with a lexeme that stands, and the tokens behind it. -/
theorem Stands.scan {gap rest : List Char} {text : String} (hGap : gap.all isGap = true)
    (h : Stands text rest) (offset : Nat) (line : LineNumber) :
    ∃ t offset' line', Token.scan (gap ++ (text.toList ++ rest)) offset line =
      t :: Token.scan rest offset' line' ∧ t.Spells text := by
  obtain ⟨c, cs, hChars, hStart, -, hLength⟩ := id h
  have hRest : (gap ++ (text.toList ++ rest)).dropWhile isGap = c :: (cs ++ rest) := by
    rw [List.dropWhile_append_of_pos (List.all_eq_true.1 hGap), hChars, List.cons_append,
      List.dropWhile_cons_of_neg (by simp [hStart])]
  rw [Token.scan_of_lexeme offset line hRest, hLength, List.drop_left' rfl]
  exact ⟨_, _, _, rfl, h.spells hChars _ _⟩

/-- The tokens of a text that is put together from lexemes. -/
theorem Lexes.scan {chars : List Char} {texts : List String} (h : Lexes chars texts)
    (offset : Nat) (line : LineNumber) :
    ∃ body last, Token.scan chars offset line = body ++ [last] ∧ last.isEnd = true ∧
      List.Forall₂ Token.Spells body texts := by
  induction h generalizing offset line with
  | nil hGap =>
    have hRest : List.dropWhile isGap _ = [] := List.dropWhile_eq_nil_iff.2 (List.all_eq_true.1 hGap)
    exact ⟨[], _, Token.scan_of_gap offset line hRest, rfl, .nil⟩
  | @cons gap rest text texts hGap hText _ h ih =>
    obtain ⟨t, offset', line', hFirst, hSpells⟩ := hText.scan hGap offset line
    obtain ⟨body, last, hScan, hLast, hBody⟩ := ih offset' line'
    rw [hFirst, hScan]
    exact ⟨t :: body, last, rfl, hLast, .cons hSpells hBody⟩

end Scan

end CfScript
