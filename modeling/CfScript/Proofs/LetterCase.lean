import CfScript.Token.Lexer
import Mathlib.Data.List.TakeWhile

/-!
# Letter case and the scanner

Where a token ends and what kind it is does not depend on letter case: a rule of the scanner asks for a
letter of either case, or for a character that is no letter. So a text whose letters are written small
has its tokens at the same places as before.

## Main results

* `Text.apply_toLower`: a test that no capital tells from its small letter sees no letter case;
* `Scan.lexeme_foldChars`: the token at the head of a text in small letters.
-/

namespace CfScript

namespace Text

/-- The capitals among the ASCII letters. -/
def capitals : List Char := "ABCDEFGHIJKLMNOPQRSTUVWXYZ".toList

theorem toLower_eq_self_or_mem_capitals (c : Char) : c.toLower = c ∨ c ∈ capitals := by
  by_cases h : c.val ≥ 'A'.val ∧ c.val ≤ 'Z'.val
  · right
    have hLow : 65 ≤ c.toNat := UInt32.le_iff_toNat_le.1 h.1
    have hHigh : c.toNat ≤ 90 := UInt32.le_iff_toNat_le.1 h.2
    have hAll : ∀ n < 91, 65 ≤ n → Char.ofNat n ∈ capitals := by decide
    have hChar := hAll c.toNat (by omega) hLow
    rwa [Char.ofNat_toNat] at hChar
  · left
    exact dif_neg h

/-- A test that no capital tells from its small letter sees no letter case. -/
theorem apply_toLower {α : Type} (p : Char → α)
    (h : capitals.map (fun c => p c.toLower) = capitals.map p) (c : Char) : p c.toLower = p c := by
  rcases toLower_eq_self_or_mem_capitals c with hSelf | hCapital
  · rw [hSelf]
  · exact List.map_inj_left.1 h c hCapital

theorem toLower_eq_iff {q : Char} (hq : q.isAlpha = false) (c : Char) : c.toLower = q ↔ c = q := by
  have hLetters : capitals.all (fun c => c.isAlpha && c.toLower.isAlpha) = true := rfl
  rcases toLower_eq_self_or_mem_capitals c with hSelf | hCapital
  · rw [hSelf]
  · obtain ⟨hUpper, hLower⟩ := Bool.and_eq_true_iff.1 (List.all_eq_true.1 hLetters c hCapital)
    constructor
    · rintro rfl
      exact absurd hq (by simp [hLower])
    · rintro rfl
      exact absurd hq (by simp [hUpper])

@[simp] theorem foldChars_nil : foldChars [] = [] := rfl

@[simp] theorem foldChars_cons (c : Char) (cs : List Char) :
    foldChars (c :: cs) = c.toLower :: foldChars cs := rfl

@[simp] theorem length_foldChars (chars : List Char) : (foldChars chars).length = chars.length :=
  List.length_map ..

theorem foldChars_take (n : Nat) (chars : List Char) :
    foldChars (chars.take n) = (foldChars chars).take n := List.map_take

theorem foldChars_drop (n : Nat) (chars : List Char) :
    foldChars (chars.drop n) = (foldChars chars).drop n := List.map_drop

@[simp] theorem foldChars_append (a b : List Char) :
    foldChars (a ++ b) = foldChars a ++ foldChars b := List.map_append

@[simp] theorem toList_fold (text : String) : (fold text).toList = foldChars text.toList := by
  simp [fold]

theorem fold_eq_iff {a b : String} : fold a = fold b ↔ foldChars a.toList = foldChars b.toList := by
  rw [← String.toList_inj, toList_fold, toList_fold]

theorem fold_append (a b : String) : fold (a ++ b) = fold a ++ fold b := by
  rw [← String.toList_inj]
  simp

theorem fold_ofList (chars : List Char) :
    fold (String.ofList chars) = String.ofList (foldChars chars) := by
  simp [fold]

theorem utf8Size_toLower (c : Char) : c.toLower.utf8Size = c.utf8Size :=
  apply_toLower Char.utf8Size rfl c

@[simp] theorem byteLength_foldChars (chars : List Char) :
    byteLength (foldChars chars) = byteLength chars := by
  induction chars with
  | nil => rfl
  | cons c cs ih => simp [byteLength, utf8Size_toLower, ih]

/-- Characters that are no letters are found at the same places. -/
theorem count_foldChars {q : Char} (hq : q.isAlpha = false) (chars : List Char) :
    (foldChars chars).count q = chars.count q := by
  induction chars with
  | nil => rfl
  | cons c cs ih => simp [List.count_cons, toLower_eq_iff hq, ih]

theorem head?_foldChars {q : Char} (hq : q.isAlpha = false) (chars : List Char) :
    (foldChars chars).head? = some q ↔ chars.head? = some q := by
  cases chars <;> simp [toLower_eq_iff hq]

theorem isPrefixOf_foldChars {pattern : List Char} (h : pattern.any Char.isAlpha = false)
    (chars : List Char) : pattern.isPrefixOf (foldChars chars) = pattern.isPrefixOf chars := by
  induction pattern generalizing chars with
  | nil => simp
  | cons q qs ih =>
    obtain ⟨hFirst, hMore⟩ := Bool.or_eq_false_iff.1 (List.any_cons ▸ h)
    cases chars with
    | nil => rfl
    | cons c cs =>
      have hq : (q == c.toLower) = (q == c) := by
        rw [Bool.eq_iff_iff, beq_iff_eq, beq_iff_eq, eq_comm, toLower_eq_iff hFirst, eq_comm]
      simp only [foldChars_cons, List.isPrefixOf_cons_cons, hq]
      rw [ih hMore]

theorem cut_foldChars {pattern : List Char} (h : pattern.any Char.isAlpha = false)
    (chars : List Char) :
    cut pattern (foldChars chars) = (cut pattern chars).map (Prod.map foldChars foldChars) := by
  induction chars with
  | nil => cases pattern <;> simp [cut]
  | cons c cs ih =>
    have hHead := isPrefixOf_foldChars h (c :: cs)
    rw [foldChars_cons] at hHead
    simp only [foldChars_cons, cut, hHead, ih]
    split
    · simp [foldChars_drop]
    · cases cut pattern cs <;> simp

end Text

open Text

theorem Token.invalidCode_fold (lexeme : String) :
    invalidCode (fold lexeme) = invalidCode lexeme := by
  unfold invalidCode
  rw [toList_fold]
  match lexeme.toList with
  | [] => rfl
  | [c] =>
    by_cases hDouble : c = '"'
    · subst hDouble
      rfl
    by_cases hSingle : c = '\''
    · subst hSingle
      rfl
    have hDouble' := mt (toLower_eq_iff (q := '"') rfl c).1 hDouble
    have hSingle' := mt (toLower_eq_iff (q := '\'') rfl c).1 hSingle
    simp [hDouble, hSingle, hDouble', hSingle']
  | c :: d :: cs =>
    by_cases hDouble : c = '"'
    · subst hDouble
      rfl
    by_cases hSingle : c = '\''
    · subst hSingle
      rfl
    have hDouble' := mt (toLower_eq_iff (q := '"') rfl c).1 hDouble
    have hSingle' := mt (toLower_eq_iff (q := '\'') rfl c).1 hSingle
    have hSlash := toLower_eq_iff (q := '/') rfl c
    have hStar := toLower_eq_iff (q := '*') rfl d
    simp only [foldChars_cons]
    split <;> split <;> simp_all

namespace Scan

theorem run_foldChars {p : Char → Bool}
    (h : capitals.map (fun c => p c.toLower) = capitals.map p) (chars : List Char) :
    run p (foldChars chars) = run p chars := by
  have hAll : p ∘ Char.toLower = p := funext (apply_toLower p h)
  rw [run, run, foldChars, List.takeWhile_map, List.length_map, hAll]

theorem run_isDigit_foldChars (chars : List Char) :
    run Char.isDigit (foldChars chars) = run Char.isDigit chars := run_foldChars rfl chars

theorem fraction_foldChars (chars : List Char) : fraction (foldChars chars) = fraction chars := by
  cases chars with
  | nil => rfl
  | cons c cs =>
    by_cases hDot : c = '.'
    · subst hDot
      have hPoint : Char.toLower '.' = '.' := rfl
      simp only [foldChars_cons, hPoint, fraction, run_isDigit_foldChars]
    · have hDot' := mt (toLower_eq_iff (q := '.') rfl c).1 hDot
      simp [fraction, hDot, hDot']

theorem signedDigits_foldChars (chars : List Char) :
    signedDigits (foldChars chars) = signedDigits chars := by
  cases chars with
  | nil => rfl
  | cons c cs =>
    have hDigits := run_isDigit_foldChars (c :: cs)
    rw [foldChars_cons] at hDigits
    simp only [foldChars_cons, signedDigits, run_isDigit_foldChars, hDigits,
      toLower_eq_iff (q := '+') rfl, toLower_eq_iff (q := '-') rfl]

theorem exponent_foldChars (chars : List Char) : exponent (foldChars chars) = exponent chars := by
  cases chars with
  | nil => rfl
  | cons c cs =>
    have hLetter := apply_toLower (fun c => decide (c = 'e' ∨ c = 'E')) rfl c
    simp only [decide_eq_decide] at hLetter
    simp only [foldChars_cons, exponent, signedDigits_foldChars, hLetter]

theorem number_foldChars (chars : List Char) : number (foldChars chars) = number chars := by
  simp only [number, run_isDigit_foldChars, ← foldChars_drop, fraction_foldChars,
    exponent_foldChars]

theorem closingQuote_foldChars {quote : Char} (hq : quote.isAlpha = false) (chars : List Char) :
    closingQuote quote (foldChars chars) = closingQuote quote chars := by
  fun_induction closingQuote quote chars <;> simp_all [closingQuote, toLower_eq_iff hq]

theorem quoted_foldChars {quote : Char} (hq : quote.isAlpha = false) (chars : List Char) :
    quoted quote (foldChars chars) = quoted quote chars := by
  rw [quoted, quoted, closingQuote_foldChars hq, length_foldChars]

theorem blockComment_foldChars (chars : List Char) :
    blockComment (foldChars chars) = blockComment chars := by
  rw [blockComment, blockComment, ← foldChars_drop, cut_foldChars rfl, length_foldChars]
  cases cut ['*', '/'] (chars.drop 1) <;> simp

theorem symbol_foldChars (c : Char) (cs : List Char) :
    symbol c.toLower (foldChars cs) = symbol c cs := by
  have hSpelling (s : Symbol) : s.spelling.any Char.isAlpha = false := by cases s <;> rfl
  have hLongest : Symbol.longest? (foldChars (c :: cs)) = Symbol.longest? (c :: cs) := by
    simp only [Symbol.longest?, fun s => isPrefixOf_foldChars (hSpelling s)]
  rw [foldChars_cons] at hLongest
  rw [symbol, symbol, hLongest]

theorem word_foldChars (c : Char) (cs : List Char) :
    word c.toLower (foldChars cs) = word c cs := by
  have hRun : run isWordPart (foldChars cs) = run isWordPart cs := run_foldChars rfl cs
  have hKeyword : Keyword.ofWord? (String.ofList (c.toLower :: (foldChars cs).take (run isWordPart cs)))
      = Keyword.ofWord? (String.ofList (c :: cs.take (run isWordPart cs))) := by
    refine Keyword.ofWord?_eq_of_fold ?_
    rw [← foldChars_take, ← foldChars_cons, fold_ofList, fold_ofList, foldChars_foldChars]
  simp only [word, hRun, hKeyword]

/-- The token at the head of a text in small letters is that at the head of the text. -/
theorem lexeme_foldChars (c : Char) (cs : List Char) :
    lexeme c.toLower (foldChars cs) = lexeme c cs := by
  have hGap : run (· ≠ '\n') (foldChars cs) = run (· ≠ '\n') cs := run_foldChars rfl cs
  unfold lexeme
  rw [apply_toLower isWordStart rfl, apply_toLower Char.isDigit rfl]
  simp only [toLower_eq_iff (q := '"') rfl, toLower_eq_iff (q := '\'') rfl,
    toLower_eq_iff (q := '/') rfl, head?_foldChars (q := '/') rfl,
    head?_foldChars (q := '*') rfl, hGap, word_foldChars,
    number_foldChars, blockComment_foldChars, symbol_foldChars]
  by_cases hQuote : c = '"' ∨ c = '\''
  · rcases hQuote with rfl | rfl
    · rw [show Char.toLower '"' = '"' from rfl, quoted_foldChars rfl]
    · rw [show Char.toLower '\'' = '\'' from rfl, quoted_foldChars rfl]
  · simp only [hQuote, if_false]

end Scan

end CfScript
