import CfScript.Text.Quoted
import CfScript.Text.Search
import CfScript.Token.Kind

/-!
# The longest token at the head of a text

Between tokens stand blanks: space, tab, carriage return, line feed and form feed. `Scan.lexeme`
reads one token from its first character on and tells its kind and how many further characters
belong to it. Every rule takes as many characters as it can; where no rule applies, the one character
is invalid, and a string or a comment that is never closed is invalid up to the end of the text.

## Main results

* `closingQuote_eq_some_iff`: a string is closed by the first quote that is not doubled;
* `lexeme_le`: a token never reaches past the end of the text.
-/

namespace CfScript.Scan

/-- The characters that stand between tokens. -/
def isGap (c : Char) : Bool := c == ' ' || c == '\t' || c == '\r' || c == '\n' || c == '\x0c'

/-- The characters an identifier starts with. -/
def isWordStart (c : Char) : Bool := c.isAlpha || c == '_' || c == '$'

/-- The characters an identifier goes on with. -/
def isWordPart (c : Char) : Bool := c.isAlphanum || c == '_' || c == '$'

/-- The number of characters at the head that `p` accepts. -/
def run (p : Char → Bool) (chars : List Char) : Nat := (chars.takeWhile p).length

/-- The length of the fraction of a number at the head: a point and at least one digit. -/
def fraction : List Char → Nat
  | '.' :: cs => if run Char.isDigit cs = 0 then 0 else run Char.isDigit cs + 1
  | _ => 0

/-- The length of the digits of an exponent with the sign before them. -/
def signedDigits : List Char → Nat
  | [] => 0
  | c :: cs =>
    if c = '+' ∨ c = '-' then
      if run Char.isDigit cs = 0 then 0 else run Char.isDigit cs + 1
    else run Char.isDigit (c :: cs)

/-- The length of the exponent of a number at the head. -/
def exponent : List Char → Nat
  | [] => 0
  | c :: cs =>
    if c = 'e' ∨ c = 'E' then if signedDigits cs = 0 then 0 else signedDigits cs + 1 else 0

/-- The kind of a number and the characters after its first digit. -/
def number (cs : List Char) : TokenKind × Nat :=
  let digits := run Char.isDigit cs
  let afterDigits := cs.drop digits
  let places := fraction afterDigits
  let power := exponent (afterDigits.drop places)
  (if places + power = 0 then .integer else .float, digits + places + power)

/-- The number of characters through the quote that closes a string, whose opening quote is already
read. A doubled quote belongs to the string. -/
def closingQuote (quote : Char) : List Char → Option Nat
  | [] => none
  | [c] => if c = quote then some 1 else none
  | c :: d :: cs =>
    if c = quote then
      if d = quote then (closingQuote quote cs).map (· + 2) else some 1
    else (closingQuote quote (d :: cs)).map (· + 1)

/-- A quoted string, whose opening quote is already read. -/
def quoted (quote : Char) (cs : List Char) : TokenKind × Nat :=
  match closingQuote quote cs with
  | some length => (.string, length)
  | none => (.invalid, cs.length)

/-- A block comment, whose opening slash is already read. -/
def blockComment (cs : List Char) : TokenKind × Nat :=
  match Text.cut ['*', '/'] (cs.drop 1) with
  | some (body, _) => (.blockComment, 1 + body.length + 2)
  | none => (.invalid, cs.length)

/-- A symbol, or a character that is no token. -/
def symbol (c : Char) (cs : List Char) : TokenKind × Nat :=
  match Symbol.longest? (c :: cs) with
  | some s => (.symbol s, s.spelling.length - 1)
  | none => (.invalid, 0)

/-- An identifier or a keyword. -/
def word (c : Char) (cs : List Char) : TokenKind × Nat :=
  let length := run isWordPart cs
  let kind := match Keyword.ofWord? (String.ofList (c :: cs.take length)) with
    | some k => .keyword k
    | none => .identifier
  (kind, length)

/-- The kind of the token that starts with `c`, and the number of characters of `cs` that belong
to it. -/
def lexeme (c : Char) (cs : List Char) : TokenKind × Nat :=
  if isWordStart c then word c cs
  else if c.isDigit then number cs
  else if c = '"' ∨ c = '\'' then quoted c cs
  else if c = '/' ∧ cs.head? = some '/' then (.lineComment, run (· ≠ '\n') cs)
  else if c = '/' ∧ cs.head? = some '*' then blockComment cs
  else symbol c cs

theorem run_le (p : Char → Bool) (chars : List Char) : run p chars ≤ chars.length :=
  (List.takeWhile_prefix p).length_le

theorem fraction_le (chars : List Char) : fraction chars ≤ chars.length := by
  unfold fraction
  split
  · next cs =>
    have := run_le Char.isDigit cs
    split
    · simp
    · rw [List.length_cons]
      omega
  · simp

theorem signedDigits_le (chars : List Char) : signedDigits chars ≤ chars.length := by
  unfold signedDigits
  split
  · simp
  · next c cs =>
    split
    · have := run_le Char.isDigit cs
      split
      · simp
      · rw [List.length_cons]
        omega
    · exact run_le _ _

theorem exponent_le (chars : List Char) : exponent chars ≤ chars.length := by
  unfold exponent
  split
  · simp
  · next c cs =>
    have := signedDigits_le cs
    split
    · split
      · simp
      · rw [List.length_cons]
        omega
    · simp

theorem number_le (cs : List Char) : (number cs).2 ≤ cs.length := by
  have hDigits := run_le Char.isDigit cs
  have hPlaces := fraction_le (cs.drop (run Char.isDigit cs))
  have hPower := exponent_le
    ((cs.drop (run Char.isDigit cs)).drop (fraction (cs.drop (run Char.isDigit cs))))
  simp only [List.length_drop] at hPlaces hPower
  simp only [number]
  omega

/-- A string goes on up to the first quote that no further quote follows, where the quotes before it
come in pairs. -/
theorem closingQuote_eq_some_iff {quote : Char} {chars : List Char} {length : Nat} :
    closingQuote quote chars = some length ↔ ∃ body rest, chars = body ++ quote :: rest ∧
      length = body.length + 1 ∧ Text.paired quote body = true ∧ ∀ c ∈ rest.head?, c ≠ quote := by
  constructor
  · intro h
    fun_induction closingQuote quote chars generalizing length with
    | case1 => cases h
    | case2 => exact ⟨[], [], rfl, (Option.some.inj h).symm, rfl, by simp⟩
    | case3 => cases h
    | case4 cs ih =>
      obtain ⟨n, hn, rfl⟩ := Option.map_eq_some_iff.1 h
      obtain ⟨body, rest, rfl, rfl, hPaired, hRest⟩ := ih hn
      exact ⟨quote :: quote :: body, rest, rfl, rfl, by simp [Text.paired, hPaired], hRest⟩
    | case5 d cs hd => exact ⟨[], d :: cs, rfl, (Option.some.inj h).symm, rfl, by simpa using hd⟩
    | case6 c d cs hc ih =>
      obtain ⟨n, hn, rfl⟩ := Option.map_eq_some_iff.1 h
      obtain ⟨body, rest, hChars, rfl, hPaired, hRest⟩ := ih hn
      exact ⟨c :: body, rest, by rw [hChars]; rfl, rfl,
        (Text.paired_cons_of_ne body hc).trans hPaired, hRest⟩
  · rintro ⟨body, rest, rfl, rfl, hPaired, hRest⟩
    fun_induction Text.paired quote body with
    | case1 =>
      cases rest with
      | nil => simp [closingQuote]
      | cons d ds => simp [closingQuote, hRest d rfl]
    | case2 c =>
      have hc : c ≠ quote := by simpa using hPaired
      cases rest with
      | nil => simp [closingQuote, hc]
      | cons d ds => simp [closingQuote, hc, hRest d rfl]
    | case3 d cs ih =>
      obtain ⟨rfl, hTail⟩ : d = quote ∧ Text.paired quote cs = true := by simpa using hPaired
      simp [closingQuote, ih hTail]
    | case4 c d cs hc ih =>
      have hTail := ih hPaired
      rw [List.cons_append] at hTail
      simp [closingQuote, hc, hTail]

theorem closingQuote_le {quote : Char} {chars : List Char} {length : Nat}
    (h : closingQuote quote chars = some length) : 1 ≤ length ∧ length ≤ chars.length := by
  obtain ⟨body, rest, rfl, rfl, -⟩ := closingQuote_eq_some_iff.1 h
  simp only [List.length_append, List.length_cons]
  omega

theorem quoted_le (quote : Char) (cs : List Char) : (quoted quote cs).2 ≤ cs.length := by
  unfold quoted
  split
  · next h => exact (closingQuote_le h).2
  · exact Nat.le_refl _

theorem blockComment_le {cs : List Char} (h : cs ≠ []) : (blockComment cs).2 ≤ cs.length := by
  unfold blockComment
  split
  · next body after hCut =>
    have hLength := congrArg List.length (Text.cut_eq_some hCut)
    have hPos := List.length_pos_iff.2 h
    simp only [List.length_drop, List.length_append, List.length_cons, List.length_nil] at hLength
    dsimp only
    omega
  · exact Nat.le_refl _

theorem symbol_le (c : Char) (cs : List Char) : (symbol c cs).2 ≤ cs.length := by
  unfold symbol
  split
  · next s h =>
    have := (Symbol.longest?_prefix h).length_le
    simp only [List.length_cons] at this
    dsimp only
    omega
  · exact Nat.zero_le _

theorem lexeme_le (c : Char) (cs : List Char) : (lexeme c cs).2 ≤ cs.length := by
  unfold lexeme
  split
  · exact run_le _ _
  split
  · exact number_le cs
  split
  · exact quoted_le c cs
  split
  · exact run_le _ _
  split
  · next h => exact blockComment_le (by intro hNil; simp [hNil] at h)
  · exact symbol_le c cs

end CfScript.Scan
