import CfScript.Build.Root
import CfScript.Proofs.Outcome
import CfScript.Proofs.PlainText
import CfScript.Proofs.WholeTree

/-!
# Strings with quotes in them

Three readings of the quotes in a string have to agree: the scanner looks for the quote that closes
it, the builder takes one quote off each end, and what the string says has one quote for every pair.
The scanner closes a string where the quotes in front come in pairs and no further quote follows, and
on a text whose quotes come in pairs, doubling and reading pairs undo each other. So every text can be
written as a string, and every string of a source is some text written that way.

## Main results

* `Token.tokens_stringLexeme`: a text with its quotes in pairs is read back as one string;
* `Token.buildsString_of_mem_tokens`: every string of a source is such a text;
* `Quote.strings_roundtrip`: a text is what its string says, and a string is what its text is written
  as.
-/

namespace CfScript

open Layout

namespace Quote

/-- The text as it is written between quotes: its own quotes twice. -/
def escape (quote : Quote) (text : String) : String :=
  String.ofList (Text.double quote.char text.toList)

/-- The text that is written between quotes: pairs of quotes once. -/
def unescape (quote : Quote) (text : String) : String :=
  String.ofList (Text.single quote.char text.toList)

variable (quote : Quote) {text : String}

theorem paired_escape (text : String) :
    Text.paired quote.char (quote.escape text).toList = true := by
  rw [escape, String.toList_ofList]
  exact Text.paired_double quote.char text.toList

theorem unescape_escape (text : String) : quote.unescape (quote.escape text) = text := by
  rw [unescape, escape, String.toList_ofList, Text.single_double, String.ofList_toList]

theorem escape_unescape (h : Text.paired quote.char text.toList = true) :
    quote.escape (quote.unescape text) = text := by
  rw [escape, unescape, String.toList_ofList, Text.double_single _ _ h, String.ofList_toList]

end Quote

namespace Token

variable {t : Token} {text : String} {quote : Quote}

/-- Whether the token is the text between quotes, and the string that is built from it is the text. -/
def BuildsString (t : Token) (text : String) (quote : Quote) : Prop :=
  t.kind = .string ∧ t.lexeme = stringLexeme text quote ∧
    ∀ rules log, (Build.expression (.token t)).runOn rules log =
      (.ok (.string text quote t.span), log)

theorem buildsString_of_lexeme (hKind : t.kind = .string) (hLexeme : t.lexeme = stringLexeme text quote) :
    t.BuildsString text quote := by
  refine ⟨hKind, hLexeme, fun rules log => ?_⟩
  have hBuild : Build.expression (.token t) = Build.string t :=
    show Build.tokenExpression t = _ by rw [Build.tokenExpression, hKind]
  have hChars : t.lexeme.toList = quote.char :: (text.toList ++ [quote.char]) := by
    rw [hLexeme, stringLexeme, String.toList_ofList]
  simp only [hBuild, Build.string, hChars, quoteOf_quoted, Build.stringText_quoted,
    String.ofList_toList]
  exact Build.runOn_pure _ rules log

/-- A text whose quotes come in pairs is one string, whatever comes after it but a further quote. -/
theorem tokens_stringLexeme (hText : Text.paired quote.char text.toList = true) {rest : String}
    (hRest : ∀ c ∈ rest.toList.head?, c ≠ quote.char) :
    ∃ t more, tokens (stringLexeme text quote ++ rest) = t :: more ∧ t.BuildsString text quote := by
  have hChars : (stringLexeme text quote).toList = quote.char :: (text.toList ++ [quote.char]) :=
    String.toList_ofList
  have hLexeme := lexeme_stringLexeme hText hRest
  have hStands : Scan.Stands (stringLexeme text quote) rest.toList := by
    refine Scan.stands_of_lexeme (kindOf?_stringLexeme hText) hChars ?_
    have hAlone : Scan.lexeme quote.char (text.toList ++ [quote.char]) = _ :=
      lexeme_stringLexeme hText (by simp)
    rw [List.append_assoc, List.singleton_append, hLexeme, hAlone]
  obtain ⟨t, offset, line, hScan, hKind, hSame⟩ :=
    hStands.scan (show [].all Scan.isGap = true from rfl) 0 1
  rw [kindOf?_stringLexeme hText, Option.some.injEq] at hKind
  have hTokens : tokens (stringLexeme text quote ++ rest) = t :: scan rest.toList offset line := by
    rw [tokens, String.toList_append]
    exact hScan
  exact ⟨t, _, hTokens, buildsString_of_lexeme hKind.symm hSame⟩

/-- Every string of a source is a text between quotes whose own quotes come in pairs. -/
theorem buildsString_of_mem_tokens {source : String} (h : t ∈ tokens source) (hKind : t.kind = .string) :
    ∃ text quote, t.BuildsString text quote ∧ Text.paired quote.char text.toList = true := by
  obtain ⟨quote, body, hLexeme, hPaired⟩ := isQuoted_of_mem_tokens h hKind
  refine ⟨String.ofList body, quote, buildsString_of_lexeme hKind ?_, by rwa [String.toList_ofList]⟩
  rw [stringLexeme, String.toList_ofList, ← hLexeme, String.ofList_toList]

end Token

namespace Quote

/-- A text with its quotes doubled is read as one string that says the text, and doubling the quotes in
what a string of a source says gives back what stands between its quotes. -/
theorem strings_roundtrip :
    (∀ (quote : Quote) (text rest : String), rest.toList.head? ≠ some quote.char →
      ∃ t more, Token.tokens (stringLexeme (quote.escape text) quote ++ rest) = t :: more ∧
        t.BuildsString (quote.escape text) quote ∧ quote.unescape (quote.escape text) = text) ∧
      ∀ (source : String), ∀ t ∈ Token.tokens source, t.kind = .string →
        ∃ text quote, t.BuildsString text quote ∧ quote.escape (quote.unescape text) = text := by
  constructor
  · intro quote text rest hRest
    have hHead : ∀ c ∈ rest.toList.head?, c ≠ quote.char := fun c hc hSame =>
      hRest (hSame ▸ hc)
    obtain ⟨t, more, hTokens, hBuilds⟩ := Token.tokens_stringLexeme (quote.paired_escape text) hHead
    exact ⟨t, more, hTokens, hBuilds, quote.unescape_escape text⟩
  · intro source t ht hKind
    obtain ⟨text, quote, hBuilds, hPaired⟩ := Token.buildsString_of_mem_tokens ht hKind
    exact ⟨text, quote, hBuilds, quote.escape_unescape hPaired⟩

/-- A string of two quotes, in front of a string in the other quotes. -/
theorem strings_roundtrip_quotes :
    (∃ t more, Token.tokens ("''''''" ++ "\"a\"") = t :: more ∧ t.BuildsString "''''" .single ∧
      unescape .single "''''" = "''") ∧
      ∃ t ∈ Token.tokens "x = 'it''s'", t.kind = .string ∧ ∃ text quote, t.BuildsString text quote ∧
        escape quote (quote.unescape text) = text := by
  refine ⟨strings_roundtrip.1 .single "''" "\"a\"" (by decide), ?_⟩
  obtain ⟨t, ht, hKind⟩ : ∃ t ∈ Token.tokens "x = 'it''s'", t.kind = .string := by decide +kernel
  exact ⟨t, ht, hKind, strings_roundtrip.2 "x = 'it''s'" t ht hKind⟩

end Quote

end CfScript
