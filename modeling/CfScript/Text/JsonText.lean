/-!
# Strings in JSON

A string is written between double quotes. The quote and the backslash are written after a backslash,
five control characters have a letter of their own, and the other characters below the space are
written as four hexadecimal digits. Everything else stands for itself.

## Main results

* `escaped_of_plain`: a character that needs no escape is written as itself.
-/

namespace CfScript.Text

/-- The hexadecimal digit of a number below 16, in small letters. -/
def hexDigit (n : Nat) : Char := Nat.digitChar n

/-- A character inside a JSON string. -/
def escaped (c : Char) : List Char :=
  match c with
  | '"' => ['\\', '"']
  | '\\' => ['\\', '\\']
  | '\n' => ['\\', 'n']
  | '\r' => ['\\', 'r']
  | '\t' => ['\\', 't']
  | '\x08' => ['\\', 'b']
  | '\x0c' => ['\\', 'f']
  | c =>
    if c.toNat < 0x20 then ['\\', 'u', '0', '0', hexDigit (c.toNat / 16), hexDigit (c.toNat % 16)]
    else [c]

/-- A text as a JSON string. -/
def jsonString (text : String) : String :=
  "\"" ++ String.ofList (text.toList.flatMap escaped) ++ "\""

theorem escaped_of_plain {c : Char} (hSpace : 0x20 ≤ c.toNat) (hQuote : c ≠ '"')
    (hBackslash : c ≠ '\\') : escaped c = [c] := by
  have hNot : ¬c.toNat < 0x20 := by omega
  unfold escaped
  split <;> simp_all

end CfScript.Text
