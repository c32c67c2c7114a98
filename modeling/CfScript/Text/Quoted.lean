/-!
# Doubled quotes

Inside a quoted text the quote itself is written twice. `double` writes a text that way and `single`
reads it back, taking the pairs from the left; a quote that stands alone is kept.

## Main results

* `single_double`: reading back what was written gives the text;
* `double_single`: on a text whose quotes come in pairs, writing gives back what was read.
-/

namespace CfScript.Text

/-- Every quote twice. -/
def double (quote : Char) : List Char → List Char
  | [] => []
  | c :: cs => if c = quote then quote :: quote :: double quote cs else c :: double quote cs

/-- Every pair of quotes once. -/
def single (quote : Char) : List Char → List Char
  | c :: d :: cs =>
    if c = quote ∧ d = quote then quote :: single quote cs else c :: single quote (d :: cs)
  | cs => cs

theorem single_cons_of_ne {quote c : Char} (cs : List Char) (h : c ≠ quote) :
    single quote (c :: cs) = c :: single quote cs := by
  cases cs with
  | nil => simp [single]
  | cons d ds => simp [single, h]

theorem single_double (quote : Char) (chars : List Char) :
    single quote (double quote chars) = chars := by
  induction chars with
  | nil => rfl
  | cons c cs ih =>
    by_cases h : c = quote
    · simp [double, h, single, ih]
    · simp [double, h, single_cons_of_ne, ih]

/-- Whether the quotes, taken from the left, come in adjacent pairs. -/
def paired (quote : Char) : List Char → Bool
  | [] => true
  | [c] => c ≠ quote
  | c :: d :: cs => if c = quote then d = quote && paired quote cs else paired quote (d :: cs)

theorem paired_cons_of_ne {quote c : Char} (cs : List Char) (h : c ≠ quote) :
    paired quote (c :: cs) = paired quote cs := by
  cases cs with
  | nil => simp [paired, h]
  | cons d ds => simp [paired, h]

theorem paired_double (quote : Char) (chars : List Char) :
    paired quote (double quote chars) = true := by
  induction chars with
  | nil => rfl
  | cons c cs ih =>
    by_cases h : c = quote
    · simp [double, h, paired, ih]
    · simp [double, h, paired_cons_of_ne, ih]

theorem double_single (quote : Char) (chars : List Char) (h : paired quote chars = true) :
    double quote (single quote chars) = chars := by
  fun_induction paired quote chars with
  | case1 => rfl
  | case2 c => simp_all [single, double]
  | case3 d cs ih => simp_all [single, double]
  | case4 c d cs hc ih => simp_all [single, double]

end CfScript.Text
