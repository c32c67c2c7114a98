import CfScript.Build.Script
import CfScript.Layout.Text

/-!
# Formatting a source

Formatting parses a source and writes its program tree. It is refused if the source has errors,
because what cannot be parsed would be lost. Attributes are written as they are: their names are not
checked.

## Main results

* `format_eq_error_iff`: formatting fails exactly on the sources with errors;
* `isFormatted_iff`: a source is formatted when formatting gives it back.
-/

namespace CfScript

/-- A source that cannot be formatted, with what is wrong with it. -/
structure FormatError where
  errors : List Diagnostic
deriving DecidableEq, Inhabited

/-- The error in words. -/
def FormatError.message (e : FormatError) : String :=
  "cannot format source with " ++ toString e.errors.length ++ " syntax error(s)"

/-- The script of a source whose attributes are not checked. -/
def Script.unchecked (source : String) : Script := ofSource source {} { policy := .ignore }

/-- The source laid out in a style. -/
def format (source : String) (style : Style) : Except FormatError String :=
  let script := Script.unchecked source
  if script.hasErrors then .error ⟨script.findings.errors⟩
  else .ok (scriptText script.root? style)

/-- Whether the source is laid out in a style already. -/
def isFormatted (source : String) (style : Style) : Except FormatError Bool :=
  (format source style).map (· == source)

theorem format_eq_error_iff (source : String) (style : Style) :
    format source style = .error ⟨(Script.unchecked source).findings.errors⟩ ↔
      (Script.unchecked source).hasErrors = true := by
  simp only [format]
  split <;> simp_all

theorem isFormatted_iff {source : String} {style : Style} :
    isFormatted source style = .ok true ↔ format source style = .ok source := by
  unfold isFormatted
  cases format source style with
  | error e => simp [Except.map]
  | ok text => simp [Except.map]

end CfScript
