import CfScript.Diagnostic.Basic
import CfScript.Text.Lines

/-!
# Texts of a report

A report shows a diagnostic to a reader: a header, the labels, and under them one line of help and one
note. These are its texts; how they are drawn beside the source is left to the outer layer. The header,
the help and the note are lines: each shows no more than the first line of its text, the header with
the blanks at its end, the other two without. A label is shown whole.

Labels are drawn on the characters of the source, counted from its start, and a position is taken for
such a count. So a label is shown only if it does not reach beyond the number of characters, which in
a source with wide characters may be less than the number of bytes. Help and note stand under the
source: they are left out when no label has a place in it.

## Main results

* `isPlacedIn_of_isShownIn`: a label that is shown has a place in the source.
-/

namespace CfScript.Diagnostic

/-- The word for a severity in the header of a report. -/
def headerWord : Severity → String
  | .error => "Error"
  | .warning => "Warning"
  | .note => "Advice"

/-- What the program was doing when it made a finding. -/
def phaseText : Phase → String
  | .lexer => "while tokenizing"
  | .parser => "while parsing"
  | .validation => "while validating attributes"
  | .structural => "while building the AST"

/-- The texts of a report. -/
structure Report where
  header : String
  labels : List String
  help : Option String
  note : Option String
deriving DecidableEq, Inhabited

/-- The header line with this text: its first line. A line feed ends the header, so a carriage return
at the end of the text is part of the line break. -/
def headerLine (text : String) : String :=
  String.ofList (Text.firstLine (text.toList ++ ['\n']))

/-- The line of help or of a note with this text: its first line, without the blanks at its end. -/
def remarkLine (text : String) : String :=
  String.ofList (Text.trimEndBy Text.isBlank (Text.firstLine text.toList))

/-- The labels a report is to show: those of the diagnostic, or else its phase at its span. -/
def reportLabels (d : Diagnostic) : List Label :=
  if d.labels.isEmpty then [{ span := d.span, message := phaseText d.phase }] else d.labels

/-- Whether the label lies on a source of so many characters. -/
def isShownIn (length : Nat) (label : Label) : Bool := label.span.stop.toNat ≤ length

/-- Whether the label has a place in a source of so many characters: the end of the source counts as
a character here. -/
def isPlacedIn (length : Nat) (label : Label) : Bool :=
  label.span.start.toNat ≤ length && label.span.stop.toNat ≤ length + 1

theorem isPlacedIn_of_isShownIn {length : Nat} {label : Label} (h : isShownIn length label = true) :
    isPlacedIn length label = true := by
  have hOrder := label.span.start_le_stop
  simp only [isShownIn, isPlacedIn, decide_eq_true_eq, Bool.and_eq_true] at h ⊢
  omega

/-- The report of a diagnostic of a source. A diagnostic without labels is labelled with its phase,
one without help of its own takes the suggestion of its code, and of several notes the last one is
shown. -/
def report (d : Diagnostic) (source : String) : Report :=
  let labels := d.reportLabels
  let remark (text : Option String) : Option String :=
    if labels.any (isPlacedIn source.length) then text.map remarkLine else none
  { header := headerLine <|
      (match d.code with
        | some code => "[" ++ code.number ++ "] "
        | none => "") ++ headerWord d.severity ++ ": " ++ d.message
    labels := (labels.filter (isShownIn source.length)).map (·.message)
    help := remark (d.help.orElse fun _ => d.code.bind (·.suggestion))
    note := remark d.notes.getLast? }

end CfScript.Diagnostic
