import CfScript.Diagnostic.Code
import CfScript.Source.LineIndex

/-!
# Diagnostics

A diagnostic is one finding about a source: what was found, how grave it is, which phase found it and
where. The line and the source text beside it may be left open by the phase that makes the finding;
`locate` fills them in from the source.

## Main results

* `locate_line`, `locate_context`: locating keeps a line and a context that are already there;
* `locate_frame`: locating changes nothing else.
-/

namespace CfScript

/-- How grave a finding is. -/
inductive Severity where
  | error
  | warning
  | note
deriving DecidableEq, Inhabited

/-- The phase that made a finding. -/
inductive Phase where
  | lexer
  | parser
  | validation
  | structural
deriving DecidableEq, Inhabited

/-- A remark at a place in the source. -/
structure Label where
  span : Span
  message : String
deriving DecidableEq, Inhabited

/-- One finding about a source. -/
structure Diagnostic where
  severity : Severity
  phase : Phase
  code : Option ErrorCode := none
  message : String
  span : Span
  /-- The line of the finding; 0 while it is not known. -/
  line : LineNumber := 0
  /-- The source text the finding is about; empty while it is not known. -/
  context : String := ""
  labels : List Label := []
  notes : List String := []
  /-- How to repair the finding, when the phase that made it knows. -/
  help : Option String := none
deriving DecidableEq, Inhabited

namespace Diagnostic

/-- Whether the finding makes the source unusable. -/
def isError (d : Diagnostic) : Bool := d.severity == .error

/-- The source text at a finding: the text under its span, or else the whole line. -/
def contextIn (d : Diagnostic) (source : String) (index : LineIndex) (line : LineNumber) : String :=
  let fragment := (d.span.slice source).getD ""
  if fragment.isEmpty then Text.trim ((index.lineText source line).getD "") else fragment

/-- The diagnostic with the line and the context that the source gives it. -/
def locate (d : Diagnostic) (source : String) (index : LineIndex) : Diagnostic :=
  let line := if d.line = 0 then index.line d.span.start.toNat else d.line
  let context := if d.context.isEmpty then d.contextIn source index line else d.context
  { d with line, context }

theorem locate_line {d : Diagnostic} (source : String) (index : LineIndex) (h : d.line ≠ 0) :
    (d.locate source index).line = d.line := by
  simp [locate, h]

theorem locate_context {d : Diagnostic} (source : String) (index : LineIndex)
    (h : d.context.isEmpty = false) : (d.locate source index).context = d.context := by
  simp [locate, h]

theorem locate_frame (d : Diagnostic) (source : String) (index : LineIndex) :
    { d.locate source index with line := d.line, context := d.context } = d := rfl

/-- The word for a severity at the head of a line. -/
def levelText : Severity → String
  | .error => "error"
  | .warning => "warning"
  | .note => "note"

/-- The diagnostic on one line: severity, code, line and message. -/
def text (d : Diagnostic) : String :=
  let code := match d.code with
    | some code => "[" ++ code.number ++ "]"
    | none => ""
  levelText d.severity ++ code ++ " (line " ++ toString d.line ++ "): " ++ d.message

/-- What a machine reads about a finding. -/
structure Record where
  line : LineNumber
  startOffset : Nat
  endOffset : Nat
  context : String
  message : String
deriving DecidableEq, Inhabited

/-- The record of a diagnostic. -/
def record (d : Diagnostic) : Record where
  line := d.line
  startOffset := d.span.start.toNat
  endOffset := d.span.stop.toNat
  context := d.context
  message := d.message

end Diagnostic

end CfScript
