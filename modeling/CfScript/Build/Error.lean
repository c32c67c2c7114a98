import CfScript.Diagnostic.Log
import CfScript.Tree.Basic

/-!
# Parse trees that are no program

A parse tree may have a shape that no statement and no expression has: a part is not there, or another
part stands in its place. The statement around it is left out of the program tree. The finding about
it is made only if the parse tree is free of errors, since otherwise the parser has already made one.

## Main results

* `malformed?_eq_none_iff`: a finding is made exactly about the trees without errors.
-/

namespace CfScript

namespace Tree

/-- The tree as a message to a reader shows it. -/
def found : Tree → String
  | node rule _ => rule.name
  | leaf (.matched t) => t.found
  | leaf (.skipped t) => t.found
  | leaf (.assumed what) => "<missing " ++ what ++ ">"

end Tree

/-- Why a part of a parse tree cannot be built. -/
inductive BuildError where
  /-- Another part stands where one is required. -/
  | unexpected (expected found : String) (span : Span)
  /-- A required part is not there. -/
  | missing (what : String) (span : Span)
  | missingPropertyName (span : Span)
  | unknownOperator (op : String) (span : Span)
deriving DecidableEq, Inhabited

namespace BuildError

/-- The error about a part that stands where something else is required. -/
def unexpectedTree (expected : String) (t : Tree) : BuildError :=
  unexpected expected t.found (t.span?.getD .dummy)

/-- The error about a node that lacks a part. -/
def missingPart (rule : Rule) (t : Tree) : BuildError := missing rule.name t.span

/-- Where the error is. -/
def span : BuildError → Span
  | unexpected _ _ span => span
  | missing _ span => span
  | missingPropertyName span => span
  | unknownOperator _ span => span

/-- The code of the error. -/
def code : BuildError → ErrorCode
  | missingPropertyName _ => .missingPropertyName
  | _ => .malformedNode

/-- The error in words. -/
def message : BuildError → String
  | unexpected expected found _ => "expected " ++ expected ++ ", found " ++ found
  | missing what _ => "missing " ++ what
  | missingPropertyName _ => "a shorthand property must have a name"
  | unknownOperator op _ => "unknown operator '" ++ op ++ "'"

/-- The finding about a node that is left out because of the error, unless the tree under the node
shows that the parser has made one. -/
def malformed? (e : BuildError) (rule : Rule) (t : Tree) : Option Diagnostic :=
  if t.hasErrors then none
  else
    let span := if e.span = .dummy then t.span else e.span
    some
      { severity := .error, phase := .structural, code := some e.code,
        message := "malformed " ++ rule.name ++ ": " ++ e.message, span,
        line := (t.firstToken?.map (·.line)).getD 0,
        labels := [⟨span, "cannot build this statement"⟩] }

theorem malformed?_eq_none_iff (e : BuildError) (rule : Rule) (t : Tree) :
    e.malformed? rule t = none ↔ t.hasErrors = true := by
  unfold malformed?
  split <;> simp_all

end BuildError

end CfScript
