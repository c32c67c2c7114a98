import CfScript.Diagnostic.Basic

/-!
# Collected diagnostics

The phases append their findings to one log, which keeps every finding, in order. A parse that takes
back what it tried also takes back what it found, by cutting the log to its former length.

## Main results

* `truncate_length_push`: cutting a log to its length takes back a finding that was added;
* `hasErrors_iff`: a log has errors exactly when it counts at least one.
-/

namespace CfScript

/-- A sequence of findings, oldest first. -/
structure Log where
  entries : List Diagnostic := []
deriving DecidableEq, Inhabited

namespace Log

/-- The log with no finding. -/
def empty : Log := {}

/-- The log with one more finding. -/
def push (log : Log) (d : Diagnostic) : Log := ⟨log.entries ++ [d]⟩

/-- The log with more findings. -/
def append (log : Log) (ds : List Diagnostic) : Log := ⟨log.entries ++ ds⟩

/-- The number of findings. -/
def length (log : Log) : Nat := log.entries.length

/-- Whether there is no finding. -/
def isEmpty (log : Log) : Bool := log.entries.isEmpty

/-- The log of the first `count` findings. -/
def truncate (log : Log) (count : Nat) : Log := ⟨log.entries.take count⟩

/-- The findings that are errors. -/
def errors (log : Log) : List Diagnostic := log.entries.filter (·.isError)

/-- Whether some finding is an error. -/
def hasErrors (log : Log) : Bool := log.entries.any (·.isError)

/-- The number of errors. -/
def errorCount (log : Log) : Nat := log.errors.length

/-- The log with the line and context of every finding that the source gives. -/
def locate (log : Log) (source : String) : Log :=
  let index := LineIndex.ofText source
  ⟨log.entries.map (·.locate source index)⟩

@[simp] theorem length_push (log : Log) (d : Diagnostic) : (log.push d).length = log.length + 1 := by
  simp [push, length]

@[simp] theorem truncate_length (log : Log) : log.truncate log.length = log := by
  simp [truncate, length]

theorem append_append (log : Log) (ds es : List Diagnostic) :
    (log.append ds).append es = log.append (ds ++ es) := by
  simp [append]

theorem truncate_length_append (log : Log) (ds : List Diagnostic) :
    (log.append ds).truncate log.length = log := by
  simp [truncate, append, length]

theorem truncate_length_push (log : Log) (d : Diagnostic) :
    (log.push d).truncate log.length = log :=
  truncate_length_append log [d]

theorem hasErrors_iff (log : Log) : log.hasErrors = true ↔ 0 < log.errorCount := by
  simp [hasErrors, errorCount, errors, List.length_pos_iff, List.filter_eq_nil_iff]

@[simp] theorem length_locate (log : Log) (source : String) :
    (log.locate source).length = log.length := by
  simp [locate, length]

end Log

end CfScript
