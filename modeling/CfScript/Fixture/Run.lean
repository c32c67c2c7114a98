import CfScript.Files.Access
import CfScript.Fixture.Check

/-!
# Running fixtures

The fixture of a source stands beside it in a file with another extension. If there is none yet, or if
it has no tree, it is written from what the source gives; so it is when that is asked for and the source
fails. Once it is written only the errors of the source can still fail.

## Main results

* `outcome_written_of_no_errors`: a source without errors passes once its fixture is written.
-/

namespace CfScript

/-- Why a fixture cannot be run. -/
inductive FixtureError where
  | read (path : Path) (reason : FileError)
  | write (path : Path) (reason : FileError)
  /-- The file is no source. -/
  | notASource (path : Path)
  /-- The fixture has a section that is not terminated. -/
  | malformed (path : Path) (part : Section)
deriving DecidableEq, Inhabited

/-- The error in words. -/
def FixtureError.message : FixtureError → String
  | read path reason => "cannot read " ++ path.text ++ ": " ++ reason.message
  | write path reason => "cannot write " ++ path.text ++ ": " ++ reason.message
  | notASource path => path.text ++ " is not a .cfc or .cfm file"
  | malformed path part => path.text ++ ": " ++ part.unterminatedText

/-- How a source fared. -/
inductive FixtureOutcome where
  | passed
  /-- The fixture was written from what the source gives. -/
  | written
  | failed (failures : List Failure)
deriving DecidableEq, Inhabited

namespace FixtureOutcome

/-- The outcome for a source, given whether its fixture was written and what did not match before. -/
def of (written : Bool) (failures : List Failure) (actual : Actual) : FixtureOutcome :=
  if written then
    match actual.errorFailure? with
    | some failure => .failed [failure]
    | none => .written
  else if failures.isEmpty then .passed
  else .failed failures

/-- Whether the source did not fail. -/
def isPass : FixtureOutcome → Bool
  | failed _ => false
  | _ => true

theorem outcome_written_of_no_errors {actual : Actual} (failures : List Failure)
    (h : actual.errors = []) : of true failures actual = .written := by
  simp [of, Actual.errorFailure?, h]

end FixtureOutcome

/-- The report on a source. -/
structure FixtureReport where
  source : Path
  expected : Path
  outcome : FixtureOutcome
  /-- Whether the fixture was written, pass or fail. -/
  written : Bool
deriving DecidableEq, Inhabited

namespace Fixture

/-- Whether the file of a path is a source, by its extension. -/
def isSource (path : Path) : Bool :=
  match path.extension? with
  | some extension =>
    Text.sameName (String.ofList extension) "cfc" || Text.sameName (String.ofList extension) "cfm"
  | none => false

/-- The path of the fixture of a source. -/
def expectedPath (source : Path) : Except FixtureError Path :=
  if isSource source then .ok (source.withExtension "expected.txt") else .error (.notASource source)

variable {m : Type → Type} [Monad m] [FileAccess m]

/-- The text of a file. -/
def readText (path : Path) : ExceptT FixtureError m String :=
  ExceptT.mk do return (← FileAccess.read path).mapError (.read path)

/-- The fixture at a path; where there is no file, nothing is expected. -/
def load (path : Path) : ExceptT FixtureError m Fixture := do
  if ← FileAccess.isThere path then
    match ofText (← readText path) with
    | .ok fixture => return fixture
    | .error part => throw (.malformed path part)
  else return {}

/-- Runs the fixture of a source. -/
def run (source : Path) (update : Bool) : ExceptT FixtureError m FixtureReport := do
  let expected ← MonadExcept.ofExcept (expectedPath source)
  let text ← readText source
  let fixture ← load expected
  let actual := Actual.ofSource text
  let failures := fixture.check text actual
  let written := (compared fixture.tree?).isNone || (update && !failures.isEmpty)
  if written then
    let result ← FileAccess.write expected actual.toFixture.toText
    if let .error reason := result then throw (.write expected reason)
  return { source, expected, outcome := .of written failures actual, written }

/-- The sources in a folder and in the folders inside it, down to a depth. -/
def collect : Nat → Path → ExceptT FixtureError m (List Path)
  | 0, folder => throw (.read folder .nameTooLong)
  | depth + 1, folder => do
    match ← FileAccess.list folder with
    | .error reason => throw (.read folder reason)
    | .ok names =>
      let found ← names.mapM fun name => do
        let path := folder.join name
        if ← FileAccess.isFolder path then collect depth path
        else return if isSource path then [path] else []
      return found.flatten

/-- The sources in a folder and in the folders inside it, in order. A path has fewer folders on it than
it has bytes. -/
def discover (folder : Path) : ExceptT FixtureError m (List Path) :=
  return (← collect Path.maxBytes folder).mergeSort Path.le

end Fixture

end CfScript
