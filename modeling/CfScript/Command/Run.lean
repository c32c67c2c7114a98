import CfScript.Command.Arguments
import CfScript.Diagnostic.Json
import CfScript.Diagnostic.Report
import CfScript.Fixture.Run
import CfScript.Layout.Format

/-!
# Running a command

A command prints a text and makes notices: lines for the reader, and reports about diagnostics. A
command that fails ends with an error, which is the last notice unless the caller wants it quiet.

## Main results

* `exitCode_eq_zero_iff`: a command ends well exactly when it makes no error.
-/

namespace CfScript

/-- Why a command fails. -/
inductive CommandError where
  | read (path : Path) (reason : FileError)
  | write (path : Path) (reason : FileError)
  | format (reason : FormatError)
  | fixture (reason : FixtureError)
  /-- The source has errors. -/
  | diagnostics (count : Nat)
  | notFormatted (path : Path)
  | fixturesFailed (count : Nat)
deriving DecidableEq, Inhabited

/-- The error in words. -/
def CommandError.message : CommandError → String
  | read path reason => "cannot read '" ++ path.text ++ "': " ++ reason.message
  | write path reason => "cannot write '" ++ path.text ++ "': " ++ reason.message
  | format reason => reason.message
  | fixture reason => reason.message
  | diagnostics count => toString count ++ " error(s) found"
  | notFormatted path => "would reformat: " ++ path.text
  | fixturesFailed count => toString count ++ " fixture(s) failed"

/-- What a command tells its reader. -/
inductive Notice where
  /-- A report about a finding on a line of a file. -/
  | report (file : Path) (line : LineNumber) (texts : Diagnostic.Report)
  | success (text : String)
  | warning (text : String)
  | error (text : String)
  | info (text : String)
  /-- A line that belongs to the notice before it. -/
  | detail (text : String)
deriving DecidableEq, Inhabited

/-- The text of a notice; a report has more than a text. -/
def Notice.text? : Notice → Option String
  | report .. => none
  | success text => some text
  | warning text => some ("warning: " ++ text)
  | error text => some ("error: " ++ text)
  | info text => some ("info: " ++ text)
  | detail text => some ("    " ++ text)

/-- The lines of the text of a notice, which ends with a line feed. -/
def Notice.lines (notice : Notice) : List String :=
  notice.text?.toList.flatMap fun text =>
    (Text.lines (text.toList ++ ['\n'])).map String.ofList

/-- What a command has printed and told so far. -/
structure Output where
  printed : String := ""
  notices : List Notice := []
deriving DecidableEq, Inhabited

/-- A command under way. -/
abbrev Run (m : Type → Type) := ExceptT CommandError (StateT Output m)

namespace Run

variable {m : Type → Type} [Monad m]

/-- Prints a text. -/
def print (text : String) : Run m Unit :=
  modify fun out => { out with printed := out.printed ++ text }

/-- Tells the reader something. -/
def tell (notices : List Notice) : Run m Unit :=
  modify fun out => { out with notices := out.notices ++ notices }

/-- Reports the findings about a file with this source. -/
def reportAll (file : Path) (source : String) (findings : List Diagnostic) : Run m Unit :=
  tell (findings.map fun d => .report file d.line (d.report source))

/-- The name of a kind of prediction. -/
def stageName : Prediction → String
  | .fast => "Fast"
  | .general => "General"

/-- Fails if there are errors. -/
def failOnErrors (findings : Log) : Run m Unit :=
  if findings.hasErrors then throw (.diagnostics findings.errorCount) else pure ()

variable [FileAccess m]

/-- The text of a file. -/
def readSource (file : Path) : Run m String := do
  match ← FileAccess.read file with
  | .ok text => return text
  | .error reason => throw (.read file reason)

/-- Reports what is found in a file. -/
def check (file : Path) (options : ParseOptions) (policy : AttributePolicy) (json verbose : Bool) :
    Run m Unit := do
  let source ← readSource file
  let script := Script.ofSource source options { policy }
  if verbose then
    tell [.info (toString script.tokens.length ++ " tokens, parsed by the " ++
      stageName script.prediction ++ " stage")]
  if json then
    print (Diagnostic.recordsJson (script.findings.entries.map (·.record)) ++ "\n")
  else reportAll file source script.findings.entries
  failOnErrors script.findings
  if !json then
    if script.findings.isEmpty then tell [.success "OK - No errors found"]
    else tell [.warning (toString script.findings.length ++ " warning(s) found")]

/-- Prints the tokens of a file. -/
def tokens (file : Path) : Run m Unit := do
  let source ← readSource file
  let tokens := Token.tokens source
  print (Token.listing tokens ++ "\n")
  reportAll file source (Token.complaints tokens)

/-- Prints the parse tree of a file. -/
def tree (file : Path) (options : ParseOptions) (verbose : Bool) : Run m Unit := do
  let source ← readSource file
  let output := parse source options
  print (output.tree.written ++ "\n")
  if verbose then tell [.info ("parsed by the " ++ stageName output.prediction ++ " stage")]
  reportAll file source output.findings.entries
  failOnErrors output.findings

/-- Lays out a file. -/
def format (file : Path) (style : Style) (mode : FormatMode) : Run m Unit := do
  let source ← readSource file
  match CfScript.format source style with
  | .error reason => throw (.format reason)
  | .ok text =>
    match mode with
    | .print => print text
    | .write =>
      if text = source then tell [.info ("Already formatted: " ++ file.text)]
      else
        match ← FileAccess.write file text with
        | .error reason => throw (.write file reason)
        | .ok () => tell [.success ("Formatted: " ++ file.text)]
    | .check =>
      if text = source then tell [.success ("OK: " ++ file.text)] else throw (.notFormatted file)

/-- A computation on fixtures as part of a command. -/
def ofFixture {α : Type} (x : ExceptT FixtureError m α) : Run m α := do
  match ← (x.run : m _) with
  | .ok a => return a
  | .error reason => throw (.fixture reason)

/-- What is told about a failure. -/
def failureDetails : Failure → List Notice
  | .mismatch part expected actual =>
    [.detail (part.name ++ " differs"), .detail ("expected: " ++ expected),
      .detail ("actual:   " ++ actual)]
  | .diagnostics messages => messages.map fun message => .detail ("parse error: " ++ message)

/-- What is told about the fixture of a source. -/
def reportNotices (report : FixtureReport) : List Notice :=
  let wrote := .info ("wrote " ++ report.expected.text)
  match report.outcome with
  | .passed => [.success ("ok " ++ report.source.text)]
  | .written => [wrote]
  | .failed failures =>
    (if report.written then [wrote] else []) ++
      .error ("FAILED " ++ report.source.text) :: failures.flatMap failureDetails

/-- The sources that a path stands for. -/
def sourcesAt (path : Path) : Run m (List Path) := do
  if ← FileAccess.isFolder path then ofFixture (Fixture.discover path) else return [path]

/-- Runs the fixtures of the sources, and counts those that fail. -/
def fixtures (update : Bool) : List Path → Run m Nat
  | [] => return 0
  | source :: sources => do
    let report ← ofFixture (Fixture.run source update)
    tell (reportNotices report)
    let failed ← fixtures update sources
    return failed + if report.outcome.isPass then 0 else 1

/-- Runs the fixtures of files and folders. -/
def fixture (paths : List Path) (update : Bool) : Run m Unit := do
  let sources := (← paths.mapM sourcesAt).flatten
  let failed ← fixtures update sources
  if failed = 0 then tell [.success (toString sources.length ++ " fixture(s) passed")]
  else throw (.fixturesFailed failed)

/-- Runs a command. -/
def command (verbose : Bool) : Command → Run m Unit
  | .check file options policy json => check file options policy json verbose
  | .tokens file => tokens file
  | .tree file options => tree file options verbose
  | .format file style mode => format file style mode
  | .fixture paths update => fixture paths update

end Run

/-- The exit code of a command: 1 if it fails. -/
def exitCode : Except CommandError Unit → Nat
  | .ok () => 0
  | .error _ => 1

/-- Runs a command to its end: the exit code, and what was printed and told. -/
def Invocation.run {m : Type → Type} [Monad m] [FileAccess m] (i : Invocation) : m (Nat × Output) :=
  do
  let (result, out) ← (Run.command i.verbose i.command : Run m Unit).run.run {}
  let last : List Notice := match result with
    | .ok () => []
    | .error e => if i.quiet then [] else [.error e.message]
  return (exitCode result, { out with notices := out.notices ++ last })

/-- The name and version of the program. -/
def versionText : String := "cfml 0.1.0\n"

/-- How the program is used. -/
def helpText : String :=
  "Usage: cfml [-v] [-q] <check|tokens|tree|fmt|fixture> [options] <file>...\n"

/-- Does what a command line asks for. A command line that is wrong gives the exit code 2. -/
def runArguments {m : Type → Type} [Monad m] [FileAccess m] (arguments : List String) :
    m (Nat × Output) :=
  match Request.ofArguments arguments with
  | .error e => return (2, { notices := [.error e.message] })
  | .ok .version => return (0, { printed := versionText })
  | .ok .help => return (0, { printed := helpText })
  | .ok (.run i) => i.run

theorem exitCode_eq_zero_iff (result : Except CommandError Unit) :
    exitCode result = 0 ↔ result = .ok () := by
  cases result with
  | ok u => cases u; simp [exitCode]
  | error e => simp [exitCode]

end CfScript
