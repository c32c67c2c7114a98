import CfScript.Build.Script
import CfScript.Fixture.Basic
import CfScript.Layout.Text

/-!
# Comparing a source with its fixture

The sections of a fixture are compared with what the source gives, up to blanks. A section without
text is not compared, and a source with errors fails whatever its fixture says.
-/

namespace CfScript

/-- What a source gives. -/
structure Actual where
  tokens : String
  tree : String
  /-- The source written out again; empty if it holds no statement. -/
  text : String
  errors : List Diagnostic
deriving DecidableEq, Inhabited

/-- Why a source does not pass. -/
inductive Failure where
  /-- A section differs; the texts are shown with single spaces. -/
  | mismatch (part : Section) (expected actual : String)
  /-- The source has errors. -/
  | diagnostics (messages : List String)
deriving DecidableEq, Inhabited

namespace Actual

/-- What a source gives. -/
def ofSource (source : String) : Actual :=
  let script := Script.ofSource source
  { tokens := Token.listing script.tokens, tree := script.tree.written,
    text := (script.root?.map (·.render {} 0)).getD "", errors := script.findings.errors }

/-- The number of bytes from which on a tree is too large for its text to be recorded as well. -/
def treeLimit : Nat := 30000

/-- Whether the text is recorded. A blank text is not, because it would stand for the source. -/
def recordsText (a : Actual) : Bool :=
  Text.byteLength a.tree.toList < treeLimit && a.errors.isEmpty && !Text.isBlankText a.text

/-- The fixture that expects what was given. -/
def toFixture (a : Actual) : Fixture where
  tokens? := some a.tokens
  tree? := some a.tree
  decompile? := if a.recordsText then some a.text else none

/-- The failure of a source with errors. -/
def errorFailure? (a : Actual) : Option Failure :=
  if a.errors.isEmpty then none else some (.diagnostics (a.errors.map (·.message)))

end Actual

namespace Fixture

/-- The failure of a section, if its texts differ up to blanks. -/
def compare? (part : Section) (expected actual : String) : Option Failure :=
  let expected := Text.collapse expected
  let actual := Text.collapse actual
  if expected = actual then none else some (.mismatch part expected actual)

/-- The section, if it has more than blanks in it. -/
def compared (section? : Option String) : Option String := section?.filter (!Text.isBlankText ·)

/-- Why a source does not pass; nothing if it does. -/
def check (f : Fixture) (source : String) (actual : Actual) : List Failure :=
  ((compared f.tokens?).bind (compare? .tokens · actual.tokens)).toList ++
    ((compared f.tree?).bind (compare? .tree · actual.tree)).toList ++
    actual.errorFailure?.toList ++
    ((f.expectedText source).bind (compare? .decompile · actual.text)).toList

end Fixture

end CfScript
