import CfScript.Build.Root
import CfScript.Parser.Basic

/-!
# From a source to its program tree

The whole way: the source is cut into tokens, parsed, and built. The findings are those of the
scanner, those of the parser and those of the build, in this order, each with its line and the text
that it is about.

## Main results

* `findings_ofSource`: what a source gives is found in the order of the phases.
-/

namespace CfScript

/-- A source with its tree, its program tree and the findings about it. -/
structure Script where
  /-- Nothing, if the source holds no statement. -/
  root? : Option Statement
  tree : Tree
  /-- All tokens, comments included. -/
  tokens : List Token
  findings : Log
  prediction : Prediction

namespace Script

/-- Whether the source is unusable. -/
def hasErrors (script : Script) : Bool := script.findings.hasErrors

/-- The script of a source. -/
def ofSource (source : String) (options : ParseOptions := {}) (rules : AttributeRules := {}) :
    Script :=
  let output := parse source options
  let (root?, built) := Build.run output.tree rules
  { root?, tree := output.tree, tokens := output.tokens,
    findings := (output.findings.append built.entries).locate source,
    prediction := output.prediction }

theorem findings_ofSource (source : String) (options : ParseOptions) (rules : AttributeRules) :
    (ofSource source options rules).findings =
      ((parse source options).findings.append
        (Build.run (parse source options).tree rules).2.entries).locate source := rfl

end Script

end CfScript
