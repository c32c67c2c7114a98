import CfScript.Layout.Style

/-!
# Printing with indentation

What is to be printed is a list of steps: write a text, start a new line, go one level deeper or back.
A printer carries them out. It starts in the middle of a line, so the first line is not indented. Every
later line is indented when the first text is written on it, so a line without text stays empty. A
line feed inside a text is copied and indents nothing.

## Main results

* `run_append`: printing two lists of steps is printing one after the other;
* `write_empty`: the empty text leaves no trace;
* `dedent_indent`: a level that was entered can be left.
-/

namespace CfScript

/-- One step of printing. -/
inductive Step where
  | write (text : String)
  | newline
  | indent
  | dedent
deriving DecidableEq, Inhabited

/-- The step that writes a space. -/
def Step.space : Step := .write " "

/-- A printed text and where printing goes on. -/
structure Printer where
  /-- The text of one level of indentation. -/
  unit : String
  /-- The level of the next line. Levels have no largest one here. They are counted in machine words where
  a text is really printed, and a line so deep that the count runs over is longer than any text. -/
  depth : Nat
  /-- Whether the indentation of the line is still to be written. -/
  pending : Bool := false
  text : String := ""
deriving DecidableEq, Inhabited

namespace Printer

/-- A printer in the middle of a line, at a level. -/
def new (indent : Indent) (depth : Nat) : Printer := { unit := indent.unit, depth }

/-- The indentation of a line. -/
def margin (p : Printer) : String := String.join (List.replicate p.depth p.unit)

/-- Writes a text, after the indentation if that is due. The empty text is not written. -/
def write (p : Printer) (text : String) : Printer :=
  if text.isEmpty then p
  else if p.pending then { p with pending := false, text := p.text ++ p.margin ++ text }
  else { p with text := p.text ++ text }

/-- Carries out a step. -/
def step (p : Printer) : Step → Printer
  | .write text => p.write text
  | .newline => { p with pending := true, text := p.text.push '\n' }
  | .indent => { p with depth := p.depth + 1 }
  | .dedent => { p with depth := p.depth - 1 }

/-- Carries out the steps in turn. -/
def run (p : Printer) (steps : List Step) : Printer := steps.foldl step p

@[simp] theorem run_nil (p : Printer) : p.run [] = p := rfl

@[simp] theorem run_cons (p : Printer) (s : Step) (steps : List Step) :
    p.run (s :: steps) = (p.step s).run steps := rfl

theorem run_append (p : Printer) (a b : List Step) : p.run (a ++ b) = (p.run a).run b :=
  List.foldl_append

theorem write_empty (p : Printer) : p.write "" = p := rfl

theorem dedent_indent (p : Printer) : p.run [.indent, .dedent] = p := by
  simp [step]

end Printer

/-- The text of steps that are printed from the middle of a line at a level. -/
def Step.print (steps : List Step) (indent : Indent) (depth : Nat) : String :=
  ((Printer.new indent depth).run steps).text

end CfScript
