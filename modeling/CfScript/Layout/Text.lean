import CfScript.Layout.Steps

/-!
# The text of a program tree

A node is written from the middle of a line, at a level: its first line is not indented, and its later
lines are indented to that level and to the depth at which they stand in the node. A whole program is
written from the start of a line, each statement with the semicolon that ends it.

## Main results

* `scriptText_none`: the text of no program is empty, whatever the style.
-/

namespace CfScript

/-- The text of an expression. -/
def Expression.render (e : Expression) (style : Style) (depth : Nat) : String :=
  Step.print (Layout.expression false e) style.indent depth

/-- The text of a statement without the semicolon that ends it. -/
def Statement.render (s : Statement) (style : Style) (depth : Nat) : String :=
  Step.print (Layout.statement s) style.indent depth

/-- The text of a property declaration. -/
def Property.render (p : Property Expression) (style : Style) (depth : Nat) : String :=
  Step.print (Layout.property ⟨p.form, ⟨Layout.attributes p.attributes.entries⟩⟩) style.indent depth

/-- The text of the attributes, in the order of the map. -/
def AttributeMap.render (map : AttributeMap Expression) (style : Style) (depth : Nat) : String :=
  Step.print
    (Layout.joined [.space] ((Layout.attributes map.entries).map Layout.assigned))
    style.indent depth

/-- The steps of a whole program. -/
def Statement.scriptSteps : Statement → List Step
  | .script body _ => Layout.joined [.newline] (Layout.children body)
  | s => Layout.terminated s (Layout.statement s)

/-- The text of a whole program. -/
def scriptText (root? : Option Statement) (style : Style) : String :=
  let steps := (root?.map (·.scriptSteps)).getD []
  let text := Step.print steps style.indent 0
  if style.finalNewline && !text.isEmpty then text ++ "\n" else text

theorem scriptText_none (style : Style) : scriptText none style = "" := by
  simp [scriptText, Step.print, Printer.new]

end CfScript
