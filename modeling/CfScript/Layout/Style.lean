/-!
# Layout styles

A style says what one level of indentation is and whether a whole text ends with a line feed. The
default is a tab for each level, and a line feed at the end.
-/

namespace CfScript

/-- One level of indentation. -/
inductive Indent where
  | tab
  | spaces (width : Nat)
deriving DecidableEq, Inhabited

/-- The text of one level. -/
def Indent.unit : Indent → String
  | tab => "\t"
  | spaces width => String.ofList (List.replicate width ' ')

/-- How a program is laid out. -/
structure Style where
  indent : Indent := .tab
  /-- Whether a text that is not empty ends with a line feed. -/
  finalNewline : Bool := true
deriving DecidableEq, Inhabited

namespace Style

/-- The width of a level when tabs are turned off and no width has been chosen. -/
def defaultWidth : Nat := 4

/-- The style with tabs or, unless it has a width already, the default number of spaces. -/
def useTabs (style : Style) : Bool → Style
  | true => { style with indent := .tab }
  | false =>
    match style.indent with
    | .tab => { style with indent := .spaces defaultWidth }
    | .spaces _ => style

/-- The style with a number of spaces for each level. -/
def indentWidth (style : Style) (width : Nat) : Style := { style with indent := .spaces width }

/-- The style with or without a line feed at the end of a text. -/
def withFinalNewline (style : Style) (on : Bool) : Style := { style with finalNewline := on }

theorem useTabs_useTabs (style : Style) (on : Bool) :
    (style.useTabs on).useTabs on = style.useTabs on := by
  obtain ⟨indent, finalNewline⟩ := style
  cases on <;> cases indent <;> rfl

end Style

end CfScript
