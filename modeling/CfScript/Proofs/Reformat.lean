import CfScript.Ast.Equality
import CfScript.Layout.Format
import CfScript.Proofs.Places

/-!
# Formatting what was formatted

The text that formatting gives is written from the program tree alone, without its places. So it would
be left as it is if it were always parsed to the program that it was written from. It is not. Attributes
change their order, and a name that is also an operator may come to stand behind a value; and parentheses
that layout adds stay in the program tree.

## Main results

* `format_eq_ok_iff`: what formatting gives;
* `format_eq_of_unplaced`: sources with the same program up to places are formatted alike;
* `format_not_faithful`, `format_not_idempotent`: texts that are parsed to something else.
-/

namespace CfScript

theorem format_eq_ok_iff {source text : String} {style : Style} :
    format source style = .ok text ↔ (Script.unchecked source).hasErrors = false ∧
      scriptText (Script.unchecked source).root? style = text := by
  simp only [format]
  cases (Script.unchecked source).hasErrors <;> simp

/-- Formatting a source without errors depends on its program alone, and not on the places there. -/
theorem format_eq_of_unplaced {source other : String}
    (hSource : (Script.unchecked source).hasErrors = false)
    (hOther : (Script.unchecked other).hasErrors = false)
    (hSame : (Script.unchecked source).root?.map (·.unplaced) =
      (Script.unchecked other).root?.map (·.unplaced)) (style : Style) :
    format source style = format other style := by
  have hText : scriptText (Script.unchecked other).root? style =
      scriptText (Script.unchecked source).root? style := by
    rw [← scriptText_unplaced, ← hSame, scriptText_unplaced]
  rw [format_eq_ok_iff.2 ⟨hSource, rfl⟩, format_eq_ok_iff.2 ⟨hOther, hText⟩]

/-- The text that formatting gives may be read as something else. A name moves behind a value that it
is an operator for; and an assignment gains parentheses, which are part of a program. -/
theorem format_not_faithful :
    (format "property a lt=1 min=2;" {} = .ok "property a min=2 lt=1;\n" ∧
        (Script.unchecked "property a min=2 lt=1;\n").hasErrors = true) ∧
      format "f(a += 1);" {} = .ok "f((a += 1));\n" ∧
        sameStatement? (Script.unchecked "f((a += 1));\n").root?
          (Script.unchecked "f(a += 1);").root? = false := by
  refine ⟨⟨?_, by decide +kernel⟩, ?_, by decide +kernel⟩
  · exact format_eq_ok_iff.2 (by decide +kernel)
  · exact format_eq_ok_iff.2 (by decide +kernel)

/-- The text that formatting gives may be one that cannot be formatted. -/
theorem format_not_idempotent :
    ¬ ∀ source style text, format source style = .ok text → format text style = .ok text := by
  intro h
  have hText : format "property a lt=1 min=2;" {} = .ok "property a min=2 lt=1;\n" :=
    format_eq_ok_iff.2 (by decide +kernel)
  have hErrors := (format_eq_ok_iff.1 (h _ _ _ hText)).1
  exact absurd hErrors (by decide +kernel)

end CfScript
