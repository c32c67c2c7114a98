import CfScript.Proofs.SourceAccount

/-!
# Where the texts of a program come from

A program says nothing that its source does not say, whatever is wrong with the source: a name, a path
or a number is the text of one or more tokens that stand side by side, and a string is a token without
its quotes. There is one exception. The parser assumes a name behind `new` and behind `import` if there
is none, and such a name is read as the empty text, where any other name that is assumed makes the
build of the statement fail.

## Main results

* `ofSource_drawn`: all texts of a program come from its source, but for paths that were assumed;
* `ofSource_not_drawn`: those are empty.
-/

namespace CfScript

/-- All texts in the program of a source come from tokens that stand side by side in it, but for the
empty path of a class or an import. It stands for a name that the tree lacks. -/
theorem ofSource_drawn (source : String) (options : ParseOptions) (rules : AttributeRules) :
    ∀ root ∈ (Script.ofSource source options rules).root?, ∀ n ∈ root.nodes, ∀ w ∈ n.texts,
      w.DrawnFrom (Token.words source) ∨
        w = .path "" ∧ (Script.ofSource source options rules).tree.LacksName := by
  obtain ⟨root?, ds, hRun, -, hDraws, -⟩ := run_accounts source options rules
  have hRoot : (Script.ofSource source options rules).root? = root? := congrArg Prod.fst hRun
  intro root hMem n hn w hw
  obtain rfl : root? = some root := hRoot.symm.trans hMem
  have hDrawn := hDraws n hn w hw
  rw [Ground.Drawn, Ground.tokens_ofSource] at hDrawn
  exact hDrawn

/-- The path of an import in front of a broken assignment. -/
theorem ofSource_drawn_import :
    let source := "import a.b; x = ;"
    (parse source {}).hasErrors = true ∧
      ∃ root ∈ (Script.ofSource source).root?, ∃ n ∈ root.nodes, .path "a.b" ∈ n.texts ∧
        (Written.path "a.b").DrawnFrom (Token.words source) := by
  intro source
  have hTexts : Written.path "a.b" ∈ (Script.ofSource source).root?.toList.flatMap
      (·.nodes.flatMap (·.texts)) := by
    decide +kernel
  obtain ⟨root, hMem, hText⟩ := List.mem_flatMap.1 hTexts
  obtain ⟨n, hn, hw⟩ := List.mem_flatMap.1 hText
  have hRoot := Option.mem_toList.1 hMem
  refine ⟨by decide +kernel, root, hRoot, n, hn, hw, ?_⟩
  exact (ofSource_drawn source {} {} root hRoot n hn _ hw).resolve_right fun h => by simp at h

/-- The path of an import without a name is empty, and it is not found that the import cannot be
built. -/
theorem ofSource_not_drawn :
    ¬ ∀ (source : String) (options : ParseOptions) (rules : AttributeRules),
      ∀ root ∈ (Script.ofSource source options rules).root?, ∀ n ∈ root.nodes, ∀ w ∈ n.texts,
        w.DrawnFrom (Token.words source) := by
  intro h
  have hTexts : (Script.ofSource "import ;").root?.toList.flatMap
      (·.nodes.flatMap (·.texts)) = [.path ""] := by
    decide +kernel
  obtain ⟨root, hRoot, hMem⟩ := List.mem_flatMap.1 (hTexts ▸ List.mem_singleton_self (Written.path ""))
  obtain ⟨n, hn, hw⟩ := List.mem_flatMap.1 hMem
  exact (h "import ;" {} {} root (Option.mem_toList.1 hRoot) n hn _ hw).1 rfl

end CfScript
