import CfScript.Proofs.SourceAccount

/-!
# Attributes checked on the way and afterwards

The names of attributes are checked in two places. A build checks them while it puts the attributes of
an element together, and `Statement.validate` checks a statement of the program tree. Both come to the
same findings: a source without errors, none of whose elements has an attribute twice, is built with a
finding for each unknown attribute at a statement of its program tree, at every depth.

## Main results

* `nodes_validate`: only statements have findings;
* `ofSource_validates`: what a build finds about attributes is what the check of all statements finds.
-/

namespace CfScript

namespace Diagnostic

/-- To locate a finding that has a context changes nothing but its line. -/
theorem unlined_locate {d : Diagnostic} (source : String) (index : LineIndex) (h : d.context ≠ "") :
    (d.locate source index).unlined = d.unlined := by
  have hContext : d.context.isEmpty = false := by simpa using h
  simp [unlined, locate, hContext]

end Diagnostic

/-- A statement is checked without a line. -/
theorem Statement.unlined_validate (s : Statement) (rules : AttributeRules) :
    (s.validate rules).map (·.unlined) = s.validate rules := by
  refine (List.map_congr_left fun d hd => ?_).trans (List.map_id _)
  unfold Statement.validate at hd
  split at hd
  · obtain ⟨a, -, ha⟩ := List.mem_filterMap.1 hd
    obtain ⟨severity, -, rfl⟩ := Option.map_eq_some_iff.1 ha
    rfl
  · cases hd

/-- Only statements have findings about their attributes. -/
theorem nodes_validate (ns : List Node) (rules : AttributeRules) :
    ns.flatMap (·.validate rules) =
      (ns.filterMap (·.statement?)).flatMap fun s => (s.validate rules).map (·.unlined) := by
  induction ns with
  | nil => rfl
  | cons n ns ih =>
    cases n with
    | expression e => exact ih
    | statement s =>
      have hSome : (Node.statement s :: ns).filterMap (·.statement?) =
          s :: ns.filterMap (·.statement?) := List.filterMap_cons_some rfl
      rw [List.flatMap_cons, ih, hSome, List.flatMap_cons, s.unlined_validate]
      rfl

/-- What a build finds about unknown attributes is what the check of all statements of the program
tree finds, up to the order and the lines. -/
theorem ofSource_validates {source : String} {options : ParseOptions} {rules : AttributeRules}
    (hParse : (parse source options).findings.entries = [])
    (hOnce : ∀ d ∈ (Script.ofSource source options rules).findings.entries,
      d.code ≠ some .duplicateAttribute) :
    (((Script.ofSource source options rules).findings.entries.filter
        (·.code = some .unknownAttribute)).map (·.unlined)).Perm
      (((Script.ofSource source options rules).root?.toList.flatMap (·.statements)).flatMap
        fun s => (s.validate rules).map (·.unlined)) := by
  obtain ⟨root?, ds, hRun, hPlaces, -, hCount⟩ := run_accounts source options rules
  have hRoot : (Script.ofSource source options rules).root? = root? := congrArg Prod.fst hRun
  have hEntries : (Script.ofSource source options rules).findings.entries =
      ds.map (·.locate source (.ofText source)) := by
    rw [Script.findings_ofSource, hRun, Log.locate, Log.append, hParse, List.nil_append]
  -- Nothing is wrong with the tree, and so nothing is found that is not about an attribute.
  have hClean : (parse source options).hasErrors = false := by
    rw [ParseOutput.hasErrors, Log.hasErrors, hParse, List.any_nil]
  obtain ⟨hWell, hTree⟩ := parse_clean hClean
  have hQuiet := Build.quiet_root hWell (parse_closed source options) (rule?_of_parse source options)
  have hPlain : ∀ d ∈ ds, d.IsPlain := by
    intro d hd
    have hLocated : d.locate source (.ofText source) ∈
        (Script.ofSource source options rules).findings.entries :=
      hEntries ▸ List.mem_map_of_mem hd
    have hCode := hOnce (d.locate source (.ofText source)) hLocated
    exact ⟨Build.phase_run hQuiet rules d (hRun ▸ hd), hCode⟩
  have hUnlined : ∀ d ∈ ds, (d.locate source (.ofText source)).unlined = d.unlined := by
    intro d hd
    obtain ⟨-, t, ht, -, -, hContext⟩ := (hPlaces d hd).resolve_left (hPlain d hd).1
    refine Diagnostic.unlined_locate source _ ?_
    rw [hContext]
    exact (Ground.ofSource source options rules).filled t ht
  have hFound : ((ds.map (·.locate source (.ofText source))).filter
      (·.code = some .unknownAttribute)).map (·.unlined) =
        (ds.filter (·.code = some .unknownAttribute)).map (·.unlined) := by
    rw [List.filter_map, List.map_map]
    exact List.map_congr_left fun d hd => hUnlined d (List.mem_filter.1 hd).1
  have hChecked : (root?.toList.flatMap (·.statements)).flatMap
      (fun s => (s.validate rules).map (·.unlined)) =
        (statementNodes? root?).flatMap (·.validate rules) := by
    rw [nodes_validate]
    cases root? <;> simp [statementNodes?, Statement.statements]
  rw [hEntries, hFound, hRoot, hChecked, ← Multiset.coe_eq_coe]
  exact hCount hTree hPlain

/-- An attribute in the body of a function that is the value of an attribute. -/
theorem ofSource_validates_closure :
    let source := "lock a=function() { lock c=2 {} } {}"
    let script := Script.ofSource source
    (parse source {}).findings.entries = [] ∧
      (∀ d ∈ script.findings.entries, d.code ≠ some .duplicateAttribute) ∧
      script.findings.entries.map (·.context) = ["c", "a"] ∧
      ((script.findings.entries.filter (·.code = some .unknownAttribute)).map (·.unlined)).Perm
        ((script.root?.toList.flatMap (·.statements)).flatMap
          fun s => (s.validate {}).map (·.unlined)) := by
  intro source script
  have hParse : (parse source {}).findings.entries = [] := by decide +kernel
  have hOnce : ∀ d ∈ script.findings.entries, d.code ≠ some .duplicateAttribute := by
    decide +kernel
  exact ⟨hParse, hOnce, by decide +kernel, ofSource_validates hParse hOnce⟩

end CfScript
