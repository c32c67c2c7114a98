import CfScript.Proofs.SourceBuild
import Mathlib.Algebra.GroupWithZero.Nat

/-!
# What is kept of a source

If no error is found in a source, its program tree has the lists of statements that are kept of its
parse tree. Of statements that is all of them, but for two sorts that have no place in a program tree:
those in a second default clause of a `switch`, and those in the value of an attribute that is given
again. In a tree that has neither, no statement is lost.

That what is kept is all of it is shown by counting. The parts of a node that are kept are the parts
themselves in another order, and a statement is counted wherever it stands.

## Main results

* `Tree.isSingle`: whether nothing in a tree is given twice;
* `Rule.kept_perm`: all parts of a node are kept if none is given twice;
* `Tree.Built.countLists_kept`: a tree in which nothing is given twice keeps all statements;
* `ofSource_keeps`: what the program tree of a source holds.
-/

namespace CfScript

open Outline (countLists countAll)

/-! ## Counting -/

namespace Outline

@[simp] theorem countLists_append (xs ys : List (List Outline)) :
    countLists (xs ++ ys) = countLists xs + countLists ys := by
  induction xs with
  | nil => simp [countLists]
  | cons os xs ih => simp [countLists, ih, Nat.add_assoc]

end Outline

/-- The number of statements that a part adds to those of a node. A statement in a list counts
itself. -/
def Piece.count (rule : Rule) (p : Piece) : Nat :=
  if rule.holdsList && p.tree.isStatement then (p.outline?.map (·.count)).getD 0
  else countLists p.held

theorem Piece.outline?_of_not_isStatement {p : Piece} (h : p.tree.isStatement = false) :
    p.outline? = none := by
  unfold outline?
  cases hRule : p.tree.rule? with
  | none => rfl
  | some rule =>
    have hNot : rule.isStatement = false := by simpa [Tree.isStatement, hRule] using h
    simp [hNot]

/-- The statements of a node are those of its parts. -/
theorem Rule.countLists_held (rule : Rule) (ps : List Piece) :
    countLists (rule.held ps) =
      if rule = emptyStatement then 0 else (ps.map (·.count rule)).sum := by
  unfold held
  split
  next => rfl
  next =>
    cases hList : rule.holdsList with
    | false =>
      simp only [Bool.false_eq_true, if_false]
      induction ps with
      | nil => rfl
      | cons p ps ih => simp [Piece.count, hList, ih]
    | true =>
      simp only [if_true, Outline.countLists_append]
      induction ps with
      | nil => rfl
      | cons p ps ih =>
        rw [List.map_cons, List.sum_cons, ← ih]
        cases hStatement : p.tree.isStatement with
        | false =>
          have hCount : p.count rule = countLists p.held := by simp [Piece.count, hStatement]
          simp [hStatement, hCount, p.outline?_of_not_isStatement hStatement, Nat.add_assoc]
        | true =>
          have hCount : p.count rule = (p.outline?.map (·.count)).getD 0 := by
            simp [Piece.count, hStatement, hList]
          cases hOutline : p.outline? with
          | none => simp [hStatement, hOutline, hCount]
          | some o =>
            have hListed : (p :: ps).filterMap (·.outline?) = o :: ps.filterMap (·.outline?) :=
              List.filterMap_cons_some hOutline
            have hOthers : (p :: ps).filter (!·.tree.isStatement) =
                ps.filter (!·.tree.isStatement) := by simp [hStatement]
            simp only [hListed, hOthers, hCount, hOutline, countLists, countAll, Option.map_some,
              Option.getD_some]
            omega

/-- The order of the parts does not matter. -/
theorem Rule.countLists_held_perm (rule : Rule) {ps qs : List Piece} (h : ps.Perm qs) :
    countLists (rule.held ps) = countLists (rule.held qs) := by
  rw [countLists_held, countLists_held, (h.map _).sum_nat]

/-- Only the numbers of the statements in the parts matter. -/
theorem Rule.countLists_held_congr (rule : Rule) {cs : List Tree} {f g : Tree → List (List Outline)}
    (h : ∀ c ∈ cs, countLists (f c) = countLists (g c)) :
    countLists (rule.held (cs.map fun c => ⟨c, f c⟩)) =
      countLists (rule.held (cs.map fun c => ⟨c, g c⟩)) := by
  have hCount : ∀ c ∈ cs, Piece.count rule ⟨c, f c⟩ = Piece.count rule ⟨c, g c⟩ := by
    intro c hc
    unfold Piece.count Piece.outline?
    cases c.rule? with
    | none => simp [h c hc]
    | some other =>
      by_cases hOther : other.isStatement = true ∧ ¬ other = .emptyStatement
      · simp [hOther, Outline.count, h c hc]
      · simp [hOther, h c hc]
  simp only [countLists_held, List.map_map, Function.comp_def]
  rw [List.map_congr_left hCount]

/-! ## Parts that are given twice -/

/-- The name of an attribute in small letters. -/
def Tree.attributeName? (t : Tree) : Option String :=
  if t.isNode .attribute then
    (t.children.head?.bind (·.token?)).map fun u => Text.fold u.lexeme
  else none

/-- Whether a node of the rule has one default clause at most, and attributes of different names. -/
def Rule.isSingle (rule : Rule) (cs : List Tree) : Bool :=
  (rule != switchStatement || (cs.filter (·.isNode .defaultClause)).length ≤ 1) &&
    (!rule.hasAttributes || (cs.filterMap (·.attributeName?)).Nodup)

namespace Tree

mutual

/-- Whether no `switch` in the tree has a second default clause and no attribute is given again. -/
def isSingle : Tree → Bool
  | leaf _ => true
  | node rule cs => rule.isSingle cs && isSingleAll cs

/-- Whether nothing is given twice in any of the trees. -/
def isSingleAll : List Tree → Bool
  | [] => true
  | t :: ts => t.isSingle && isSingleAll ts

end

theorem isSingleAll_iff {ts : List Tree} : isSingleAll ts = true ↔ ∀ t ∈ ts, t.isSingle = true := by
  induction ts with
  | nil => simp [isSingleAll]
  | cons t ts ih => simp [isSingleAll, ih]

end Tree

namespace AttributeMap

variable {α : Type}

/-- Attributes of different names are all kept, in order. -/
theorem entries_insertAll {map : AttributeMap α} {as : List (Attribute α)}
    (h : (map.keys ++ as.map (Text.fold ·.name.name)).Nodup) :
    (map.insertAll as).entries = map.entries ++ as := by
  induction as generalizing map with
  | nil => simp [insertAll]
  | cons a as ih =>
    have hNew : map.contains a.name.name = false := by
      rw [Bool.eq_false_iff, ne_eq, contains_iff]
      intro hMem
      exact (List.nodup_append.1 h).2.2 _ hMem _ (by simp) rfl
    have hEntries : (map.insert a.name a.value).2.entries = map.entries ++ [a] := by
      rw [← get?_isSome, Option.isSome_eq_false_iff, Option.isNone_iff_eq_none] at hNew
      rw [insert, hNew]
    have hKeys := keys_insert_of_not_contains map a.name a.value hNew
    have hDistinct : ((map.insert a.name a.value).2.keys ++
        as.map (Text.fold ·.name.name)).Nodup := by
      rw [hKeys]
      simpa using h
    rw [insertAll, List.foldl_cons, ← insertAll, ih hDistinct, hEntries, List.append_assoc]
    rfl

theorem entries_ofList {as : List (Attribute α)}
    (h : (as.map (Text.fold ·.name.name)).Nodup) : (ofList as).entries = as := by
  have hEmpty : ((empty : AttributeMap α).keys ++ as.map (Text.fold ·.name.name)).Nodup := h
  exact entries_insertAll hEmpty

end AttributeMap

namespace Rule

theorem name_attribute? (c : Tree) :
    (attribute? (.of c)).map (Text.fold ·.name.name) = c.attributeName? := by
  rw [attribute?, Tree.attributeName?, show (Piece.of c).tree = c from rfl]
  split
  · rw [Option.map_map]
    rfl
  · rfl

/-- The attributes with names are the parts that are attributes. -/
theorem map_value_attributes {cs : List Tree}
    (hNamed : ∀ c ∈ cs, c.isNode .attribute = true → c.attributeName?.isSome = true) :
    ((cs.map Piece.of).filterMap attribute?).map (·.value) =
      (cs.map Piece.of).filter (·.tree.isNode .attribute) := by
  induction cs with
  | nil => rfl
  | cons c cs ih =>
    have hRest := ih fun c hc => hNamed c (by simp [hc])
    rw [List.map_cons, List.filter_cons]
    split
    next hNode =>
      have hName := hNamed c (by simp) hNode
      rw [← name_attribute?, Option.isSome_map] at hName
      obtain ⟨a, ha⟩ := Option.isSome_iff_exists.1 hName
      have hValue : a.value = .of c := by
        rw [attribute?, if_pos hNode] at ha
        obtain ⟨_, -, rfl⟩ := Option.map_eq_some_iff.1 ha
        rfl
      rw [List.filterMap_cons_some ha, List.map_cons, hRest, hValue]
    next hNode =>
      have hNone : attribute? (.of c) = none := if_neg hNode
      rw [List.filterMap_cons_none hNone, hRest]

/-- Attributes of different names are all kept. -/
theorem values_attributes {cs : List Tree}
    (hNamed : ∀ c ∈ cs, c.isNode .attribute = true → c.attributeName?.isSome = true)
    (hNodup : (cs.filterMap (·.attributeName?)).Nodup) :
    (AttributeMap.ofList ((cs.map Piece.of).filterMap attribute?)).values =
      (cs.map Piece.of).filter (·.tree.isNode .attribute) := by
  have hNames : ((cs.map Piece.of).filterMap attribute?).map (Text.fold ·.name.name) =
      cs.filterMap (·.attributeName?) := by
    simp only [List.map_filterMap, List.filterMap_map, Function.comp_def, name_attribute?]
  rw [← hNames] at hNodup
  rw [AttributeMap.values, AttributeMap.entries_ofList hNodup]
  exact map_value_attributes hNamed

/-- Parts that are neither attributes nor blocks, attributes and blocks are all parts. -/
theorem perm_attributed (ps : List Piece) :
    (ps.filter (fun p => !p.tree.isNode .attribute && !p.tree.isNode .block) ++
      ps.filter (·.tree.isNode .attribute) ++ ps.filter (·.tree.isNode .block)).Perm ps := by
  have hBlocks : ps.filter (·.tree.isNode .block) =
      (ps.filter (!·.tree.isNode .attribute)).filter (·.tree.isNode .block) := by
    rw [List.filter_filter]
    refine List.filter_congr fun p _ => ?_
    by_cases hBlock : p.tree.isNode .block = true
    · obtain ⟨ds, hTree⟩ := Tree.isNode_iff.1 hBlock
      simp [hTree]
    · simp [hBlock]
  have hOthers : ps.filter (fun p => !p.tree.isNode .attribute && !p.tree.isNode .block) =
      (ps.filter (!·.tree.isNode .attribute)).filter (!·.tree.isNode .block) := by
    rw [List.filter_filter]
    exact List.filter_congr fun p _ => Bool.and_comm _ _
  rw [List.append_assoc]
  refine List.perm_append_comm.trans ?_
  rw [List.append_assoc, hBlocks, hOthers]
  exact ((List.filter_append_perm _ _).append_left _).trans (List.filter_append_perm _ _)

/-- All parts of a node are kept if none is given twice. -/
theorem kept_perm {rule : Rule} {cs : List Tree}
    (hNamed : ∀ c ∈ cs, c.isNode .attribute = true → c.attributeName?.isSome = true)
    (hSingle : rule.isSingle cs = true) :
    (rule.kept (cs.map Piece.of)).Perm (cs.map Piece.of) := by
  simp only [isSingle, Bool.and_eq_true, Bool.or_eq_true, bne_iff_ne, ne_eq, decide_eq_true_eq,
    Bool.not_eq_true'] at hSingle
  obtain ⟨hDefault, hNodup⟩ := hSingle
  unfold kept
  split
  next hSwitch =>
    have hOne : ((cs.map Piece.of).filter (·.tree.isNode .defaultClause)).length ≤ 1 := by
      rw [List.filter_map, List.length_map]
      exact hDefault.resolve_left (not_not_intro hSwitch)
    have hFind : ((cs.map Piece.of).find? (·.tree.isNode .defaultClause)).toList =
        (cs.map Piece.of).filter (·.tree.isNode .defaultClause) := by
      rw [← List.head?_filter]
      generalize (cs.map Piece.of).filter (·.tree.isNode .defaultClause) = ps at hOne
      match ps, hOne with
      | [], _ => rfl
      | [_], _ => rfl
    rw [hFind]
    exact List.perm_append_comm.trans (List.filter_append_perm _ _)
  next =>
  split
  next hAttributes =>
    rw [values_attributes hNamed (hNodup.resolve_left (by simp [hAttributes]))]
    exact perm_attributed _
  next => exact .refl _

end Rule

namespace Tree

/-- A tree in which nothing is given twice keeps all its statements. -/
theorem Built.countLists_kept {t : Tree} (h : t.Built) (hSingle : t.isSingle = true) :
    countLists t.kept = countLists (t.held all) := by
  induction h with
  | token => rfl
  | @node rule cs hForm hBuilt _ _ ih =>
    rw [isSingle, Bool.and_eq_true, isSingleAll_iff] at hSingle
    have hNamed : ∀ c ∈ cs, c.isNode .attribute = true → c.attributeName?.isSome = true := by
      intro c hc hNode
      obtain ⟨ds, rfl⟩ := isNode_iff.1 hNode
      obtain ⟨w, m, e, rfl, -, -⟩ := (hBuilt _ hc).parts.attribute
      rfl
    calc countLists (Tree.node rule cs).kept
        = countLists (rule.held (rule.kept (cs.map .of))) := by rw [kept_eq_held]
      _ = countLists (rule.held (cs.map .of)) :=
        rule.countLists_held_perm (Rule.kept_perm hNamed hSingle.1)
      _ = countLists (rule.held (cs.map fun c => ⟨c, c.held all⟩)) :=
        rule.countLists_held_congr fun c hc => ih c hc (hSingle.2 c hc)
      _ = countLists ((Tree.node rule cs).held all) := by rw [Tree.held, pieces_eq_map]; rfl

end Tree

/-! ## Sources -/

/-- The statement of a script: none, the only one, or all of them. -/
def Statement.ofList? (span : Span) : List Statement → Option Statement
  | [] => none
  | [s] => some s
  | ss => some (.script ss span)

/-- Whether the statement at the root of the program tree of a parse tree holds the lists: the list of
the statements of a script, or the lists in a value. -/
inductive RootHolds (t : Tree) (root? : Option Statement) : List (List Outline) → Prop
  | statements {ss : List Statement} : t.rule? = some .scriptBlock →
    root? = Statement.ofList? t.span ss → RootHolds t root? [outlines ss]
  | value {e : Expression} : t.rule? = some .standaloneExpression →
    root? = some (.expression e e.span) → RootHolds t root? e.held

/-- A statement at the root of a script that is no script itself is the only one. -/
theorem RootHolds.eq_of_some {t : Tree} {s : Statement} {lists : List (List Outline)}
    (h : RootHolds t (some s) lists) (hTree : t.rule? = some .scriptBlock)
    (hRule : s.rule ≠ .scriptBlock) : lists = [outlines [s]] := by
  cases h with
  | @statements ss _ hRoot =>
    rcases ss with _ | ⟨first, _ | ⟨next, rest⟩⟩
    · cases hRoot
    · cases hRoot
      rfl
    · cases hRoot
      exact absurd rfl hRule
  | value hOther =>
    rw [hTree] at hOther
    cases hOther

/-- Whether the program tree of a source has as many statements as its parse tree. -/
def Script.KeepsAll (script : Script) : Prop :=
  ∃ lists, RootHolds script.tree script.root? lists ∧
    countLists lists = countLists (script.tree.held Tree.all)

/-- A script of one statement keeps as many statements as are counted of it. -/
theorem Script.KeepsAll.count {script : Script} (h : script.KeepsAll) (rule : Rule) (n : Nat)
    (hTree : script.tree.rule? = some .scriptBlock) (hRule : rule ≠ .scriptBlock)
    (hRoot : (script.root?.map fun s => (s.rule, countLists [outlines [s]])) = some (rule, n)) :
    countLists (script.tree.held Tree.all) = n := by
  obtain ⟨lists, hHolds, hCount⟩ := h
  obtain ⟨s, hSome, hPair⟩ := Option.map_eq_some_iff.1 hRoot
  cases hPair
  rw [hSome] at hHolds
  rw [← hCount, hHolds.eq_of_some hTree hRule]

namespace Build

theorem run_of_gives {t : Tree} {P : Option Statement → Prop} (h : (root t).Gives P)
    (rules : AttributeRules) : P (run t rules).1 := by
  obtain ⟨s?, log, hRun, hP⟩ := h rules .empty
  rw [run, hRun]
  exact hP

/-- The root of a script without errors is made of its statements. -/
theorem gives_root_script {cs : List Tree} (h : (Tree.node .scriptBlock cs).Built) :
    (root (.node .scriptBlock cs)).Gives fun s? => ∃ ss,
      s? = Statement.ofList? (Tree.node .scriptBlock cs).span ss ∧
        [outlines ss] = (Tree.node .scriptBlock cs).kept := by
  have hParts : (Reading.ofTree (.node .scriptBlock cs)).parts = cs.map Reading.ofTree :=
    Reading.parts_ofTree _
  change Gives (wholeScript _ _) _
  rw [hParts, wholeScript]
  refine (gives_script h.parts).bind fun ss hss => ?_
  rcases ss with _ | ⟨s, _ | ⟨next, rest⟩⟩
  · exact gives_pure ⟨[], rfl, hss⟩
  · exact gives_pure ⟨[s], rfl, hss⟩
  · exact gives_pure ⟨s :: next :: rest, rfl, hss⟩

/-- The root of an expression without errors is the expression as a statement. -/
theorem gives_root_expression {cs : List Tree} (h : (Tree.node .standaloneExpression cs).Built) :
    (root (.node .standaloneExpression cs)).Gives fun s? => ∃ e : Expression,
      s? = some (.expression e e.span) ∧
        e.held = (Tree.node .standaloneExpression cs).kept := by
  have hForm := h.parts
  obtain ⟨e, us, rfl, he, hForm⟩ := hForm.expression
  obtain ⟨us, vs, rfl, hus, hForm⟩ := hForm.many
  obtain ⟨u, vs, rfl, -, hForm⟩ := hForm.kind
  obtain rfl := hForm.done
  obtain rfl : us = [] := List.eq_nil_iff_forall_not_mem.2 fun t ht => nomatch (hus t ht).1
  refine (he.builds.orLeaveOut _ _).bind fun e? hValue => ?_
  obtain ⟨value, rfl, hHeld⟩ := hValue
  refine gives_pure ⟨value, rfl, ?_⟩
  rw [hHeld, Tree.kept_node rfl]
  simp

/-- What is built of the root of a parse without errors holds what is kept of the tree. -/
theorem rootHolds_run {t : Tree} {entry : Entry} (h : t.Built) (hRule : t.rule? = some entry.rule)
    (rules : AttributeRules) : RootHolds t (run t rules).1 t.kept := by
  cases t with
  | leaf l => cases hRule
  | node rule cs =>
    obtain rfl : rule = entry.rule := Option.some.inj hRule
    cases entry with
    | script =>
      obtain ⟨ss, hRoot, hHeld⟩ := run_of_gives (gives_root_script h) rules
      exact hHeld ▸ .statements rfl hRoot
    | expression =>
      obtain ⟨e, hRoot, hHeld⟩ := run_of_gives (gives_root_expression h) rules
      exact hHeld ▸ .value rfl hRoot

end Build

/-- A source in which no error is found keeps its statements: the lists of its program tree are those
that are kept of its parse tree. If nothing is given twice in the parse tree, that is every statement
of every list. -/
theorem ofSource_keeps (source : String) (options : ParseOptions) (rules : AttributeRules)
    (h : (Script.ofSource source options rules).hasErrors = false) :
    let script := Script.ofSource source options rules
    RootHolds script.tree script.root? script.tree.kept ∧
      (script.tree.isSingle = true → script.KeepsAll) := by
  intro script
  have hParse : (parse source options).hasErrors = false := by
    rw [Script.hasErrors, Script.findings_ofSource, Log.hasErrors_locate, Log.hasErrors] at h
    exact (Bool.or_eq_false_iff.1 ((List.any_append ..).symm.trans h)).1
  obtain ⟨hForm, hErrors⟩ := parse_clean hParse
  have hBuilt : script.tree.Built := hForm.built hErrors (parse_closed source options)
  have hHolds : RootHolds script.tree script.root? script.tree.kept :=
    Build.rootHolds_run hBuilt (rule?_of_parse source options) rules
  exact ⟨hHolds, fun hSingle => ⟨_, hHolds, hBuilt.countLists_kept hSingle⟩⟩

/-- Statements in the clauses of a `switch` and in the body of a function that is a value are kept. -/
theorem ofSource_keeps_clauses :
    let script := Script.ofSource
      "f = function() { g(); }; switch (x) { case 1: a(); break; default: b(); }"
    script.hasErrors = false ∧ RootHolds script.tree script.root? script.tree.kept ∧
      script.KeepsAll ∧ countLists (script.tree.held Tree.all) = 6 := by
  intro script
  have h := ofSource_keeps
    "f = function() { g(); }; switch (x) { case 1: a(); break; default: b(); }" {} {}
    (by decide +kernel)
  exact ⟨by decide +kernel, h.1, h.2 (by decide +kernel), by decide +kernel⟩

/-- What is given twice is kept once: the second default clause of a `switch` has no place in the
program tree, and neither has the first value of an attribute. -/
theorem ofSource_given_twice :
    let clauses := Script.ofSource "switch (x) { default: a(); default: b(); }"
    let attributes := Script.ofSource "component a=function() { x(); } a=1 { }"
    (clauses.hasErrors = false ∧ ¬ clauses.KeepsAll) ∧
      (attributes.hasErrors = false ∧ ¬ attributes.KeepsAll) := by
  intro clauses attributes
  refine ⟨⟨by decide +kernel, fun h => ?_⟩, ⟨by decide +kernel, fun h => ?_⟩⟩
  · have hCount := h.count .switchStatement 2 (by decide +kernel) (by decide)
      (by decide +kernel)
    exact absurd hCount (by decide +kernel)
  · have hCount := h.count .componentDeclaration 1 (by decide +kernel) (by decide)
      (by decide +kernel)
    exact absurd hCount (by decide +kernel)

end CfScript
