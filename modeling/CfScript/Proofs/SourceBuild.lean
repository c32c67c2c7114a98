import CfScript.Build.Script
import CfScript.Proofs.QuietBuild
import CfScript.Proofs.WholeTree

/-!
# Builds of sources

A statement of a source is left out of the program tree for one reason only: a token of it was skipped,
or a part of it was assumed. All other statements are built, since a parse tree has the form of the
grammar also where it is broken: what stands in a list of statements is a token, a statement or
something with an error in it. So no build of a source finds anything about the structure of the tree.

## Main results

* `Tree.WellFormed.calm`: the builds of a well-formed tree are quiet;
* `quiet_root`: so is the build of the root of a parse;
* `ofSource_builds`: all that a parse makes without errors is built.
-/

namespace CfScript

/-! ## Lists of statements -/

/-- Whether a part may stand in a list of statements: it is a statement, or a token beside it. -/
def Tree.isListed (t : Tree) : Bool := t.isStatement || t.isTokenThat fun _ => true

namespace Form

variable {p q : Tree → Bool} {next : Form} {ts : List Tree}

theorem forall_done (h : done ts) : ∀ t ∈ ts, t.Fits q := by
  cases h
  exact nofun

theorem forall_one (hp : ∀ t, p t = true → q t = true)
    (hNext : ∀ {us}, next us → ∀ t ∈ us, t.Fits q) (h : one p next ts) : ∀ t ∈ ts, t.Fits q := by
  obtain ⟨t, us, rfl, ht, hus⟩ := one_iff.1 h
  exact List.forall_mem_cons.2 ⟨ht.imp_right (hp t), hNext hus⟩

theorem forall_many (hp : ∀ t, p t = true → q t = true)
    (hNext : ∀ {us}, next us → ∀ t ∈ us, t.Fits q) (h : many p next ts) : ∀ t ∈ ts, t.Fits q := by
  obtain ⟨us, vs, rfl, hus, hvs⟩ := h
  exact List.forall_mem_append.2 ⟨fun u hu => (hus u hu).imp_right (hp u), hNext hvs⟩

theorem listed_statement {t : Tree} (h : t.isStatement = true) : t.isListed = true := by
  simp [Tree.isListed, h]

theorem listed_token {test : Token → Bool} {t : Tree} (h : t.isTokenThat test = true) :
    t.isListed = true := by
  obtain ⟨u, rfl, -⟩ := Tree.isTokenThat_iff.1 h
  rfl

end Form

open Form in
/-- Behind the head of a list there are statements and marks. -/
theorem Rule.listed_of_form {rule : Rule} {cs : List Tree} (h : rule.form cs)
    (hList : rule.holdsList = true) : ∀ c ∈ cs.drop rule.listFrom, c.Fits (·.isListed) := by
  cases rule with
  | scriptBlock =>
    exact forall_many (fun _ => listed_statement)
      (forall_one (fun _ => listed_token) forall_done) h
  | block =>
    exact forall_one (fun _ => listed_token) (forall_many (fun _ => listed_statement)
      (forall_one (fun _ => listed_token) forall_done)) h
  | caseClause =>
    obtain ⟨_, us, rfl, -, h⟩ := one_iff.1 h
    obtain ⟨_, us, rfl, -, h⟩ := one_iff.1 h
    exact forall_one (fun _ => listed_token) (forall_many (fun _ => listed_statement) forall_done) h
  | defaultClause =>
    obtain ⟨_, us, rfl, -, h⟩ := one_iff.1 h
    exact forall_one (fun _ => listed_token) (forall_many (fun _ => listed_statement) forall_done) h
  | _ => cases hList

theorem Tree.WellFormed.form {rule : Rule} {cs : List Tree} (h : (Tree.node rule cs).WellFormed) :
    rule.form cs := by
  cases h with
  | node hForm => exact hForm

/-! ## Quiet builds -/

open Build in
/-- The builds of a well-formed tree are quiet, from the leaves upwards. -/
theorem Tree.WellFormed.calm {t : Tree} (h : t.WellFormed) (hClosed : t.Closed) :
    (Reading.ofTree t).Calm := by
  induction h with
  | leaf l => exact .mk nofun (quiet_leafStatement l) (quiet_leafExpression l) nofun
  | @node rule cs hForm hAll ih =>
    have hCalm : ∀ c ∈ cs, (Reading.ofTree c).Calm := fun c hc => ih c hc (hClosed.child c hc)
    have hStatement : ∀ c ∈ cs, c.Fits (·.isListed) → (Reading.ofTree c).rule? = none ∨
        (Reading.ofTree c).tree.hasErrors = true ∨
        (Reading.ofTree c).statement.Gives fun _ => True := by
      intro c hc hFits
      rw [Reading.tree_ofTree, Reading.rule?, Reading.tree_ofTree]
      by_cases hErrors : c.hasErrors = true
      · exact .inr (.inl hErrors)
      · have hBuilt := (hAll c hc).built (Bool.eq_false_iff.2 hErrors) (hClosed.child c hc)
        have hListed : c.isListed = true := hFits.resolve_left hErrors
        rw [isListed, Bool.or_eq_true] at hListed
        rcases hListed with hS | hToken
        · exact .inr (.inr ((hBuilt.body hS).builds.imp fun _ _ => trivial))
        · obtain ⟨u, rfl, -⟩ := isTokenThat_iff.1 hToken
          exact .inl rfl
    have hBranch : Branch.Calm ⟨rule, .node rule cs, Reading.ofTrees cs⟩ := by
      rw [Reading.ofTrees_eq_map]
      constructor
      · intro r hr
        obtain ⟨c, hc, rfl⟩ := List.mem_map.1 hr
        exact hCalm c hc
      · intro hList
        refine quiet_statements fun r hr => ?_
        rw [← List.map_drop] at hr
        obtain ⟨c, hDrop, rfl⟩ := List.mem_map.1 hr
        have hc := List.mem_of_mem_drop hDrop
        exact ⟨(hCalm c hc).statement,
          hStatement c hc (Rule.listed_of_form hForm hList c hDrop)⟩
    refine .mk hBranch.parts (quiet_branchStatement hBranch) (quiet_branchExpression hBranch) ?_
    intro other hOther hList
    obtain rfl : rule = other := Option.some.inj hOther
    exact hBranch.list hList

namespace Build

/-- The build of the root of a parse is quiet. -/
theorem quiet_root {t : Tree} {entry : Entry} (h : t.WellFormed) (hClosed : t.Closed)
    (hRule : t.rule? = some entry.rule) : (root t).Quiet := by
  have hCalm := h.calm hClosed
  cases t with
  | leaf l => cases hRule
  | node rule cs =>
    obtain rfl : rule = entry.rule := Option.some.inj hRule
    cases entry with
    | script =>
      have hList : (statements (Reading.ofTree (.node .scriptBlock cs)).parts).Quiet := by
        cases hCalm with
        | mk _ _ _ hLists => exact hLists .scriptBlock rfl rfl
      refine hList.bind fun ss => ?_
      split <;> exact quiet_pure _
    | expression =>
      obtain ⟨e, us, rfl, he, -⟩ := Form.one_iff.1 h.form
      have hQuiet : (expression e).Quiet := (hCalm.parts (Reading.ofTree e) (.head _)).expression
      refine Quiet.bind (Quiet.orLeaveOut (P := fun _ => True) hQuiet ?_) fun _ => quiet_pure _
      by_cases hErrors : e.hasErrors = true
      · exact .inl (by simp [Tree.hasErrors, Tree.hasErrorsAny, hErrors])
      · have hBuilt := (h.child e (by simp)).built (Bool.eq_false_iff.2 hErrors)
          (hClosed.child e (by simp))
        exact .inr ((hBuilt.operand (he.resolve_left hErrors)).builds.imp fun _ _ => trivial)

/-- What a quiet build of the root finds is not about the structure of the tree. -/
theorem phase_run {t : Tree} (h : (root t).Quiet) (rules : AttributeRules) :
    ∀ d ∈ (run t rules).2.entries, d.phase ≠ .structural := by
  obtain ⟨ds, hDs, hAll⟩ := h rules .empty
  unfold run
  cases hRun : (root t).runOn rules .empty with
  | mk result log =>
    rw [hRun] at hDs
    obtain rfl : log = Log.empty.append ds := hDs
    cases result <;> exact hAll

end Build

/-! ## Sources -/

/-- No finding about a source is about the structure of its tree: every statement and every expression
in the tree in which no token was skipped and no part assumed is built, whatever the rules for
attributes are. -/
theorem ofSource_builds (source : String) (options : ParseOptions) (rules : AttributeRules)
    (hStrategy : options.strategy ≠ .fastOnly) :
    (∀ d ∈ (Script.ofSource source options rules).findings.entries, d.phase ≠ .structural) ∧
      ∀ path part, (Script.ofSource source options rules).tree.part? path = some part →
        part.hasErrors = false →
          (part.isStatement = true → (Build.statement part).Gives (·.Represents part)) ∧
          (part.isExpression = true → (Build.expression part).Gives (·.held = part.kept)) := by
  have hTree := parse_wellFormed source hStrategy
  have hClosed := parse_closed source options
  constructor
  · intro d hd
    have hQuiet := Build.quiet_root hTree hClosed (rule?_of_parse source options)
    obtain ⟨e, he, hPhase⟩ := Log.phase_of_mem_locate hd
    rw [hPhase]
    rcases List.mem_append.1 he with he | he
    · exact parse_phase source options e he
    · exact Build.phase_run hQuiet rules e he
  · intro path part hPart hErrors
    have hBuilt : part.Built :=
      (Tree.part?_of_child (fun _ _ h => h.child) hTree hPart).built hErrors
        (Tree.part?_of_child (fun _ _ h => h.child) hClosed hPart)
    exact ⟨fun hStatement => (hBuilt.body hStatement).builds,
      fun hExpression => (hBuilt.operand hExpression).builds⟩

/-- A statement that is broken is left out without a word, and the one behind it is built. -/
theorem ofSource_builds_behind :
    let script := Script.ofSource "x = ; a();"
    script.tree.hasErrors = true ∧ (∀ d ∈ script.findings.entries, d.phase ≠ .structural) ∧
      ∃ part, script.tree.part? [1] = some part ∧ part.isStatement = true ∧
        (Build.statement part).Gives (·.Represents part) := by
  intro script
  have h := ofSource_builds "x = ; a();" {} {} (by decide)
  have hSecond : (script.tree.part? [1]).map (fun t => (t.isStatement, t.hasErrors)) =
      some (true, false) := by decide +kernel
  obtain ⟨part, hPart, hPair⟩ := Option.map_eq_some_iff.1 hSecond
  obtain ⟨hStatement, hErrors⟩ := Prod.mk.inj hPair
  exact ⟨by decide +kernel, h.1, part, hPart, hStatement, (h.2 [1] part hPart hErrors).1 hStatement⟩

end CfScript
