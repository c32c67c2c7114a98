import CfScript.Build.Root
import CfScript.Proofs.Outcome
import CfScript.Proofs.Outline

/-!
# Quiet builds

A build makes a finding about the structure of a tree in one place only: where a statement of a list
is left out. All else that it finds is about attributes. So a build is quiet if the lists are that it
comes to, and there is one lemma for each step of a build that says so.

## Main results

* `Reading.Calm`: readings whose builds are quiet;
* `quiet_branchExpression`, `quiet_branchStatement`: the builds of a node whose parts are calm.
-/

namespace CfScript

open Build

/-- The number of parts that stand before the statements of a list. -/
def Rule.listFrom : Rule → Nat
  | caseClause => 2
  | defaultClause => 1
  | _ => 0

/-- A reading whose builds are quiet, and those of its parts, and those of the list in it. -/
inductive Reading.Calm : Reading → Prop
  | mk {tree : Tree} {parts : List Reading} {statement : Build Statement}
      {expression : Build Expression} : (∀ p ∈ parts, p.Calm) → statement.Quiet → expression.Quiet →
      (∀ rule, tree.rule? = some rule → rule.holdsList = true →
        (Build.statements (parts.drop rule.listFrom)).Quiet) →
      Calm (.mk tree parts statement expression)

namespace Reading.Calm

variable {r : Reading}

theorem parts (h : r.Calm) : ∀ p ∈ r.parts, p.Calm := by
  cases h with
  | mk hParts => exact hParts

theorem statement (h : r.Calm) : r.statement.Quiet := by
  cases h with
  | mk _ hStatement => exact hStatement

theorem expression (h : r.Calm) : r.expression.Quiet := by
  cases h with
  | mk _ _ hExpression => exact hExpression

end Reading.Calm

/-- A branch with calm parts, and a quiet list if one stands in it. -/
structure Branch.Calm (b : Branch) : Prop where
  parts : ∀ p ∈ b.parts, p.Calm
  list : b.rule.holdsList = true → (Build.statements (b.parts.drop b.rule.listFrom)).Quiet

theorem Reading.eq_of_branchOf? {r : Reading} {rule : Rule} {b : Branch}
    (h : r.branchOf? rule = some b) : r.rule? = some rule ∧ b = ⟨rule, r.tree, r.parts⟩ := by
  unfold branchOf? at h
  split at h
  next hRule => exact ⟨hRule, (Option.some.inj h).symm⟩
  next => cases h

namespace Branch.Calm

variable {b : Branch} {rule : Rule}

theorem of_branchOf? {r : Reading} {b : Branch} (h : r.Calm) (hBranch : r.branchOf? rule = some b) :
    b.Calm ∧ b.rule = rule := by
  obtain ⟨hRule, rfl⟩ := Reading.eq_of_branchOf? hBranch
  cases h with
  | mk hParts _ _ hList => exact ⟨⟨hParts, hList rule hRule⟩, rfl⟩

theorem of_branch? {r : Reading} {b : Branch} (h : r.Calm) (hBranch : r.branch? = some b) :
    b.Calm := by
  obtain ⟨rule, hRule, rfl⟩ := Option.map_eq_some_iff.1 hBranch
  cases h with
  | mk hParts _ _ hList => exact ⟨hParts, hList rule hRule⟩

theorem nodes (h : b.Calm) : ∀ c ∈ b.nodes rule, c.Calm ∧ c.rule = rule := by
  intro c hc
  obtain ⟨r, hr, hBranch⟩ := List.mem_filterMap.1 hc
  exact of_branchOf? (h.parts r hr) hBranch

theorem node? (h : b.Calm) {c : Branch} (hc : b.node? rule = some c) : c.Calm ∧ c.rule = rule := by
  obtain ⟨r, hr, hBranch⟩ := List.exists_of_findSome?_eq_some hc
  exact of_branchOf? (h.parts r hr) hBranch

theorem operands (h : b.Calm) : ∀ r ∈ b.operands, r.Calm := fun r hr =>
  h.parts r (b.operands_sublist.subset hr)

end Branch.Calm

namespace Build

variable {α β : Type} {b : Branch} {rs : List Reading} {r : Reading}

/-! ## Parts -/

theorem quiet_bind_pick {f : Reading → Build α} (h : ∀ r ∈ rs, Quiet (f r)) (i : Nat) :
    Quiet (b.pick rs i >>= f) := by
  unfold Branch.pick
  cases hPart : rs[i]? with
  | none => exact quiet_throw_bind _ f
  | some r =>
    rw [pure_bind]
    exact h r (List.mem_of_getElem? hPart)

theorem quiet_childExpression (h : b.Calm) (i : Nat) : Quiet (b.childExpression i) :=
  quiet_bind_pick (fun r hr => (h.parts r hr).expression) i

theorem quiet_operandExpression (h : b.Calm) (i : Nat) : Quiet (b.operandExpression i) :=
  quiet_bind_pick (fun r hr => (h.operands r hr).expression) i

theorem quiet_operandStatement (h : b.Calm) (i : Nat) : Quiet (b.operandStatement i) :=
  quiet_bind_pick (fun r hr => (h.operands r hr).statement) i

theorem quiet_word (what : String) (r : Reading) : Quiet (word what r) := by
  unfold word
  split
  · split
    · exact quiet_pure _
    · exact quiet_throw _
  · exact quiet_throw _
  · exact quiet_throw _

theorem quiet_identifier (what : String) (r : Reading) : Quiet (identifier what r) :=
  (quiet_word what r).map wordIdentifier

theorem quiet_path (what : String) (r : Reading) : Quiet (path what r) := by
  unfold path
  split
  · split
    · exact quiet_pure _
    · exact quiet_throw _
  · exact quiet_pure _
  · exact quiet_throw _

theorem quiet_operator (what : String) (ofKind? : TokenKind → Option α) (r : Reading) :
    Quiet (operator what ofKind? r) := by
  unfold operator
  split
  · exact quiet_throw _
  · split
    · exact quiet_pure _
    · exact quiet_throw _

/-- A list is quiet whose statements are broken or built. -/
theorem quiet_statements (h : ∀ r ∈ rs, Quiet r.statement ∧ (r.rule? = none ∨
    r.tree.hasErrors = true ∨ r.statement.Gives fun _ => True)) : Quiet (statements rs) := by
  induction rs with
  | nil => exact quiet_pure []
  | cons r rs ih =>
    have hRest := ih fun r hr => h r (by simp [hr])
    obtain ⟨hQuiet, hBuilds⟩ := h r (by simp)
    unfold statements
    split
    · exact hRest
    · exact hRest
    next rule _ hRule =>
      have hOut := hBuilds.resolve_left (by simp [hRule])
      exact (hQuiet.orLeaveOut hOut).bind fun s? => hRest.bind fun ss => quiet_pure _

theorem quiet_block? (h : b.Calm) : Quiet (block? b) := by
  refine Quiet.optional fun c hc => ?_
  obtain ⟨hCalm, hRule⟩ := h.node? hc
  have hList := hCalm.list (by rw [hRule]; rfl)
  rwa [hRule] at hList

theorem quiet_block (h : b.Calm) : Quiet (block b) := by
  refine (quiet_block? h).bind fun body? => ?_
  cases body? with
  | none => exact quiet_throw _
  | some body => exact quiet_pure _

/-! ## Attributes and parameters -/

theorem quiet_repeated? (rules : AttributeRules) (owner : String) (name : Identifier)
    (line : LineNumber) : ∀ d ∈ rules.repeated? owner name line, d.phase ≠ .structural := by
  intro d hd
  obtain ⟨severity, -, rfl⟩ := Option.map_eq_some_iff.1 hd
  exact nofun

theorem quiet_unknown? (rules : AttributeRules) (element : Element) (name : Identifier)
    (line : LineNumber) : ∀ d ∈ rules.unknown? element name line, d.phase ≠ .structural := by
  intro d hd
  obtain ⟨severity, -, rfl⟩ := Option.map_eq_some_iff.1 hd
  exact nofun

theorem quiet_gather (owner : String) {bs : List Branch} (h : ∀ b ∈ bs, b.Calm)
    (fresh : List Token) (map : AttributeMap Expression) : Quiet (gather owner bs fresh map) := by
  induction bs generalizing fresh map with
  | nil => exact quiet_pure _
  | cons b bs ih =>
    have hRest := fun fresh map => ih (fun b hb => h b (by simp [hb])) fresh map
    have hb := h b (by simp)
    refine quiet_bind_pick (fun r _ => (quiet_word _ r).bind fun name => ?_) 0
    refine (quiet_childExpression hb 2).bind fun value => ?_
    split
    · exact hRest _ _
    · exact quiet_read.bind fun rules =>
        (quiet_note (quiet_repeated? rules owner _ _)).bind fun _ => hRest _ _

theorem quiet_attributes (h : b.Calm) (element : Element) : Quiet (attributes element b) := by
  refine (quiet_gather element.word (fun c hc => (h.nodes c hc).1) [] .empty).bind fun r => ?_
  refine quiet_read.bind fun rules => (quiet_report fun d hd => ?_).bind fun _ => quiet_pure _
  obtain ⟨t, -, ht⟩ := List.mem_filterMap.1 hd
  exact quiet_unknown? rules element _ _ d ht

theorem quiet_parameterAttributes (h : b.Calm) : Quiet (parameterAttributes b) :=
  (quiet_gather "parameter" (fun c hc => (h.nodes c hc).1) [] .empty).map Prod.snd

/-- What follows the modifier and the type of a parameter is quiet. -/
theorem quiet_named (h : b.Calm) (hParts : ∀ r ∈ rs, r.Calm) (required : Bool)
    (type? : Option Identifier) :
    Quiet (do
      let name ← identifier "parameter name" (← b.pick rs 0)
      let default? ←
        if rs[1]?.any (·.isToken (.symbol .assign)) then
          some <$> (do (← b.pick rs 2).expression)
        else pure none
      return ({ required, type?, name, default?, attributes := ← parameterAttributes b } :
        Parameter Expression)) := by
  refine quiet_bind_pick (fun r _ => (quiet_identifier _ r).bind fun name => ?_) 0
  have hRest (default? : Option Expression) :
      Quiet (do
        return ({ required, type?, name, default?, attributes := ← parameterAttributes b } :
          Parameter Expression)) :=
    (quiet_parameterAttributes h).bind fun _ => quiet_pure _
  dsimp only
  split
  · exact ((quiet_bind_pick (fun r hr => (hParts r hr).expression) 2).map some).bind hRest
  · exact (quiet_pure none).bind hRest

theorem forall_mem_dropIf {p : Reading → Prop} (h : ∀ r ∈ rs, p r) (c : Prop) [Decidable c] :
    ∀ r ∈ if c then rs.drop 1 else rs, p r := by
  split
  · exact fun r hr => h r (List.mem_of_mem_drop hr)
  · exact h

theorem quiet_parameter (h : b.Calm) : Quiet (parameter b) := by
  have hParts : ∀ r ∈ b.parts.filter (·.rule? != some .attribute), r.Calm := fun r hr =>
    h.parts r (List.mem_filter.1 hr).1
  exact quiet_named h (forall_mem_dropIf (forall_mem_dropIf hParts _) _) _ _

theorem quiet_parameters (h : b.Calm) : Quiet (parameters b) := by
  unfold parameters
  split
  next list hList =>
    obtain ⟨hCalm, -⟩ := h.node? hList
    exact Quiet.all fun c hc => quiet_parameter (hCalm.nodes c hc).1
  next => exact quiet_pure _

/-! ## Expressions -/

theorem quiet_string (t : Token) : Quiet (string t) := by
  unfold string
  dsimp only
  split
  · exact quiet_pure _
  · exact quiet_throw _

theorem quiet_tokenExpression (t : Token) : Quiet (tokenExpression t) := by
  unfold tokenExpression
  split
  · exact quiet_pure _
  · exact quiet_pure _
  · exact quiet_string t
  · exact quiet_pure _
  · exact quiet_pure _
  · exact quiet_pure _
  · split
    · exact quiet_pure _
    · exact quiet_throw _

theorem quiet_leafExpression (l : Leaf) : Quiet (leafExpression l) := by
  cases l with
  | matched t => exact quiet_tokenExpression t
  | skipped t => exact quiet_throw _
  | assumed what => exact quiet_throw _

theorem quiet_argument (h : b.Calm) : Quiet (argument b) := by
  unfold argument
  split
  · exact quiet_bind_pick (fun r _ => (quiet_identifier _ r).bind fun _ =>
      (quiet_childExpression h 2).bind fun _ => quiet_pure _) 0
  · exact (quiet_childExpression h 0).bind fun _ => quiet_pure _

theorem quiet_arguments (h : b.Calm) : Quiet (arguments b) := by
  unfold arguments
  split
  next list hList =>
    obtain ⟨hCalm, -⟩ := h.node? hList
    exact Quiet.all fun c hc => quiet_argument (hCalm.nodes c hc).1
  next => exact quiet_pure _

theorem quiet_key (h : r.Calm) : Quiet (key r) := by
  unfold key
  split
  · split
    · exact quiet_pure _
    · exact h.expression
  · exact h.expression

theorem quiet_structEntry (h : b.Calm) : Quiet (structEntry b) :=
  quiet_bind_pick (fun r hr => (quiet_key (h.parts r hr)).bind fun _ =>
    quiet_bind_pick (fun _ _ => (quiet_childExpression h 2).bind fun _ => quiet_pure _) 1) 0

theorem quiet_binaryOperator (b : Branch) (between : List Reading) :
    Quiet (binaryOperator b between) := by
  unfold binaryOperator
  dsimp only
  split
  · exact quiet_pure _
  · exact quiet_throw _

theorem quiet_binary (h : b.Calm) : Quiet (binary b) := by
  unfold binary
  split
  next first second rest hParts =>
    have hCalm : ∀ r ∈ first :: second :: rest, r.Calm := hParts ▸ h.parts
    refine (quiet_binaryOperator b _).bind fun op => ?_
    refine (hCalm first (by simp)).expression.bind fun left => ?_
    refine Quiet.bind (hCalm _ ?_).expression fun right => quiet_pure _
    rw [List.getLast?_eq_some_getLast (List.cons_ne_nil _ _), Option.getD_some]
    exact List.mem_cons_of_mem _ (List.getLast_mem _)
  next => exact quiet_throw _

theorem quiet_arrowParameters (h : r.Calm) : Quiet (arrowParameters r) := by
  unfold arrowParameters
  split
  · split
    · exact quiet_pure _
    · exact quiet_throw _
  next list _ hList =>
    obtain ⟨hCalm, -⟩ := Branch.Calm.of_branchOf? h hList
    exact Quiet.all fun c hc => quiet_parameter (hCalm.nodes c hc).1
  · exact quiet_throw _

theorem mem_getLast?_getD (a : α) (as : List α) : as.getLast?.getD a ∈ a :: as := by
  rw [← List.getLastD_eq_getLast?]
  exact List.getLastD_mem_cons

theorem quiet_arrow (h : b.Calm) : Quiet (arrow b) := by
  refine quiet_bind_pick (fun first hFirst => ?_) 0
  refine (quiet_arrowParameters (h.parts first hFirst)).bind fun params => ?_
  have hLast : (b.parts.getLast?.getD first).Calm :=
    List.forall_mem_cons.2 ⟨h.parts first hFirst, h.parts⟩ _ (mem_getLast?_getD first b.parts)
  dsimp only
  split
  next block hBlock =>
    obtain ⟨hCalm, hRule⟩ := Branch.Calm.of_branchOf? hLast hBlock
    have hList := hCalm.list (by rw [hRule]; rfl)
    rw [hRule] at hList
    exact hList.bind fun _ => quiet_pure _
  next => exact hLast.expression.bind fun _ => quiet_pure _

/-- The expression of a node whose parts are calm is quiet. -/
theorem quiet_branchExpression (h : b.Calm) : Quiet (branchExpression b) := by
  have hChild := quiet_childExpression h
  unfold branchExpression
  split
  · exact quiet_bind_pick (fun r _ => (quiet_operator _ _ r).bind fun _ => (hChild 0).bind fun _ =>
      (hChild 2).bind fun _ => quiet_pure _) 1
  · exact (hChild 0).bind fun _ => (hChild 2).bind fun _ => (hChild 4).bind fun _ => quiet_pure _
  · exact (hChild 0).bind fun _ => (hChild 2).bind fun _ => quiet_pure _
  · exact quiet_binary h
  · exact quiet_bind_pick (fun r _ => (quiet_operator _ _ r).bind fun _ => (hChild 1).bind fun _ =>
      quiet_pure _) 0
  · refine quiet_bind_pick (fun r _ => ?_) 1
    split
    · exact (hChild 0).bind fun _ => quiet_pure _
    · exact quiet_throw _
  · exact (hChild 1).bind fun _ => quiet_pure _
  · exact (hChild 0).bind fun _ => (quiet_arguments h).bind fun _ => quiet_pure _
  · exact quiet_bind_pick (fun r _ => (hChild 0).bind fun _ =>
      quiet_bind_pick (fun r _ => (quiet_identifier _ r).bind fun _ => quiet_pure _) 2) 1
  · exact (hChild 0).bind fun _ => (hChild 2).bind fun _ => quiet_pure _
  · exact (Quiet.all fun r hr => (h.operands r hr).expression).bind fun _ => quiet_pure _
  · exact (Quiet.all fun c hc => quiet_structEntry (h.nodes c hc).1).bind fun _ => quiet_pure _
  · exact quiet_bind_pick (fun r _ => (quiet_path _ r).bind fun _ => (quiet_arguments h).bind
      fun _ => quiet_pure _) 1
  · exact (quiet_parameters h).bind fun _ => (quiet_block h).bind fun _ => quiet_pure _
  · exact quiet_arrow h
  · exact quiet_throw _

/-! ## Statements -/

theorem quiet_valueAfterKeyword (h : b.Calm) : Quiet (valueAfterKeyword b) :=
  Quiet.optional fun r hr => (h.operands r (List.mem_of_getElem? hr)).expression

theorem quiet_declaration (h : b.Calm) : Quiet (declaration b) := by
  refine quiet_bind_pick (fun r _ => (quiet_identifier _ r).bind fun name => ?_) 1
  dsimp only
  split
  · exact ((quiet_operandExpression h 3).map some).bind fun _ => quiet_pure _
  · exact quiet_pure _

theorem quiet_branching (h : b.Calm) : Quiet (branching b) := by
  refine (quiet_operandExpression h 1).bind fun condition => ?_
  refine (quiet_operandStatement h 2).bind fun thenBranch => ?_
  dsimp only
  split
  · exact ((quiet_operandStatement h 4).map some).bind fun _ => quiet_pure _
  · exact quiet_pure _

theorem quiet_doLoop (h : b.Calm) : Quiet (doLoop b) := by
  refine (quiet_operandStatement h 1).bind fun body => ?_
  split
  next c rest hParts =>
    refine Quiet.bind (h.operands _ ?_).expression fun _ => quiet_pure _
    rw [hParts]
    exact List.mem_cons_of_mem _ (List.mem_cons_of_mem _ (mem_getLast?_getD c rest))
  next => exact quiet_throw _

/-- The clauses of a loop header are among its parts. -/
theorem mem_of_mem_clauses {clause? : Option Reading} (h : some r ∈ clauses rs clause?) :
    some r = clause? ∨ r ∈ rs := by
  fun_induction clauses rs clause? with
  | case1 clause? => exact .inl (List.mem_singleton.1 h)
  | case2 clause? s rest hEnds ih =>
    rcases List.mem_cons.1 h with h | h
    · exact .inl h
    · exact .inr (.tail _ ((ih h).resolve_left nofun))
  | case3 clause? s rest => exact .inl (List.mem_singleton.1 h)
  | case4 clause? s rest _ _ _ ih => exact (ih h).imp_right (.tail _)
  | case5 clause? s rest _ _ _ ih =>
    rcases ih h with h | h
    · cases h
      exact .inr (.head _)
    · exact .inr (.tail _ h)

theorem quiet_loopStart (h : r.Calm) : Quiet (loopStart r) := by
  unfold loopStart
  split
  · exact h.statement
  · exact h.expression.bind fun _ => quiet_pure _

theorem quiet_forLoop (h : b.Calm) : Quiet (forLoop b) := by
  unfold forLoop
  split
  next => exact quiet_throw _
  next body hBody =>
    have hBody := h.parts body (List.mem_of_getLast? hBody)
    have hClause (i : Nat) :
        ∀ r ∈ (clauses (b.parts.dropLast.drop 2) none)[i]?.join, r.Calm := by
      intro r hr
      have hMem := List.mem_of_getElem? (Option.join_eq_some_iff.1 hr)
      exact h.parts r (List.dropLast_subset _ (List.mem_of_mem_drop
        ((mem_of_mem_clauses hMem).resolve_left nofun)))
    refine (Quiet.optional fun r hr => quiet_loopStart (hClause 0 r hr)).bind fun _ => ?_
    refine (Quiet.optional fun r hr => (hClause 1 r hr).expression).bind fun _ => ?_
    refine (Quiet.optional fun r hr => (hClause 2 r hr).expression).bind fun _ => ?_
    exact hBody.statement.bind fun _ => quiet_pure _

theorem quiet_eachLoop (h : b.Calm) : Quiet (eachLoop b) :=
  (quiet_operandExpression h _).bind fun _ => (quiet_operandExpression h _).bind fun _ =>
    (quiet_operandStatement h _).bind fun _ => quiet_pure _

theorem quiet_switchClauses {bs : List Branch} (h : ∀ b ∈ bs, b.Calm)
    (default? : Option (List Statement)) : Quiet (switchClauses bs default?) := by
  induction bs generalizing default? with
  | nil => exact quiet_pure _
  | cons b bs ih =>
    have hRest := ih fun b hb => h b (by simp [hb])
    have hb := h b (by simp)
    unfold switchClauses
    split
    next hRule =>
      have hList := hb.list (by rw [hRule]; rfl)
      rw [hRule] at hList
      exact (quiet_childExpression hb 1).bind fun _ => hList.bind fun _ =>
        (hRest _).bind fun _ => quiet_pure _
    next hRule =>
      have hList := hb.list (by rw [hRule]; rfl)
      rw [hRule] at hList
      exact hList.bind fun _ => hRest _
    next => exact hRest _

theorem quiet_select (h : b.Calm) : Quiet (select b) := by
  refine (quiet_operandExpression h 1).bind fun subject => ?_
  refine (quiet_switchClauses (fun c hc => ?_) none).bind fun _ => quiet_pure _
  obtain ⟨r, hr, hBranch⟩ := List.mem_filterMap.1 hc
  exact Branch.Calm.of_branch? (h.parts r hr) hBranch

theorem quiet_catchClause (h : b.Calm) : Quiet (catchClause b) := by
  unfold catchClause
  dsimp only
  split
  · exact quiet_throw _
  next r _ =>
    exact (quiet_identifier _ r).bind fun _ => (quiet_block h).bind fun _ => quiet_pure _

theorem quiet_tryStatement (h : b.Calm) : Quiet (tryStatement b) :=
  (quiet_block h).bind fun _ =>
    (Quiet.all fun c hc => quiet_catchClause (h.nodes c hc).1).bind fun _ =>
      (Quiet.optional fun _ hc => quiet_block (h.node? hc).1).bind fun _ => quiet_pure _

theorem quiet_component (h : b.Calm) (kind : ComponentKind) : Quiet (component kind b) :=
  (quiet_attributes h _).bind fun _ => (quiet_block? h).bind fun _ => quiet_pure _

theorem quiet_tag (h : b.Calm) : Quiet (tag b) := by
  refine quiet_bind_pick (fun first _ => ?_) 0
  split
  · exact quiet_throw _
  · exact (quiet_attributes h _).bind fun _ => (quiet_block? h).bind fun _ => quiet_pure _

theorem quiet_shortProperty (h : b.Calm) : Quiet (shortProperty b) := by
  unfold shortProperty
  dsimp only
  split
  · exact quiet_throw _
  next r _ =>
    split
    · exact quiet_throw_bind _ _
    · exact (quiet_identifier _ r).bind fun _ => (quiet_attributes h _).bind fun _ => quiet_pure _

theorem quiet_functionHead (returnType? : Option Identifier) (rs : List Reading) :
    Quiet (functionHead returnType? rs) := by
  induction rs generalizing returnType? with
  | nil => exact quiet_pure _
  | cons r rs ih =>
    unfold functionHead
    split
    · exact quiet_pure _
    · split
      · exact (ih _).bind fun _ => quiet_pure _
      · exact ih _
      · exact quiet_throw _

theorem quiet_function (h : b.Calm) : Quiet (function b) := by
  refine (quiet_functionHead none b.parts).bind fun head => ?_
  split
  · exact quiet_throw _
  next r _ _ =>
    exact (quiet_identifier _ r).bind fun _ => (quiet_parameters h).bind fun _ =>
      (quiet_attributes h _).bind fun _ => (quiet_block? h).bind fun _ => quiet_pure _

theorem quiet_leafStatement (l : Leaf) : Quiet (leafStatement l) := by
  cases l <;> exact quiet_throw _

/-- The statement of a node whose parts are calm is quiet. -/
theorem quiet_branchStatement (h : b.Calm) : Quiet (branchStatement b) := by
  unfold branchStatement
  split
  next hRule =>
    have hList := h.list (by rw [hRule]; rfl)
    rw [hRule] at hList
    exact hList.bind fun _ => quiet_pure _
  next hRule =>
    have hList := h.list (by rw [hRule]; rfl)
    rw [hRule] at hList
    exact hList.bind fun _ => quiet_pure _
  · exact quiet_pure _
  · exact (quiet_childExpression h 0).bind fun _ => quiet_pure _
  · exact quiet_declaration h
  · exact quiet_branching h
  · exact (quiet_operandExpression h 1).bind fun _ => (quiet_operandStatement h 2).bind fun _ =>
      quiet_pure _
  · exact quiet_doLoop h
  · exact quiet_forLoop h
  · exact quiet_eachLoop h
  · exact quiet_select h
  · exact quiet_pure _
  · exact quiet_pure _
  · exact (quiet_valueAfterKeyword h).bind fun _ => quiet_pure _
  · exact (quiet_valueAfterKeyword h).bind fun _ => quiet_pure _
  · exact (quiet_valueAfterKeyword h).bind fun _ => quiet_pure _
  · exact (quiet_operandExpression h 1).bind fun _ => quiet_pure _
  · exact quiet_tryStatement h
  · exact quiet_bind_pick (fun r _ => (quiet_path _ r).bind fun _ => quiet_pure _) 1
  · exact quiet_component h .component
  · exact quiet_component h .interface
  · exact quiet_tag h
  · exact (quiet_attributes h .property).bind fun _ => quiet_pure _
  · exact quiet_shortProperty h
  · exact quiet_function h
  · exact quiet_throw _

end Build

end CfScript
