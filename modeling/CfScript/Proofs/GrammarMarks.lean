import CfScript.Proofs.GrammarContract
import CfScript.Proofs.Marks
import CfScript.Proofs.Tiling
import CfScript.Proofs.WholeTree

/-!
# The marks the grammar makes

Every goal passes the check of `Shows`, from the productions that it uses upwards, whatever the skipped
rest of a broken statement may show.

The braces of blocks, of structs and of the bodies of `switch` are the only ones that the grammar asks
for, and no other rule takes a brace — but the arrow of a function is taken unseen.

## Main results

* `Goal.passes`: every goal passes the check;
* `Parser.marked_of_parse`, `parse_marked`: so every part of a parse is marked.
-/

namespace CfScript

namespace TokenKind

variable {k : TokenKind}

/-- A kind that is assumed is marked by its side. -/
theorem mark?_describe (k : TokenKind) :
    (Leaf.assumed k.describe).mark? = k.side?.map (.brace · .assumed) := by
  cases k with
  | symbol s => cases s <;> decide +kernel
  | keyword w => cases w <;> decide +kernel
  | _ => decide +kernel

theorem isWord_keyword (w : Keyword) : (keyword w).isWord = true := by simp [isWord]

theorem side?_eq_none (hOpening : k ≠ .symbol .lBrace) (hClosing : k ≠ .symbol .rBrace) :
    k.side? = none := by
  unfold side?
  split
  · exact absurd rfl hOpening
  · exact absurd rfl hClosing
  · rfl

theorem side?_of_isPlain (h : k.isPlain = true) : k.side? = none := by
  refine side?_eq_none ?_ ?_
  · rintro rfl
    cases h
  · rintro rfl
    cases h

end TokenKind

namespace Rule

/-- Whether the parts of the nodes of a rule have the marks of what is skipped, and no others. -/
def isBare : Rule → Bool
  | typeName | block | structLiteral | switchStatement | arrowFunction | newExpression
  | importStatement | scriptBlock | standaloneExpression => false
  | _ => true

variable {rule : Rule}

theorem admits_of_isBare (h : rule.isBare = true) (R : List Mark → Prop) (ms : List Mark) :
    rule.Admits R ms = R ms := by
  cases rule <;> first | rfl | cases h

theorem ne_typeName_of_isBare (h : rule.isBare = true) : rule ≠ .typeName := by
  rintro rfl
  cases h

end Rule

namespace Production

variable {R : List Mark → Prop} {Q : List Mark → Prop} {v : Glance} {ms : List Mark}
  {next : Production}

theorem shows_ite {c : Prop} [Decidable c] {p q : Production} :
    (if c then p else q).Shows R Q v ms ↔ (c → p.Shows R Q v ms) ∧ (¬ c → q.Shows R Q v ms) := by
  split <;> simp [*]

theorem shows_done : done.Shows R Q v ms ↔ Q ms := .rfl

theorem shows_take {k : TokenKind} {ks : List TokenKind} {leads : Prop} :
    (take next).Shows R Q ⟨k :: ks, leads⟩ ms ↔
      next.Shows R Q { ahead := ks } (ms ++ (k.side?.map (.brace · .matched)).toList) := by
  simp [Shows, Glance.pass]

/-- A token that is no brace leaves no mark, whether it is there or assumed. -/
theorem shows_expect {kind : TokenKind} (h : kind.side? = none) :
    (expect kind next).Shows R Q v ms ↔ next.Shows R Q {} ms := by
  simp [Shows, TokenKind.mark?_describe, h]

theorem shows_expect_brace {kind : TokenKind} {side : Side} (h : kind.side? = some side) :
    (expect kind next).Shows R Q v ms ↔ next.Shows R Q {} (ms ++ [.brace side .matched]) ∧
      next.Shows R Q {} (ms ++ [.brace side .assumed]) := by
  simp [Shows, TokenKind.mark?_describe, h]

theorem shows_word : (word next).Shows R Q v ms ↔ next.Shows R Q {} ms := .rfl

theorem shows_assume {fault : Fault} (h : (Leaf.assumed fault.assumption).mark? = none) :
    (assume fault next).Shows R Q v ms ↔ next.Shows R Q {} ms := by
  simp [Shows, h]

theorem shows_reject {fault : Fault} {k : TokenKind} {ks : List TokenKind} {leads : Prop} :
    (reject fault next).Shows R Q ⟨k :: ks, leads⟩ ms ↔
      next.Shows R Q {} (ms ++ (k.side?.map (.brace · .skipped)).toList) := by
  simp [Shows]

theorem shows_parse {goal : Goal} : (Production.parse goal next).Shows R Q v ms ↔ goal.MayFollow [] ∧
    ∀ us, goal.Shows us → next.Shows R Q { leads := goal = .modifiers ∧ v.Leads } (ms ++ us) := .rfl

theorem shows_node {inner : Production} {rule : Rule} (h : rule ≠ .typeName) :
    (node rule inner next).Shows R Q v ms ↔
      inner.Shows R (fun us => rule.Admits R us ∧ next.Shows R Q {} ms) v [] := by
  simp [Shows, h]

/-- A name that may lack a text is marked as such. -/
theorem shows_name {inner : Production} :
    (node .typeName inner next).Shows R Q v ms ↔
      inner.Shows R (fun us => us = [] ∧ next.Shows R Q {} ms ∧
        (inner.takesName v.ahead = false → next.Shows R Q {} (ms ++ [.nameless]))) v [] := by
  simp [Shows]

theorem shows_close {rule : Rule} : (close rule next).Shows R Q v ms ↔
    rule ≠ .typeName ∧ rule.Admits R ms ∧ next.Shows R Q v [] := .rfl

theorem shows_again {goal : Goal} : (again goal).Shows R Q v ms ↔
    goal.isTyped = false ∧ goal.MayFollow ms ∧ ∀ us, goal.Shows us → Q (ms ++ us) := .rfl

theorem shows_look {choose : Window → Production} {leads : Prop} {ks : List TokenKind} :
    (look choose).Shows R Q ⟨ks, leads⟩ ms ↔ ∀ h n m, ks <+: [h, n, m] →
      (Glance.Leads ⟨ks, leads⟩ → h.isWord = true) →
        (choose ⟨h, n, m⟩).Shows R Q ⟨[h, n, m], leads⟩ ms :=
  ⟨fun hAll h n m => hAll ⟨h, n, m⟩, fun hAll ⟨h, n, m⟩ => hAll h n m⟩

theorem shows_spell {choose : String → Production} :
    (spell choose).Shows R Q v ms ↔ ∀ text, (choose text).Shows R Q v ms := .rfl

end Production

namespace Grammar

open Production

attribute [local simp] shows_ite shows_done shows_take shows_expect shows_word shows_assume
  shows_reject shows_parse shows_node shows_close shows_again shows_look shows_spell
  TokenKind.side?_eq_none TokenKind.side?_of_isWord
  TokenKind.isWord_keyword shows_name
  Goal.MayFollow Goal.Stops Goal.adds Goal.Shows Goal.isTyped Glance.Leads Rule.Admits
  Rule.isBare.eq_def

variable {R : List Mark → Prop} {Q : List Mark → Prop} {next : Production} {rule : Rule}
  {v : Glance} {ms : List Mark}

theorem shows_dottedTail : dottedTail.Shows R (· = ms) {} ms := by
  simp +contextual [dottedTail]

@[local simp] theorem shows_dottedName : dottedName.Shows R Q v ms ↔ Q ms := by
  simp [dottedName]

theorem shows_separated {goal : Goal} (hAgain : (again goal).Shows R Q {} ms) (hDone : Q ms) :
    (separated goal).Shows R Q {} ms := by
  simp only [separated, shows_look, shows_ite, shows_done]
  refine fun h n m _ _ => ⟨?_, fun _ => hDone⟩
  rintro rfl
  rw [shows_take, TokenKind.side?_eq_none (by simp) (by simp)]
  rw [Option.map_none, Option.toList_none, List.append_nil]
  exact hAgain

/-! ## Statements that end -/

@[local simp] theorem shows_close_of_isBare (hRule : rule.isBare = true) :
    (close rule next).Shows R Q v ms ↔ R ms ∧ next.Shows R Q v [] := by
  rw [shows_close, Rule.admits_of_isBare hRule]
  exact and_iff_right (Rule.ne_typeName_of_isBare hRule)

theorem shows_ended {broken : Production} (hRule : rule ≠ .typeName) (hAdmits : rule.Admits R ms)
    (hDone : Q []) (hBroken : ∀ v, broken.Shows R Q v ms) : (ended rule broken).Shows R Q v ms := by
  obtain ⟨ks, leads⟩ := v
  simp +contextual [ended, hRule, hAdmits, hDone, hBroken, -Rule.Admits, -Glance.Leads]

theorem shows_unended (hRule : rule ≠ .typeName) (hAdmits : rule.Admits R ms) (hDone : Q []) :
    (unended rule).Shows R Q v ms := by
  simp [unended, hRule, hAdmits, hDone, Fault.assumption, TokenKind.mark?_describe, -Rule.Admits]

/-- The end of a statement of a rule that admits what is skipped. -/
theorem shows_terminated (hR : R []) (hRule : rule ≠ .typeName)
    (hAdmits : ∀ us, R us → rule.Admits R (ms ++ us)) (hDone : Q []) :
    (terminated rule).Shows R Q v ms := by
  have hNone : rule.Admits R ms := by simpa using hAdmits [] hR
  refine shows_ended hRule hNone hDone fun v => ⟨fun us hus => ?_, ?_⟩
  · exact ⟨hRule, hAdmits us hus, hDone⟩
  · exact shows_unended hRule hNone hDone

@[local simp] theorem shows_terminated_of_isBare (hR : R []) (hRule : rule.isBare = true)
    (hDone : Q []) : (terminated rule).Shows R Q v [] := by
  refine shows_terminated hR (Rule.ne_typeName_of_isBare hRule) (fun us hus => ?_) hDone
  rwa [Rule.admits_of_isBare hRule]

/-! ## Names and lists -/

theorem shows_attributes (hR : R []) : attributes.Shows R (· = ms) {} ms := by
  simp +contextual [attributes, hR]

theorem shows_parameters (hR : R []) : parameters.Shows R (· = ms) {} ms := by
  simp +contextual [parameters, parameter, parameterBody, shows_separated, hR]

@[local simp] theorem shows_parameterList (hR : R []) :
    (parameterList next).Shows R Q v ms ↔ next.Shows R Q {} ms := by
  simp +contextual [parameterList, hR]

/-! ## Blocks and conditions -/

@[local simp] theorem shows_block (hDone : next.Shows R Q {} ms) :
    (block next).Shows R Q v ms := by
  have hAdmits (a b : Standing) (ha : a ≠ .skipped) (hb : b ≠ .skipped) :
      Rule.block.Admits R [.brace .opening a, .brace .closing b] := ⟨a, b, rfl, ha, hb⟩
  simp [block, shows_expect_brace, TokenKind.side?, hDone, hAdmits, -Rule.Admits]

@[local simp] theorem shows_condition :
    (condition next).Shows R Q v ms ↔ next.Shows R Q {} ms := by
  simp [condition]

/-! ## Statements -/

section

variable {k : TokenKind} {ks : List TokenKind} {leads : Prop}

theorem shows_expressionStatement (hR : R []) (hDone : Q []) :
    expressionStatement.Shows R Q v [] := by
  simp [expressionStatement, hR, hDone]

theorem shows_declaration (hWord : k.isWord = true) (hNext : ∀ v, next.Shows R Q v []) :
    (declaration next).Shows R Q ⟨k :: ks, leads⟩ [] := by
  simp +contextual [declaration, *]

variable (hWord : k.isWord = true) (hR : R []) (hDone : Q [])

include hWord hR hDone

theorem shows_wordStatement (hRule : rule.isBare = true) :
    (wordStatement rule).Shows R Q ⟨k :: ks, leads⟩ [] := by
  simp [wordStatement, *, -Rule.isBare.eq_def]

theorem shows_valueStatement (hRule : rule.isBare = true) :
    (valueStatement rule).Shows R Q ⟨k :: ks, leads⟩ [] := by
  simp [valueStatement, *, -Rule.isBare.eq_def]

theorem shows_ifStatement : ifStatement.Shows R Q ⟨k :: ks, leads⟩ [] := by
  simp +contextual [ifStatement, *]

theorem shows_whileStatement : whileStatement.Shows R Q ⟨k :: ks, leads⟩ [] := by
  simp +contextual [whileStatement, *]

theorem shows_doWhileStatement : doWhileStatement.Shows R Q ⟨k :: ks, leads⟩ [] := by
  simp +contextual [doWhileStatement, *]

omit hWord in
theorem shows_forIn : forIn.Shows R Q v [] := by
  obtain ⟨ks, leads⟩ := v
  simp +contextual [forIn, loopTarget, *]

omit hWord in
theorem shows_forClauses : forClauses.Shows R Q v [] := by
  obtain ⟨ks, leads⟩ := v
  simp +contextual [forClauses, loopClause, loopRest, shows_declaration, *]

theorem shows_forStatement : forStatement.Shows R Q ⟨k :: ks, leads⟩ [] := by
  have hIn (v) : forIn.Shows R Q v [] := shows_forIn hR hDone
  have hClauses (v) : forClauses.Shows R Q v [] := shows_forClauses hR hDone
  have hTrial (decision) (attempt) (follow) (v) :
      (trial decision attempt follow forIn forClauses).Shows R Q v [] := ⟨hIn v, hClauses v⟩
  simp [forStatement, loopKind, *]

omit hR in
theorem shows_switchStatement : switchStatement.Shows R Q ⟨k :: ks, leads⟩ [] := by
  have hClose (a b : Standing) (n : Nat) (ha : a ≠ .skipped) (hb : b ≠ .skipped) :
      (close .switchStatement done).Shows R Q {} ([.brace .opening a] ++
        List.replicate n (.brace .opening .skipped) ++ [.brace .closing b]) :=
    ⟨nofun, ⟨a, n, b, by simp, ha, hb⟩, hDone⟩
  have hRest (a : Standing) (ha : a ≠ .skipped) :
      (Production.parse .switchClauses <| expect (.symbol .rBrace) <|
        close .switchStatement done).Shows R Q {} [.brace .opening a] := by
    refine ⟨⟨trivial, fun _ => rfl⟩, fun us hus => ?_⟩
    obtain ⟨n, rfl⟩ := hus
    exact ⟨hClose a .matched n ha nofun, hClose a .assumed n ha nofun⟩
  simp only [switchStatement, shows_take, TokenKind.side?_of_isWord hWord, Option.map_none,
    Option.toList_none, List.append_nil, shows_condition]
  exact ⟨hRest .matched nofun, hRest .assumed nofun⟩

omit hWord hDone in
theorem shows_catchClauses : catchClauses.Shows R (· = ms) {} ms := by
  simp +contextual [catchClauses, catchBody, takesName, *]

theorem shows_tryStatement : tryStatement.Shows R Q ⟨k :: ks, leads⟩ [] := by
  simp +contextual [tryStatement, *]

theorem shows_importStatement : importStatement.Shows R Q ⟨k :: ks, leads⟩ [] := by
  have hEnd (v) (ms : List Mark) (hMs : ms = [] ∨ ms = [.nameless]) :
      (terminated .importStatement).Shows R Q v ms :=
    shows_terminated hR nofun (fun us hus => ⟨ms, us, rfl, hMs, hus⟩) hDone
  simp +contextual [importStatement, *]

theorem shows_componentDeclaration (hRule : rule.isBare = true) :
    (componentDeclaration rule).Shows R Q ⟨k :: ks, leads⟩ [] := by
  simp +contextual [componentDeclaration, *, -Rule.isBare.eq_def, -shows_close]

theorem shows_tagStatement : tagStatement.Shows R Q ⟨k :: ks, leads⟩ [] := by
  simp +contextual [tagStatement, *]

theorem shows_propertyStatement : propertyStatement.Shows R Q ⟨k :: ks, leads⟩ [] := by
  simp +contextual [propertyStatement, *]

omit hWord hR hDone in
theorem shows_modifierWords : modifierWords.Shows R (· = ms) {} ms := by
  simp +contextual [modifierWords]

omit hWord in
theorem shows_signature : signature.Shows R Q v [] := by
  have hEnd (v) : (ended .functionDeclaration (unended .functionDeclaration)).Shows R Q v [] :=
    shows_ended nofun hR hDone fun v => shows_unended nofun hR hDone
  simp +contextual [signature, *]

omit hWord in
/-- Where words and dots lead to the word `function`, the return type has a text. -/
theorem shows_functionDeclaration (hLeads : v.Leads) : functionDeclaration.Shows R Q v [] := by
  have hSignature (v) : signature.Shows R Q v [] := shows_signature hR hDone
  refine ⟨⟨trivial, fun _ => rfl⟩, fun us hus w _ hWord => ?_⟩
  obtain rfl : us = [] := hus
  have hHere : w.here.isWord = true := hWord (.inl ⟨rfl, hLeads⟩)
  simp only [shows_ite, shows_node (nofun : Rule.returnType ≠ .typeName), shows_name, shows_dottedName]
  refine ⟨fun _ => hSignature _, fun _ => ⟨trivial, ⟨hR, hSignature _⟩, fun hNot => ?_⟩⟩
  simp [dottedName, takesName, Window.kinds, hHere] at hNot

omit hWord in
theorem shows_headedStatement {w : Window} (hHere : w.here.isWord = true) :
    (headedStatement w).Shows R Q ⟨w.kinds, leads⟩ [] := by
  have hExpression (v) : expressionStatement.Shows R Q v [] := shows_expressionStatement hR hDone
  have hScan (decision) : (scan decision leadsToFunction functionDeclaration
      expressionStatement).Shows R Q ⟨w.kinds, leads⟩ [] := by
    refine ⟨⟨True, fun _ => ⟨fun kinds hTest => ?_, w.here, rfl, hHere⟩,
      shows_functionDeclaration hR hDone (.inl trivial)⟩, hExpression _⟩
    cases kinds with
    | nil => cases hTest
    | cons k ks =>
      simp only [leadsToFunction, Bool.and_eq_true] at hTest
      simp [leadsToFunction.go, hTest]
  unfold headedStatement
  simp only [shows_ite, hScan, hExpression, implies_true, and_true]
  refine fun hNext => shows_functionDeclaration hR hDone (.inr (.inr ?_))
  exact ⟨w.here, w.next, [w.second], rfl, hHere, hNext.imp id (And.imp id (congrArg some))⟩

omit hWord in
theorem shows_identifierStatement {w : Window} (hHere : w.here.isWord = true) (text : String) :
    (identifierStatement text w).Shows R Q ⟨w.kinds, leads⟩ [] := by
  unfold identifierStatement
  simp only [shows_ite]
  refine ⟨fun _ => shows_tagStatement hHere hR hDone,
    fun _ => ⟨fun _ => ?_, fun _ => ⟨fun _ => ?_, fun _ => ?_⟩⟩⟩
  · exact shows_valueStatement hHere hR hDone rfl
  · exact shows_valueStatement hHere hR hDone rfl
  · exact shows_headedStatement hR hDone hHere

end

theorem shows_statement (hR : R []) (hDone : Q []) : statement.Shows R Q {} [] := by
  rw [statement, shows_look]
  intro h n m _ _
  have hFunction (w) (n) (m) (hNext : n = .keyword .function ∨ w = .function) :
      functionDeclaration.Shows R Q ⟨[.keyword w, n, m], False⟩ [] := by
    refine shows_functionDeclaration hR hDone (.inr (hNext.elim (fun hNext => .inr ?_) fun hHere => ?_))
    · exact ⟨.keyword w, n, [m], rfl, rfl, .inl hNext⟩
    · exact .inl (congrArg (some <| TokenKind.keyword ·) hHere)
  cases h with
  | symbol s => cases s <;> simp [hR, hDone, shows_expressionStatement]
  | keyword w =>
    cases w <;> simp +contextual [hR, hDone, hFunction, shows_expressionStatement,
      shows_wordStatement, shows_valueStatement, shows_declaration, shows_ifStatement,
      shows_whileStatement, shows_doWhileStatement,
      shows_forStatement, shows_switchStatement, shows_tryStatement, shows_importStatement,
      shows_componentDeclaration, shows_propertyStatement]
  | identifier => exact fun text => shows_identifierStatement hR hDone rfl text
  | _ => simp [hR, hDone, shows_expressionStatement]

/-! ## Lists of statements -/

/-- What stands in a list of statements is a statement, or a token that is no opening brace is
skipped. -/
theorem shows_listed {k : TokenKind} {ks : List TokenKind} {leads : Prop}
    (hClosing : k ≠ .symbol .rBrace) (hNext : next.Shows R Q {} ms) :
    (listed next).Shows R Q ⟨k :: ks, leads⟩ ms := by
  refine ⟨⟨trivial, fun _ => rfl⟩, ?_, fun us hus => ?_⟩
  · by_cases hOpening : k = .symbol .lBrace
    · exact .inl ⟨rfl, congrArg some hOpening⟩
    · exact .inr (by simp [hOpening, hClosing, hNext])
  · obtain rfl : us = [] := hus
    rwa [List.append_nil]

theorem shows_script :
    script.Shows R (fun us => ∃ vs, us = ms ++ vs ∧ Goal.script.Shows vs) {} ms := by
  rw [script, shows_look]
  intro h n m _ _
  have hAgain (more : List Mark) (hMore : Goal.script.Shows more) (v) :
      (again .script).Shows R (fun us => ∃ vs, us = ms ++ vs ∧ Goal.script.Shows vs) v
        (ms ++ more) := by
    refine ⟨rfl, ⟨trivial, by rintro ⟨⟩⟩, fun us hus => ⟨more ++ us, by simp, ?_⟩⟩
    exact List.forall_mem_append.2 ⟨hMore, hus⟩
  have hNone (v) := hAgain [] (List.forall_mem_nil _) v
  rw [List.append_nil] at hNone
  simp only [shows_ite]
  refine ⟨?_, fun _ => ⟨?_, fun hClosing => shows_listed hClosing (hNone _)⟩⟩
  · rintro rfl
    simp
  · rintro rfl
    rw [shows_reject]
    exact hAgain [.brace .closing .skipped] (by simp) _

theorem shows_statements {stop : List TokenKind} (hStop : .symbol .rBrace ∈ stop) :
    (statements stop).Shows R (· = ms) {} ms := by
  rw [statements, shows_look]
  intro h n m _ _
  rw [shows_ite]
  refine ⟨fun _ => rfl, fun hGoes => shows_listed ?_ ?_⟩
  · rintro rfl
    exact hGoes (.inr (List.contains_iff_mem.2 hStop))
  · exact ⟨rfl, ⟨hStop, nofun⟩, fun us hus => by simpa using hus⟩

theorem shows_switchClauses (hR : R []) : switchClauses.Shows R
    (fun us => ∃ vs, us = ms ++ vs ∧ Goal.switchClauses.Shows vs) {} ms := by
  rw [switchClauses, shows_look]
  intro h n m _ _
  have hAgain (v) (more : List Mark) (hMore : more = [] ∨ more = [.brace .opening .skipped]) :
      (again .switchClauses).Shows R
        (fun us => ∃ vs, us = ms ++ vs ∧ Goal.switchClauses.Shows vs) v (ms ++ more) := by
    refine ⟨rfl, ⟨trivial, nofun⟩, ?_⟩
    rintro us ⟨k, rfl⟩
    obtain rfl | rfl := hMore
    · exact ⟨_, by rw [List.append_nil], k, rfl⟩
    · exact ⟨_, List.append_assoc _ _ _, k + 1, rfl⟩
  have hNone (v) := hAgain v [] (.inl rfl)
  rw [List.append_nil] at hNone
  simp only [shows_ite]
  refine ⟨fun _ => ⟨[], by simp, 0, rfl⟩, fun hOpen => ⟨?_, fun _ => ⟨?_, fun _ => ?_⟩⟩⟩
  · rintro rfl
    simp [clauseBody, hR]
  · rintro rfl
    simp [clauseBody, hR]
  · have hClosing : h ≠ .symbol .rBrace := by
      rintro rfl
      exact hOpen rfl
    rw [shows_reject]
    refine hAgain _ _ ?_
    by_cases hOpening : h = .symbol .lBrace
    · exact .inr (by rw [hOpening]; rfl)
    · exact .inl (by rw [TokenKind.side?_eq_none hOpening hClosing]; rfl)

/-- A token that is left over may be a brace. -/
theorem shows_skipped {k : TokenKind} :
    ∀ m ∈ (k.side?.map (Mark.brace · .skipped)).toList, ∃ side, m = .brace side .skipped := by
  cases k.side? <;> simp

theorem shows_leftovers :
    leftovers.Shows R (fun us => ∃ vs, us = ms ++ vs ∧ Goal.leftovers.Shows vs) {} ms := by
  rw [leftovers, shows_look]
  intro h n m _ _
  rw [shows_ite]
  refine ⟨?_, fun _ => ?_⟩
  · rintro rfl
    simp [AllSkipped]
  · intro k hk
    refine ⟨rfl, ⟨trivial, by rintro ⟨⟩⟩, fun us hus => ⟨_, List.append_assoc _ _ _, ?_⟩⟩
    exact List.forall_mem_append.2 ⟨shows_skipped, hus⟩

theorem shows_standalone : standalone.Shows R Goal.standalone.Shows {} [] := by
  refine ⟨⟨trivial, fun _ => rfl⟩, fun us hus w _ _ => ?_⟩
  obtain rfl : us = [] := hus
  rw [shows_ite]
  refine ⟨fun hEnd => ?_, fun _ => ?_⟩
  · intro k hk
    obtain rfl := (hk _ rfl).trans hEnd
    exact nofun
  · intro k hk
    refine ⟨rfl, ⟨trivial, nofun⟩, fun us hus => ?_⟩
    exact List.forall_mem_append.2 ⟨shows_skipped, hus⟩

/-! ## Expressions -/

theorem shows_expression (hR : R []) : expression.Shows R (· = []) {} [] := by
  simp +contextual [expression, hR, TokenKind.side?_of_isPlain, TokenKind.isPlain_of_isAssignment]

theorem shows_ternary (hR : R []) : ternary.Shows R (· = []) {} [] := by
  simp +contextual [ternary, hR]

theorem shows_binary (hR : R []) (level : Nat) : (binary level).Shows R (· = []) {} [] := by
  simp +contextual [binary, hR]

theorem isPlain_of_unaryOperators {k : TokenKind} (h : k ∈ unaryOperators) : k.isPlain = true := by
  revert k
  decide

theorem shows_unary (hR : R []) : unary.Shows R (· = []) {} [] := by
  simp +contextual [unary, hR, TokenKind.side?_of_isPlain, isPlain_of_unaryOperators]

theorem shows_operator {k : TokenKind} {ks : List TokenKind} {leads : Prop} (hPlain : k.isPlain = true)
    (hNext : ∀ v, next.Shows R Q v ms) : (operator next).Shows R Q ⟨k :: ks, leads⟩ ms := by
  rw [operator, shows_look]
  intro h n m hSees _
  obtain rfl : k = h := (List.cons_prefix_cons.1 hSees).1
  simp +contextual [hNext, TokenKind.side?_of_isPlain hPlain]

theorem shows_binaryTail (hR : R []) (level : Nat) : (binaryTail level).Shows R (· = []) {} [] := by
  rw [binaryTail, shows_look]
  intro h n m _ _
  rw [shows_ite]
  refine ⟨fun hIs => shows_operator (isPlain_of_binaryLevels hIs) fun v => ?_, fun _ => rfl⟩
  simp [hR]

theorem shows_arguments (hR : R []) : arguments.Shows R (· = ms) {} ms := by
  simp +contextual [arguments, shows_separated, hR]

theorem shows_elements : elements.Shows R (· = ms) {} ms := by
  simp +contextual [elements, shows_separated]

theorem shows_structEntry (hDone : Q []) : structEntry.Shows R Q v [] := by
  have hAssumed : (Leaf.assumed Fault.expectedStructKey.assumption).mark? = none := by decide
  have hValue (v) : entryValue.Shows R Q v [] := by
    obtain ⟨ks, leads⟩ := v
    simp +contextual [entryValue, hDone]
  obtain ⟨ks, leads⟩ := v
  rw [structEntry, shows_look]
  intro h n m _ _
  rw [shows_ite]
  refine ⟨fun hKey => ?_, fun _ => ?_⟩
  · have hNone : h.side? = none := by
      obtain hWord | rfl | rfl := hKey
      · exact TokenKind.side?_of_isWord hWord
      · rfl
      · rfl
    simp [hNone, hValue]
  · simp [hAssumed, hValue]

theorem shows_structEntries (hR : R []) : structEntries.Shows R (· = ms) {} ms := by
  simp [structEntries, shows_structEntry, shows_separated, hR]

section

variable {k : TokenKind} {ks : List TokenKind} {leads : Prop} (hR : R [])
  (hNext : ∀ v, next.Shows R Q v [])

include hR hNext

omit hR in
/-- Whatever stands before the body may be a brace that was taken for the arrow. -/
theorem shows_arrowBody (hMs : ms = [] ∨ ∃ side, ms = [.brace side .matched]) :
    (arrowBody next).Shows R Q v ms := by
  have hClose (v) : (close .arrowFunction next).Shows R Q v ms := ⟨nofun, hMs, hNext v⟩
  obtain ⟨ks, leads⟩ := v
  simp [arrowBody, hClose, -shows_close]

theorem shows_arrowFunction : (arrowFunction next).Shows R Q v [] := by
  rw [arrowFunction, shows_parameterList hR]
  intro k _
  refine shows_arrowBody hNext ?_
  cases k.side? <;> simp

theorem shows_argumentList (hNone : k.side? = none) :
    (argumentList next).Shows R Q ⟨k :: ks, leads⟩ [] := by
  simp +contextual [argumentList, *]

theorem shows_arrayLiteral (hNone : k.side? = none) :
    (arrayLiteral next).Shows R Q ⟨k :: ks, leads⟩ [] := by
  simp +contextual [arrayLiteral, *]

omit hR in
theorem shows_structLiteral : (structLiteral next).Shows R Q ⟨.symbol .lBrace :: ks, leads⟩ [] := by
  have hClose (v) (b : Standing) (hb : b ≠ .skipped) : (close .structLiteral next).Shows R Q v
      [.brace .opening .matched, .brace .closing b] := ⟨nofun, ⟨b, rfl, hb⟩, hNext v⟩
  rw [structLiteral, shows_take, shows_look]
  intro h n m _ _
  rw [shows_ite]
  refine ⟨?_, fun _ => ⟨⟨trivial, fun _ => rfl⟩, ?_⟩⟩
  · rintro rfl
    rw [shows_take]
    exact hClose _ .matched nofun
  · rintro us rfl
    exact ⟨hClose _ .matched nofun, hClose _ .assumed nofun⟩

theorem shows_newArguments (hMs : ms = [] ∨ ms = [.nameless]) :
    (newArguments next).Shows R Q v ms := by
  have hClose (v) : (close .newExpression next).Shows R Q v ms := ⟨nofun, hMs, hNext v⟩
  obtain ⟨ks, leads⟩ := v
  simp +contextual [newArguments, argumentList, hR, hClose, -shows_close]

theorem shows_newExpression (hNone : k.side? = none) :
    (newExpression next).Shows R Q ⟨k :: ks, leads⟩ [] := by
  simp +contextual [newExpression, shows_newArguments, *]

theorem shows_functionExpression (hNone : k.side? = none) :
    (functionExpression next).Shows R Q ⟨k :: ks, leads⟩ [] := by
  simp +contextual [functionExpression, *]

theorem shows_parenthesized (hNone : k.side? = none) :
    (parenthesized next).Shows R Q ⟨k :: ks, leads⟩ [] := by
  simp +contextual [parenthesized, *]

theorem shows_parenOrArrow {w : Window} (hHere : w.here = .symbol .lParen) :
    (parenOrArrow w next).Shows R Q ⟨w.kinds, leads⟩ [] := by
  have hArrow (v) : (arrowFunction next).Shows R Q v [] := shows_arrowFunction hR hNext
  have hParens : (parenthesized next).Shows R Q ⟨w.kinds, leads⟩ [] :=
    shows_parenthesized hR hNext (by rw [hHere]; rfl)
  simp only [parenOrArrow, shows_ite, hArrow, hParens, implies_true, and_true, true_and]
  exact fun _ _ => ⟨⟨False, nofun, hArrow _⟩, hParens⟩

omit hR in
/-- What is skipped where no operand starts is no brace. -/
theorem shows_noOperand (hOpening : k ≠ .symbol .lBrace) :
    (if boundaries.contains k ∨ Token.startsStatement k then assume .expectedExpression next
      else reject .expectedExpression next).Shows R Q ⟨k :: ks, leads⟩ [] := by
  have hAssumed : (Leaf.assumed Fault.expectedExpression.assumption).mark? = none := by decide
  rw [shows_ite]
  refine ⟨fun _ => by simp [hAssumed, hNext], fun hOther => ?_⟩
  have hClosing : k ≠ .symbol .rBrace := by
    rintro rfl
    exact hOther (.inl rfl)
  simp [hOpening, hClosing, hNext]

theorem shows_operand : (operand next).Shows R Q {} [] := by
  rw [operand, shows_look]
  intro h n m _ _
  cases h with
  | symbol s =>
    cases s with
    | lParen => exact shows_parenOrArrow hR hNext rfl
    | lBracket => exact shows_arrayLiteral hR hNext rfl
    | lBrace => exact shows_structLiteral hNext
    | _ => exact shows_noOperand hNext (by rintro ⟨⟩)
  | keyword w =>
    cases w with
    | new => exact shows_newExpression hR hNext rfl
    | function => exact shows_functionExpression hR hNext rfl
    | true_ | false_ | null => simp [hNext]
    | _ => exact shows_noOperand hNext (by rintro ⟨⟩)
  | identifier => simp +contextual [hNext, shows_arrowBody hNext]
  | integer | float | string => simp [hNext]
  | invalid => simp [Production.Shows, hNext]
  | _ => exact shows_noOperand hNext (by rintro ⟨⟩)

end

theorem shows_appliedTail (hR : R []) : appliedTail.Shows R (· = []) {} [] := by
  rw [appliedTail, shows_look]
  intro h n m _ _
  cases h with
  | symbol s =>
    cases s with
    | lParen => exact shows_argumentList hR (by simp [hR]) rfl
    | _ => simp [hR]
  | _ => rfl

end Grammar

/-! ## All goals -/

namespace Goal

variable {R : List Mark → Prop} {goal : Goal}

/-- A goal that adds no marks of its own. -/
theorem passes_of_adds (hShows : goal.Shows = (· = []))
    (h : ∀ ms, goal.Stops → goal.production.Shows R (· = ms) {} ms) : goal.Passes R := by
  intro _ ms hms
  have hQ : (fun us => ∃ vs, us = ms ++ vs ∧ goal.Shows vs) = (· = ms) := by
    funext us
    simp [hShows]
  rw [hQ]
  exact h ms hms.1

/-- A goal that begins with no parts. -/
theorem passes_of_nil (hAdds : goal.adds = false)
    (h : goal.production.Shows R goal.Shows {} []) : goal.Passes R := by
  intro _ ms hms
  obtain rfl : ms = [] := hms.2 hAdds
  simpa using h

open Grammar

/-- Every goal passes the check, if the rest of a broken statement may show nothing. -/
theorem passes (hR : R []) (goal : Goal) : goal.Passes R := by
  cases goal with
  | script => exact fun _ _ _ => shows_script
  | standalone => exact passes_of_nil rfl shows_standalone
  | leftovers => exact fun _ _ _ => shows_leftovers
  | statements stop => exact passes_of_adds rfl fun _ hStop => shows_statements hStop
  | statement => exact passes_of_nil rfl (shows_statement hR rfl)
  | switchClauses => exact fun _ _ _ => shows_switchClauses hR
  | catchClauses => exact passes_of_adds rfl fun _ _ => shows_catchClauses hR
  | modifiers => exact passes_of_adds rfl fun _ _ => shows_modifierWords
  | dottedName => exact passes_of_nil rfl (shows_dottedName.2 rfl)
  | dottedTail => exact passes_of_adds rfl fun _ _ => shows_dottedTail
  | typedName => exact fun hTyped => absurd hTyped nofun
  | propertyName => exact fun hTyped => absurd hTyped nofun
  | attributes => exact passes_of_adds rfl fun _ _ => shows_attributes hR
  | parameters => exact passes_of_adds rfl fun _ _ => shows_parameters hR
  | expression => exact passes_of_nil rfl (shows_expression hR)
  | ternary => exact passes_of_nil rfl (shows_ternary hR)
  | binary level => exact passes_of_nil rfl (shows_binary hR level)
  | binaryTail level => exact passes_of_nil rfl (shows_binaryTail hR level)
  | unary => exact passes_of_nil rfl (shows_unary hR)
  | applied => exact passes_of_nil rfl (shows_operand hR fun _ =>
      ⟨rfl, ⟨trivial, fun _ => rfl⟩, fun _ hus => hus⟩)
  | appliedTail => exact passes_of_nil rfl (shows_appliedTail hR)
  | arguments => exact passes_of_adds rfl fun _ _ => shows_arguments hR
  | elements => exact passes_of_adds rfl fun _ _ => shows_elements
  | structEntries => exact passes_of_adds rfl fun _ _ => shows_structEntries hR

end Goal

/-! ## Trees -/

namespace Parser

variable {R : List Mark → Prop} {stream : TokenStream} {prediction : Prediction} {entry : Entry}
  {tree : Tree} {q : Parser}

/-- In a tree that a parser gives, nodes have marks that their rules admit, and the root has those of
what is skipped. -/
theorem marked_of_parse (hR : R []) (hFair : stream.Fair R)
    (h : (new stream prediction).parse entry = (.ok tree, q)) :
    (∀ c ∈ tree.children, c.Marked R) ∧ AllSkipped (Tree.marks tree.children) := by
  obtain ⟨parts, rfl, -, hParsed⟩ := parse_eq_ok_iff.1 h
  have hViewed : Viewed R {} [] ⟨stream, .empty⟩ := ⟨hFair, Glance.holds_blank _, nofun⟩
  obtain ⟨hParts, ms, hMs, hShows⟩ := (run_shows hR (Goal.passes hR) _).shows
    (f := .start ⟨stream, .empty⟩) hViewed (fun _ => rfl)
    (by cases entry <;> exact ⟨trivial, fun _ => rfl⟩) hParsed
  refine ⟨hParts, ?_⟩
  change AllSkipped (Tree.marks parts)
  rw [hMs]
  cases entry with
  | script => exact fun m hm => ⟨.closing, hShows m hm⟩
  | expression => exact hShows

end Parser

/-! ## Sources -/

namespace Token

/-- The end of a source is empty, and no other token is. -/
theorem lexeme_eq_empty_iff {source : String} {t : Token} (h : t ∈ tokens source) :
    t.lexeme = "" ↔ t.isEnd = true := by
  have hTiles : Tiles [] source.toList (tokens source) := tiles_scan [] source.toList
  obtain ⟨body, hBody, hOthers⟩ := hTiles.ends
  rw [hBody, List.mem_append, List.mem_singleton] at h
  obtain h | rfl := h
  · obtain ⟨gap, text, back, kind, -, rfl, hText⟩ :=
      hTiles.exists_behind (hBody ▸ List.mem_append_left _ h)
    have hKind : kind ≠ .endOfInput := hOthers _ h
    simp [isEnd, behind, hKind, hText hKind]
  · simp [isEnd, behind]

end Token

theorem TokenStream.fair_ofSource {R : List Mark → Prop} {source : String}
    (hSkips : ∀ ts, ts <:+ Token.words source → R (Token.skippedMarks ts)) :
    (ofTokens (Token.tokens source)).Fair R where
  ends := (Whole.ofSource source).ends
  filled t ht hEmpty := by
    rw [rest_ofTokens_tokens, Token.mem_words] at ht
    simp [(Token.lexeme_eq_empty_iff ht.1).1 hEmpty] at ht
  skips ts hts := by
    rw [rest_ofTokens_tokens] at hts
    exact hSkips ts hts

theorem allSkipped_map_skipped (ts : List Token) : AllSkipped (Tree.marks (ts.map .skipped)) := by
  intro m hm
  obtain ⟨t, ht, hm⟩ := List.mem_filterMap.1 hm
  obtain ⟨u, -, rfl⟩ := List.mem_map.1 ht
  rw [Tree.mark?_skipped] at hm
  obtain ⟨side, -, rfl⟩ := Option.map_eq_some_iff.1 hm
  exact ⟨side, rfl⟩

/-- In the tree of a source, nodes have marks that their rules admit, and the root has those of what
is skipped. -/
theorem parse_marked {R : List Mark → Prop} {source : String} (hR : R [])
    (hSkips : ∀ ts, ts <:+ Token.words source → R (Token.skippedMarks ts)) (options : ParseOptions) :
    (∀ c ∈ (parse source options).tree.children, c.Marked R) ∧
      AllSkipped (Tree.marks (parse source options).tree.children) := by
  have hWhole := TokenStream.Whole.ofSource source
  rcases parseStream_cases options hWhole with ⟨prediction, q, hParse, -⟩ | ⟨bail, q, -, hSkipped⟩
  · exact Parser.marked_of_parse hR (TokenStream.fair_ofSource hSkips) hParse
  have hChildren : (parse source options).tree.children =
      (TokenStream.ofTokens (Token.tokens source)).rest.map .skipped ++
        [.token (TokenStream.ofTokens (Token.tokens source)).last] :=
    congrArg (fun r => r.1.children) hSkipped
  have hLast : (TokenStream.ofTokens (Token.tokens source)).last.kind = .endOfInput := by
    have := TokenStream.last_isEnd (TokenStream.ofTokens (Token.tokens source))
    simpa [Token.isEnd] using this
  rw [hChildren]
  refine ⟨List.forall_mem_append.2 ⟨?_, ?_⟩, ?_⟩
  · exact List.forall_mem_map.2 fun t _ => .leaf (.skipped t)
  · exact List.forall_mem_singleton.2 (.leaf (.matched _))
  · rw [Tree.marks_append, Tree.marks_singleton, Tree.mark?_token, hLast]
    exact List.forall_mem_append.2 ⟨allSkipped_map_skipped _, List.forall_mem_nil _⟩

end CfScript
