import CfScript.Proofs.GrammarContract
import CfScript.Proofs.Yield

/-!
# The grammar makes well-formed trees

Every goal passes the check of `Yields`, from the productions that it uses upwards. Each lemma takes
the parts that the production adds and hands them to the production after it; where a node is made,
the parts collected by then are the form of its rule.

## Main results

* `yields_oneStatement`, `yields_operand`: the two checks with the most cases;
* `Goal.yields`: every goal passes the check;
* `run_makes`: what a parse makes is well-formed.
-/

namespace CfScript

/-! ## How goals begin and end -/

/-- Whether parts of a form are added. -/
def Form.After (form : Form) (ps qs : List Tree) : Prop := ∃ us, qs = ps ++ us ∧ form us

theorem Form.after_self {form : Form} {ps : List Tree} (h : form []) : form.After ps ps :=
  ⟨[], by simp, h⟩

/-- What follows a name, possibly after its type, follows either. -/
theorem Form.typedName_append {next : Form} {us vs : List Tree} (hus : typedName done us)
    (hvs : next vs) : typedName next (us ++ vs) := by
  rcases hus with hus | hus
  · obtain ⟨t, ts, rfl, ht, rfl⟩ := one_iff.1 hus
    exact .inl ⟨ht, hvs⟩
  · obtain ⟨t, ts, rfl, ht, hts⟩ := one_iff.1 hus
    obtain ⟨u, us, rfl, hu, rfl⟩ := one_iff.1 hts
    exact .inr ⟨ht, hu, hvs⟩

namespace Goal

variable {goal : Goal}

theorem begins_nil (h : goal.goesOn = false) : goal.Begins [] := by simp [Goal.Begins, h]

/-- A goal that begins with nothing. -/
theorem yields_of_nil (hOn : goal.goesOn = false) (hAdds : goal.adds = false)
    (h : goal.production.Yields goal.form {} []) : goal.Yields := by
  intro ps hps
  obtain rfl : ps = [] := by simpa [Begins, hOn, hAdds] using hps
  have hGives : goal.Gives [] = goal.form := by
    funext qs
    simp [Gives, hOn]
  rwa [hGives]

/-- A goal that goes on with an expression. -/
theorem yields_of_goesOn (hOn : goal.goesOn = true)
    (h : ∀ e : Tree, e.Fits (·.isExpression) → goal.production.Yields goal.form {} [e]) :
    goal.Yields := by
  intro ps hps
  have hGives : goal.Gives ps = goal.form := by
    funext qs
    simp [Gives, hOn]
  rw [Begins, if_pos hOn] at hps
  obtain ⟨e, es, rfl, he, rfl⟩ := Form.one_iff.1 hps
  rw [hGives]
  exact h e he

/-- A goal that adds to parts that are there. -/
theorem yields_of_adds (hOn : goal.goesOn = false)
    (h : ∀ ps, goal.production.Yields (goal.form.After ps) {} ps) : goal.Yields := by
  intro ps _
  have hGives : goal.Gives ps = goal.form.After ps := by
    funext qs
    simp [Gives, hOn, Form.After]
  rw [hGives]
  exact h ps

end Goal

namespace Grammar

open Production CfScript.Tree

/-- A token is a token. -/
theorem fits_token (t : Token) : (token t).Fits (·.isTokenThat fun _ => true) := .inr rfl

attribute [local simp] fits_of fits_token Rule.form Form.one Form.either Form.done Form.kind Form.mark
  Form.keyword Form.word Form.node Form.expression Form.statement Form.condition Form.clause
  Form.path Form.typedName Form.parameter Form.valued

variable {Q : List Tree → Prop} {next : Production} {v : Sight} {ps : List Tree}
  {k : TokenKind} {ks : List TokenKind} {text? : Option String} {rule : Rule}

/-! ## Actions -/

/-- A token of a known kind. -/
theorem yields_take
    (h : ∀ t : Token, t.kind = k → next.Yields Q ⟨ks, none⟩ (ps ++ [.token t])) :
    (take next).Yields Q ⟨k :: ks, text?⟩ ps :=
  fun t ht => h t (ht.1 k rfl)

theorem yields_expect {kind : TokenKind}
    (h : ∀ t : Tree, t.Fits (·.isTokenThat (·.kind == kind)) → next.Yields Q {} (ps ++ [t])) :
    (expect kind next).Yields Q v ps :=
  h

theorem yields_word
    (h : ∀ t : Tree, t.Fits (·.isTokenThat (·.kind.isWord)) → next.Yields Q {} (ps ++ [t])) :
    (word next).Yields Q v ps :=
  h

theorem yields_look {choose : Window → Production}
    (h : ∀ w : Window, v.ahead <+: [w.here, w.next, w.second] →
      (choose w).Yields Q ⟨[w.here, w.next, w.second], v.word?⟩ ps) :
    (look choose).Yields Q v ps :=
  h

/-- A decision that says nothing about the parts. -/
theorem yields_ite {c : Prop} [Decidable c] {yes no : Production} (hYes : yes.Yields Q v ps)
    (hNo : no.Yields Q v ps) : (if c then yes else no).Yields Q v ps := by
  split
  · exact hYes
  · exact hNo

theorem yields_spell {choose : String → Production}
    (h : ∀ text, (choose text).Yields Q ⟨v.ahead, some text⟩ ps) :
    (spell choose).Yields Q v ps :=
  h

theorem yields_node {inner : Production}
    (h : inner.Yields (fun cs => rule.form cs ∧ next.Yields Q {} (ps ++ [.node rule cs])) v []) :
    (node rule inner next).Yields Q v ps :=
  h

/-- A goal that gives one part of a sort. -/
theorem yields_one {goal : Goal} {p : Tree → Bool} (hForm : goal.form = Form.one p .done)
    (hOn : goal.goesOn = false) (h : ∀ t : Tree, t.Fits p → next.Yields Q {} (ps ++ [t])) :
    (Production.parse goal next).Yields Q v ps := by
  refine ⟨Goal.begins_nil hOn, fun us hus => ?_⟩
  rw [hForm] at hus
  obtain ⟨t, ts, rfl, ht, rfl⟩ := Form.one_iff.1 hus
  exact h t ht

/-- A goal that gives any number of parts of a sort. -/
theorem yields_many {goal : Goal} {p : Tree → Bool} (hForm : goal.form = Form.many p .done)
    (hOn : goal.goesOn = false)
    (h : ∀ us : List Tree, (∀ u ∈ us, u.Fits p) → next.Yields Q {} (ps ++ us)) :
    (Production.parse goal next).Yields Q v ps := by
  refine ⟨Goal.begins_nil hOn, fun us hus => ?_⟩
  rw [hForm] at hus
  obtain ⟨us, ts, rfl, hAll, rfl⟩ := hus
  rw [List.append_nil]
  exact h us hAll

theorem yields_expression
    (h : ∀ e : Tree, e.Fits (·.isExpression) → next.Yields Q {} (ps ++ [e])) :
    (Production.parse .expression next).Yields Q v ps :=
  yields_one rfl rfl h

theorem yields_ternary
    (h : ∀ e : Tree, e.Fits (·.isExpression) → next.Yields Q {} (ps ++ [e])) :
    (Production.parse .ternary next).Yields Q v ps :=
  yields_one rfl rfl h

theorem yields_statement
    (h : ∀ s : Tree, s.Fits (·.isStatement) → next.Yields Q {} (ps ++ [s])) :
    (Production.parse .statement next).Yields Q v ps :=
  yields_one rfl rfl h

/-- A goal that goes on adding parts of a sort. -/
theorem yields_again {goal : Goal} {p : Tree → Bool} {us : List Tree}
    (hForm : goal.form = Form.many p .done) (hOn : goal.goesOn = false)
    (hAdds : goal.adds = true) (hus : ∀ u ∈ us, u.Fits p) :
    (again goal).Yields (goal.form.After ps) v (ps ++ us) := by
  refine ⟨by simp [Goal.Begins, hAdds, hOn], fun qs hqs => ?_⟩
  simp only [Goal.Gives, hOn, hForm] at hqs
  obtain ⟨more, rfl, hMore⟩ := hqs
  obtain ⟨vs, ts, rfl, hvs, rfl⟩ := hMore
  rw [hForm]
  exact ⟨us ++ vs, by simp, Form.many_done (List.forall_mem_append.2 ⟨hus, hvs⟩)⟩

/-- The last action of a statement. -/
theorem yields_close (hRule : rule.isStatement = true) (hForm : rule.form ps) :
    (close rule done).Yields (Form.statement .done) v ps :=
  ⟨hForm, by simp [Production.Yields, hRule]⟩

/-- An operation that is an operand of what follows. -/
theorem yields_operation (hRule : rule.isExpression = true) (hForm : rule.form ps)
    (h : ∀ e : Tree, e.Fits (·.isExpression) → next.Yields Q v [e]) :
    (close rule next).Yields Q v ps :=
  ⟨hForm, h _ (by simp [hRule])⟩

/-- The last action of an expression. -/
theorem yields_done {e : Tree} (h : e.Fits (·.isExpression)) :
    done.Yields (Form.expression .done) v [e] :=
  ⟨h, rfl⟩

/-! ## Names, types and attributes -/

theorem yields_plainName (h : Goal.dottedName.form ps) (hName : ∀ qs, Form.typedName .done qs → Q qs) :
    plainName.Yields Q v ps := by
  obtain ⟨t, ts, rfl, ht, us, vs, rfl, hus, rfl⟩ := Form.one_iff.1 h
  constructor
  · intro hOne
    obtain rfl : us = [] := by simpa using hOne
    exact hName _ (.inl ⟨ht, rfl⟩)
  · intro _
    refine ⟨Form.many_done ?_, fun u hu => hName _ (.inr ⟨by simp, fits_of_hasErrors hu, rfl⟩)⟩
    intro u hu
    rw [List.append_nil] at hu
    rcases List.mem_cons.1 hu with rfl | hu
    · exact ht.isToken
    · exact hus u hu

theorem yields_dottedTail : Goal.Yields .dottedTail := by
  refine Goal.yields_of_adds rfl fun ps => yields_look fun w _ => ?_
  split
  · refine yields_take fun t _ => yields_take fun u _ => ?_
    rw [List.append_assoc]
    exact yields_again rfl rfl rfl (by simp)
  · exact Form.after_self (Form.many_done nofun)

theorem yields_dottedName : Goal.Yields .dottedName := by
  refine Goal.yields_of_nil rfl rfl (yields_word fun t ht => ⟨.inl rfl, ?_⟩)
  rintro qs ⟨us, rfl, hus⟩
  exact ⟨ht, hus⟩

/-- A dotted name as a node. -/
theorem typeName_form {qs : List Tree} (h : Goal.dottedName.form qs) : Rule.typeName.form qs := by
  obtain ⟨t, ts, rfl, ht, us, vs, rfl, hus, rfl⟩ := Form.one_iff.1 h
  refine Form.many_done fun u hu => ?_
  rw [List.append_nil] at hu
  rcases List.mem_cons.1 hu with rfl | hu
  · exact ht.isToken
  · exact hus u hu

/-- A dotted name that is a type if a name follows. -/
theorem yields_nameAfter {test : Window → Prop} [DecidablePred test] {v : Sight}
    (hTest : ∀ w, test w → w.here.isWord = true) :
    (Production.parse .dottedName <| look fun w =>
      if test w then close .typeName <| take done else plainName).Yields
        (Form.typedName .done) v [] := by
  refine ⟨Goal.begins_nil rfl, fun qs hqs => yields_look fun w _ => ?_⟩
  split
  next hWord =>
    refine ⟨typeName_form hqs, yields_take fun t ht => .inr ⟨by simp, ?_, rfl⟩⟩
    exact fits_of (by simp [ht, hTest w hWord])
  next => exact yields_plainName hqs fun _ h => h

theorem yields_typedName : Goal.Yields .typedName :=
  Goal.yields_of_nil rfl rfl (yields_nameAfter fun _ h => h)

theorem yields_propertyName : Goal.Yields .propertyName :=
  Goal.yields_of_nil rfl rfl (yields_nameAfter fun _ h => h.1)

/-- A goal that gives a name, possibly after its type. -/
theorem yields_parse_typedName {goal : Goal} (hForm : goal.form = Form.typedName .done)
    (hOn : goal.goesOn = false)
    (h : ∀ us, Form.typedName .done us → next.Yields Q {} (ps ++ us)) :
    (Production.parse goal next).Yields Q v ps :=
  ⟨Goal.begins_nil hOn, fun us hus => h us (hForm ▸ hus)⟩

theorem yields_attributes : Goal.Yields .attributes := by
  refine Goal.yields_of_adds rfl fun ps => yields_look fun w _ => ?_
  split
  next h =>
    refine yields_node <| yields_take fun t ht => yields_take fun u hu =>
      yields_ternary fun e he => ⟨?_, ?_⟩
    · simp [ht, hu, h, he]
    · exact yields_again rfl rfl rfl (by simp)
  next => exact Form.after_self (Form.many_done nofun)

/-! ## Lists between commas -/

theorem yields_separated {goal : Goal} {p : Tree → Bool} {t : Tree}
    (hForm : goal.form = Form.listed p .done) (hOn : goal.goesOn = false)
    (hAdds : goal.adds = true) (ht : t.Fits p) :
    (separated goal).Yields (goal.form.After ps) v (ps ++ [t]) := by
  have hPart : t.Fits fun t => p t || t.isTokenThat (·.kind == .symbol .comma) :=
    Or.imp id (by simp +contextual) ht
  refine yields_look fun w _ => ?_
  split
  next h =>
    refine yields_take fun u hu => ?_
    rw [List.append_assoc]
    exact yields_again hForm hOn hAdds (by simp [hPart, hu, h])
  next =>
    rw [hForm]
    exact ⟨[t], rfl, Form.many_done (by simpa using hPart)⟩

theorem yields_parameterBody (h : ∀ us, Form.parameter us → Q (ps ++ us)) :
    parameterBody.Yields Q v ps := by
  refine yields_parse_typedName rfl rfl fun us hus => yields_look fun w _ => ?_
  split
  next hHere =>
    refine yields_take fun t ht => yields_ternary fun e he => yields_many rfl rfl fun as has => ?_
    have hDefault : Form.parameter (us ++ (.token t :: e :: as)) :=
      Form.typedName_append hus (.inl ⟨by simp [ht, hHere], he, Form.many_done has⟩)
    simpa [Production.Yields] using h _ hDefault
  next =>
    refine yields_many rfl rfl fun as has => ?_
    have hPlain : Form.parameter (us ++ as) := Form.typedName_append hus (.inr (Form.many_done has))
    simpa [Production.Yields] using h _ hPlain

theorem yields_parameter (h : ∀ us, Rule.parameter.form us → Q us) :
    Grammar.parameter.Yields Q v [] := by
  refine yields_look fun w _ => ?_
  split
  next hWords =>
    refine yields_spell fun text => ?_
    split
    next hText =>
      intro t ht
      refine yields_parameterBody fun us hus => h _ (.inr ⟨fits_of ?_, hus⟩)
      have hKind : t.kind = w.here := ht.1 w.here rfl
      have hFold : Text.fold t.lexeme = "required" := hText ▸ ht.2 text rfl
      have hWord : t.kind.isWord = true := hKind ▸ hWords.1
      have hName : Text.fold "required" = "required" := by decide
      simp [Token.isWordNamed, hWord, Text.sameName, hFold, hName]
    next => exact yields_parameterBody fun us hus => h _ (.inl hus)
  next => exact yields_parameterBody fun us hus => h _ (.inl hus)

theorem yields_parameters : Goal.Yields .parameters := by
  refine Goal.yields_of_adds rfl fun ps => yields_node <| yields_parameter fun cs hcs => ⟨hcs, ?_⟩
  exact yields_separated rfl rfl rfl (by simp)

theorem yields_parameterList
    (h : ∀ t : Tree, t.Fits (·.isNode .parameterList) → next.Yields Q {} (ps ++ [t])) :
    (parameterList next).Yields Q v ps := by
  refine yields_node <| yields_expect fun l hl => yields_look fun w _ => ?_
  split
  next hHere =>
    refine yields_take fun r hr => ⟨⟨hl, Form.many_of ⟨?_, rfl⟩⟩, h _ (by simp)⟩
    simp [hr, hHere]
  next =>
    refine yields_many rfl rfl fun us hus => yields_expect fun r hr => ⟨?_, h _ (by simp)⟩
    exact ⟨hl, Form.many_append hus ⟨hr, rfl⟩⟩

theorem yields_arguments : Goal.Yields .arguments := by
  refine Goal.yields_of_adds rfl fun ps => yields_look fun w _ => ?_
  split
  next h =>
    refine yields_node <| yields_take fun t ht => yields_take fun u hu =>
      yields_ternary fun e he => ⟨?_, ?_⟩
    · simp [ht, hu, h, he]
    · exact yields_separated rfl rfl rfl (by simp)
  next =>
    refine yields_node <| yields_expression fun e he => ⟨.inl ⟨he, rfl⟩, ?_⟩
    exact yields_separated rfl rfl rfl (by simp)

/-- Arguments in parentheses, at the opening one. -/
theorem yields_argumentList
    (h : ∀ t : Tree, t.Fits (·.isNode .argumentList) → next.Yields Q {} (ps ++ [t])) :
    (argumentList next).Yields Q ⟨.symbol .lParen :: ks, text?⟩ ps := by
  refine yields_node <| yields_take fun l hl => yields_look fun w _ => ?_
  have hOpen : (token l).Fits (·.isTokenThat (·.kind == .symbol .lParen)) := by simp [hl]
  split
  next hHere =>
    refine yields_take fun r hr => ⟨⟨hOpen, Form.many_of ⟨?_, rfl⟩⟩, h _ (by simp)⟩
    simp [hr, hHere]
  next =>
    refine yields_many rfl rfl fun us hus => yields_expect fun r hr => ⟨?_, h _ (by simp)⟩
    exact ⟨hOpen, Form.many_append hus ⟨hr, rfl⟩⟩

theorem yields_elements : Goal.Yields .elements := by
  refine Goal.yields_of_adds rfl fun ps => yields_expression fun e he => ?_
  exact yields_separated rfl rfl rfl he

theorem yields_entryValue (h : ∀ us, Form.either (Form.mark .colon <| Form.expression .done)
      (Form.mark .assign <| Form.expression .done) us → Q (ps ++ us)) :
    entryValue.Yields Q v ps := by
  refine yields_look fun w _ => ?_
  split
  next hHere =>
    refine yields_take fun t ht => yields_expression fun e he => ?_
    simpa [Production.Yields] using h [.token t, e] (by simp [ht, hHere, he])
  next =>
    refine yields_expect fun t ht => yields_expression fun e he => ?_
    simpa [Production.Yields] using h [t, e] (.inl ⟨ht, he, rfl⟩)

theorem yields_structEntry (h : ∀ us, Rule.structEntry.form us → Q us) :
    Grammar.structEntry.Yields Q v [] := by
  refine yields_look fun w _ => ?_
  split
  next hHere =>
    refine yields_take fun t ht => yields_entryValue fun us hus => h _ ⟨fits_of ?_, hus⟩
    simpa [ht, or_assoc] using hHere
  next => exact fun t ht => yields_entryValue fun us hus => h _ ⟨fits_of_hasErrors ht, hus⟩

theorem yields_structEntries : Goal.Yields .structEntries := by
  refine Goal.yields_of_adds rfl fun ps => yields_node <| yields_structEntry fun cs hcs => ⟨hcs, ?_⟩
  exact yields_separated rfl rfl rfl (by simp)

/-! ## Blocks and clauses -/

/-- A statement of a list, or what is skipped in its place. -/
theorem yields_listed (h : ∀ t : Tree, t.Fits (·.isStatement) → next.Yields Q {} (ps ++ [t])) :
    (listed next).Yields Q v ps := by
  refine ⟨Goal.begins_nil rfl, fun t ht => h t (fits_of_hasErrors ht), fun us hus => ?_⟩
  obtain ⟨t, ts, rfl, ht, rfl⟩ := Form.one_iff.1 hus
  exact h t ht

theorem yields_statements (stop : List TokenKind) : Goal.Yields (.statements stop) := by
  refine Goal.yields_of_adds rfl fun ps => yields_look fun w _ => ?_
  split
  · exact Form.after_self (Form.many_done nofun)
  · exact yields_listed fun t ht => yields_again rfl rfl rfl (by simpa using ht)

theorem yields_script : Goal.Yields .script := by
  have hAgain : ∀ (ps : List Tree) (t : Tree), t.Fits (·.isStatement) →
      (again .script).Yields (Goal.script.form.After ps) {} (ps ++ [t]) := by
    refine fun ps t ht => ⟨.inl rfl, ?_⟩
    rintro qs ⟨us, rfl, vs, ts, rfl, hvs, hts⟩
    exact ⟨t :: (vs ++ ts), by simp, t :: vs, ts, by simp, by simpa using ⟨ht, hvs⟩, hts⟩
  refine Goal.yields_of_adds rfl fun ps => yields_look fun w _ => ?_
  split
  next hEnd =>
    refine yields_take fun t ht => ⟨_, rfl, Form.many_of ⟨?_, rfl⟩⟩
    simp [ht, hEnd]
  next =>
    split
    · exact fun t ht => hAgain ps t (fits_of_hasErrors ht)
    · exact yields_listed fun t ht => hAgain ps t ht

theorem yields_leftovers : Goal.Yields .leftovers := by
  refine Goal.yields_of_adds rfl fun ps => yields_look fun w _ => ?_
  split
  next hEnd =>
    refine yields_take fun t ht => ⟨_, rfl, Form.many_of ⟨?_, rfl⟩⟩
    simp [ht, hEnd]
  next =>
    refine fun t ht => ⟨.inl rfl, ?_⟩
    rintro qs ⟨us, rfl, vs, ts, rfl, hvs, hts⟩
    exact ⟨t :: (vs ++ ts), by simp, t :: vs, ts, by simp,
      by simpa using ⟨fits_of_hasErrors ht, hvs⟩, hts⟩

theorem yields_block (h : ∀ t : Tree, t.Fits (·.isNode .block) → next.Yields Q {} (ps ++ [t])) :
    (block next).Yields Q v ps := by
  refine yields_node <| yields_expect fun l hl => yields_many rfl rfl fun us hus =>
    yields_expect fun r hr => ⟨?_, h _ (by simp)⟩
  exact ⟨hl, Form.many_append hus ⟨hr, rfl⟩⟩

theorem yields_condition
    (h : ∀ l e r : Tree, l.Fits (·.isTokenThat (·.kind == .symbol .lParen)) →
      e.Fits (·.isExpression) → r.Fits (·.isTokenThat (·.kind == .symbol .rParen)) →
      next.Yields Q {} (ps ++ [l] ++ [e] ++ [r])) :
    (condition next).Yields Q v ps :=
  yields_expect fun l hl => yields_expression fun e he => yields_expect fun r hr => h l e r hl he hr

/-! ## The ends of statements -/

theorem ending_nil : Form.ending [] := Form.many_done nofun

theorem yields_ended {broken : Production} (hRule : rule.isStatement = true)
    (hForm : ∀ us, Form.ending us → rule.form (ps ++ us))
    (h : ∀ v, broken.Yields (Form.statement .done) v ps) :
    (ended rule broken).Yields (Form.statement .done) v ps := by
  refine yields_look fun w _ => ?_
  split
  next hHere =>
    refine yields_take fun t ht => yields_close hRule (hForm _ (Form.many_done ?_))
    simp [ht, hHere]
  next =>
    split
    · refine yields_close hRule ?_
      simpa using hForm [] ending_nil
    · exact h _

theorem yields_unended (hRule : rule.isStatement = true)
    (hForm : ∀ us, Form.ending us → rule.form (ps ++ us)) :
    (unended rule).Yields (Form.statement .done) v ps := by
  refine fun t ht => yields_close hRule (hForm _ (Form.many_done ?_))
  simpa using fits_of_hasErrors ht

theorem yields_terminated (hRule : rule.isStatement = true)
    (hForm : ∀ us, Form.ending us → rule.form (ps ++ us)) :
    (terminated rule).Yields (Form.statement .done) v ps := by
  refine yields_ended hRule hForm fun v => ⟨?_, yields_unended hRule hForm⟩
  exact fun us hus => yields_close hRule (hForm us hus)

/-! ## Statements -/

theorem yields_wordStatement (hRule : rule.isStatement = true)
    (hForm : ∀ t us, t.kind = k → Form.ending us → rule.form (.token t :: us)) :
    (wordStatement rule).Yields (Form.statement .done) ⟨k :: ks, text?⟩ [] :=
  yields_take fun t ht => yields_terminated hRule fun us hus => hForm t us ht hus

theorem yields_valueStatement (hRule : rule.isStatement = true)
    (hForm : ∀ t us, t.kind = k → Form.valued us → rule.form (.token t :: us)) :
    (valueStatement rule).Yields (Form.statement .done) ⟨k :: ks, text?⟩ [] := by
  refine yields_take fun t ht => yields_look fun w _ => ?_
  split
  · exact yields_terminated hRule fun us hus => hForm t us ht (.inl hus)
  · exact yields_expression fun e he => yields_terminated hRule fun us hus =>
      hForm t (e :: us) ht (.inr ⟨he, hus⟩)

/-- A value is required where a string follows. -/
theorem yields_includeStatement :
    (valueStatement .includeStatement).Yields (Form.statement .done)
      ⟨[.identifier, .string, k], text?⟩ [] := by
  refine yields_take fun t ht => yields_look fun w hw => ?_
  have hHere : w.here = .string := eq_here hw
  split
  next h => simp [hHere, closers] at h
  next =>
    refine yields_expression fun e he => yields_terminated rfl fun us hus => ?_
    exact ⟨by simp [ht], he, hus⟩

theorem yields_expressionStatement :
    expressionStatement.Yields (Form.statement .done) v [] :=
  yields_expression fun _ he => yields_terminated rfl fun _ hus => ⟨he, hus⟩

/-- What is declared is a statement with and without its end. -/
theorem yields_declaration
    (h : ∀ v us, (∀ vs, Form.ending vs → Rule.varStatement.form (us ++ vs)) →
      next.Yields Q v us) :
    (declaration next).Yields Q ⟨.keyword .var :: ks, text?⟩ [] := by
  refine yields_take fun t ht => yields_word fun n hn => yields_look fun w _ => ?_
  have hVar : (token t).Fits (·.isTokenThat (·.kind == .keyword .var)) := by simp [ht]
  split
  next hHere =>
    refine yields_take fun u hu => yields_expression fun e he => h _ _ fun vs hvs => ?_
    exact ⟨hVar, hn, .inr ⟨by simp [hu, hHere], he, hvs⟩⟩
  next => exact h _ _ fun vs hvs => ⟨hVar, hn, .inl hvs⟩

theorem yields_ifStatement :
    ifStatement.Yields (Form.statement .done) ⟨.keyword .if_ :: ks, text?⟩ [] := by
  refine yields_take fun t ht => yields_condition fun l e r hl he hr =>
    yields_statement fun s hs => yields_look fun w _ => ?_
  split
  next hElse =>
    refine yields_take fun u hu => yields_statement fun s' hs' => yields_close rfl ?_
    simp [ht, hl, he, hr, hs, hu, hElse, hs']
  next =>
    refine yields_close rfl ?_
    simp [ht, hl, he, hr, hs]

theorem yields_whileStatement :
    whileStatement.Yields (Form.statement .done) ⟨.keyword .while_ :: ks, text?⟩ [] := by
  refine yields_take fun t ht => yields_condition fun l e r hl he hr =>
    yields_statement fun s hs => yields_close rfl ?_
  simp [ht, hl, he, hr, hs]

theorem yields_doWhileStatement :
    doWhileStatement.Yields (Form.statement .done) ⟨.keyword .do_ :: ks, text?⟩ [] := by
  refine yields_take fun t ht => yields_statement fun s hs => yields_expect fun u hu =>
    yields_condition fun l e r hl he hr => yields_terminated rfl fun us hus => ?_
  simp [ht, hs, hu, hl, he, hr, hus]

/-- The target of a loop over a collection. -/
theorem yields_loopTarget
    (h : ∀ e : Tree, e.Fits (·.isExpression) → next.Yields Q {} (ps ++ [e]))
    (hVar : ∀ t e : Tree, t.Fits (·.isTokenThat (·.kind == .keyword .var)) →
      e.Fits (·.isExpression) → next.Yields Q {} (ps ++ [t] ++ [e])) :
    (loopTarget next).Yields Q v ps := by
  refine yields_look fun w _ => ?_
  split
  next hHere =>
    refine yields_take fun t ht => yields_one rfl rfl fun e he => hVar _ e ?_ he
    simp [ht, hHere]
  next => exact yields_one rfl rfl h

/-- A loop over a collection, behind its opening parenthesis. -/
theorem yields_forIn {t : Token} {l : Tree} (ht : t.kind = .keyword .for_)
    (hl : l.Fits (·.isTokenThat (·.kind == .symbol .lParen))) :
    forIn.Yields (Form.statement .done) v [.token t, l] := by
  refine yields_loopTarget (fun e he => ?_) (fun u e hu he => ?_)
  · refine yields_expect fun i hi => yields_expression fun c hc => yields_expect fun r hr =>
      yields_statement fun s hs => yields_close rfl ?_
    simp [ht, hl, he, hi, hc, hr, hs]
  · refine yields_expect fun i hi => yields_expression fun c hc => yields_expect fun r hr =>
      yields_statement fun s hs => yields_close rfl ?_
    simp [ht, hl, hu, he, hi, hc, hr, hs]

/-- A clause of expressions is a clause of any sort that expressions belong to. -/
theorem yields_loopClause {stop : Symbol} {p : Tree → Bool}
    (hp : ∀ e : Tree, e.isExpression = true → p e = true)
    (h : ∀ v us, (∀ {next : Form} {vs}, next vs → Form.clause p stop next (us ++ vs)) →
      next.Yields Q v (ps ++ us)) :
    (loopClause (.symbol stop) next).Yields Q v ps := by
  refine yields_look fun w _ => ?_
  split
  next hHere =>
    refine yields_take fun t ht => h _ [.token t] fun hvs => .inl ⟨?_, hvs⟩
    simp [ht, hHere]
  next =>
    refine yields_expression fun e he => yields_expect fun t ht => ?_
    rw [List.append_assoc]
    exact h _ [e, t] fun hvs => .inr ⟨Or.imp id (hp e) he, ht, hvs⟩

/-- A counting loop behind its first clause. -/
theorem yields_loopRest (h : ∀ us, Form.clause (·.isExpression) .semicolon
      (Form.clause (·.isExpression) .rParen <| Form.statement .done) us →
      Rule.forStatement.form (ps ++ us)) :
    loopRest.Yields (Form.statement .done) v ps := by
  refine yields_loopClause (fun _ he => he) fun v us hus =>
    yields_loopClause (fun _ he => he) fun v' vs hvs =>
      yields_statement fun s hs => yields_close rfl ?_
  simpa using h (us ++ (vs ++ [s])) (hus (hvs ⟨hs, rfl⟩))

theorem yields_forClauses {t : Token} {l : Tree} (ht : t.kind = .keyword .for_)
    (hl : l.Fits (·.isTokenThat (·.kind == .symbol .lParen))) :
    forClauses.Yields (Form.statement .done) v [.token t, l] := by
  have hFor : (token t).Fits (·.isTokenThat (·.kind == .keyword .for_)) := by simp [ht]
  refine yields_look fun w _ => ?_
  split
  next hHere =>
    rw [hHere]
    refine yields_node <| yields_declaration fun v cs hcs =>
      ⟨by simpa using hcs [] ending_nil, yields_expect fun u hu => ?_⟩
    exact yields_loopRest fun us hus => ⟨hFor, hl, .inr ⟨by simp, hu, hus⟩⟩
  next =>
    exact yields_loopClause (by simp +contextual) fun v us hus => yields_loopRest fun vs hvs =>
      ⟨hFor, hl, hus hvs⟩

theorem yields_forStatement :
    forStatement.Yields (Form.statement .done) ⟨.keyword .for_ :: ks, text?⟩ [] := by
  refine yields_take fun t ht => yields_expect fun l hl => yields_look fun w _ => ?_
  have hIn : ∀ v, forIn.Yields (Form.statement .done) v [.token t, l] :=
    fun _ => yields_forIn ht hl
  have hClauses : ∀ v, forClauses.Yields (Form.statement .done) v [.token t, l] :=
    fun _ => yields_forClauses ht hl
  refine yields_ite (hClauses _) (yields_ite (hIn _) (yields_ite ?_ (hClauses _)))
  exact ⟨hIn _, hClauses _⟩

/-- The statements of a clause. -/
theorem yields_clauseBody
    (h : ∀ us : List Tree, (∀ u ∈ us, u.Fits (·.isStatement)) → Q (ps ++ us)) :
    clauseBody.Yields Q v ps :=
  yields_many rfl rfl h

theorem yields_switchClauses : Goal.Yields .switchClauses := by
  refine Goal.yields_of_adds rfl fun ps => yields_look fun w _ => ?_
  split
  · exact Form.after_self (Form.many_done nofun)
  split
  next hCase =>
    refine yields_node <| yields_take fun t ht => yields_expression fun e he =>
      yields_expect fun u hu => yields_clauseBody fun us hus => ⟨?_, ?_⟩
    · exact ⟨by simp [ht, hCase], he, hu, Form.many_done hus⟩
    · exact yields_again rfl rfl rfl (by simp)
  split
  next hDefault =>
    refine yields_node <| yields_take fun t ht => yields_expect fun u hu =>
      yields_clauseBody fun us hus => ⟨?_, ?_⟩
    · exact ⟨by simp [ht, hDefault], hu, Form.many_done hus⟩
    · exact yields_again rfl rfl rfl (by simp)
  next =>
    exact fun t ht => yields_again rfl rfl rfl (by simpa using fits_of_hasErrors ht)

theorem yields_switchStatement :
    switchStatement.Yields (Form.statement .done) ⟨.keyword .switch :: ks, text?⟩ [] := by
  refine yields_take fun t ht => yields_condition fun l e r hl he hr => yields_expect fun b hb =>
    yields_many rfl rfl fun us hus => yields_expect fun c hc => yields_close rfl ?_
  exact ⟨by simp [ht], hl, he, hr, hb, Form.many_append hus ⟨hc, rfl⟩⟩

theorem yields_catchBody (h : ∀ us, (Form.mark .rParen <| Form.node .block .done) us → Q (ps ++ us)) :
    catchBody.Yields Q v ps := by
  refine yields_expect fun r hr => yields_block fun b hb => ?_
  simpa [Production.Yields] using h [r, b] ⟨hr, hb, rfl⟩

theorem yields_catchClauses : Goal.Yields .catchClauses := by
  have hAgain : ∀ (ps cs : List Tree), (again .catchClauses).Yields (Goal.catchClauses.form.After ps)
      {} (ps ++ [.node .catchClause cs]) := fun ps cs => yields_again rfl rfl rfl (by simp)
  refine Goal.yields_of_adds rfl fun ps => yields_look fun w _ => ?_
  split
  next hCatch =>
    refine yields_node <| yields_take fun t ht => yields_expect fun l hl =>
      yields_look fun w _ => ?_
    have hKeyword : (token t).Fits (·.isTokenThat (·.kind == .keyword .catch_)) := by
      simp [ht, hCatch]
    split
    · refine yields_node <| yields_take fun u _ => ⟨Form.many_done (by simp), ?_⟩
      refine yields_word fun n hn => yields_catchBody fun us hus => ⟨?_, hAgain ps _⟩
      exact ⟨hKeyword, hl, .inr ⟨by simp, hn, hus⟩⟩
    · refine yields_parse_typedName rfl rfl fun us hus => yields_catchBody fun vs hvs =>
        ⟨?_, hAgain ps _⟩
      simpa using ⟨hKeyword, hl, Form.typedName_append hus hvs⟩
  next => exact Form.after_self (Form.many_done nofun)

theorem yields_tryStatement :
    tryStatement.Yields (Form.statement .done) ⟨.keyword .try_ :: ks, text?⟩ [] := by
  refine yields_take fun t ht => yields_block fun b hb => yields_many rfl rfl fun us hus =>
    yields_look fun w _ => ?_
  have hTry : (token t).Fits (·.isTokenThat (·.kind == .keyword .try_)) := by simp [ht]
  split
  next hFinally =>
    refine yields_node <| yields_take fun u hu => yields_block fun c hc =>
      ⟨⟨by simp [hu, hFinally], hc, rfl⟩, yields_close rfl ?_⟩
    simpa using ⟨hTry, hb, Form.many_append hus (.inr ⟨by simp, rfl⟩)⟩
  next =>
    refine yields_close rfl ⟨hTry, hb, us, [], ?_, hus, .inl rfl⟩
    rw [List.append_nil]
    rfl

/-! ## Declarations -/

theorem yields_importStatement :
    importStatement.Yields (Form.statement .done) ⟨.keyword .import_ :: ks, text?⟩ [] := by
  refine yields_take fun t ht => yields_look fun w _ => ?_
  have hImport : (token t).Fits (·.isTokenThat (·.kind == .keyword .import_)) := by simp [ht]
  split
  next hHere =>
    refine yields_take fun u hu => yields_terminated rfl fun us hus => ⟨hImport, ?_, hus⟩
    simp [hu, hHere]
  next =>
    refine yields_node ⟨Goal.begins_nil rfl, fun qs hqs => yields_look fun w _ => ?_⟩
    have hStatement : ∀ v cs, (terminated .importStatement).Yields (Form.statement .done) v
        [.token t, .node .typeName cs] :=
      fun v cs => yields_terminated rfl fun us hus => ⟨hImport, by simp, hus⟩
    split
    · refine yields_take fun d _ => yields_take fun s _ => ⟨?_, hStatement _ _⟩
      obtain ⟨us, vs, rfl, hus, rfl⟩ := typeName_form hqs
      refine Form.many_done ?_
      simpa [or_imp, forall_and, fits_token] using hus
    · exact ⟨typeName_form hqs, hStatement _ _⟩

theorem yields_componentDeclaration (hRule : rule.isStatement = true)
    (hForm : ∀ t us, t.kind = k → (Form.attributes <| Form.node .block .done) us →
      rule.form (.token t :: us)) :
    (componentDeclaration rule).Yields (Form.statement .done) ⟨k :: ks, text?⟩ [] := by
  refine yields_take fun t ht => yields_many rfl rfl fun us hus => yields_block fun b hb =>
    yields_close hRule ?_
  simpa using hForm t (us ++ [b]) ht (Form.many_append hus ⟨hb, rfl⟩)

theorem yields_tagStatement {text : String} (hText : tagWords.contains text = true) :
    tagStatement.Yields (Form.statement .done) ⟨.identifier :: ks, some text⟩ [] := by
  intro t ht
  have hTag : (token t).Fits (·.isTokenThat fun t => t.kind == .identifier &&
      tagWords.contains (Text.fold t.lexeme)) := by
    have hKind : t.kind = .identifier := ht.1 _ rfl
    have hFold : Text.fold t.lexeme = text := ht.2 _ rfl
    exact fits_of (by simpa [hKind, hFold] using hText)
  refine yields_many rfl rfl fun us hus => yields_look fun w _ => ?_
  split
  · refine yields_block fun b hb => yields_close rfl ⟨hTag, ?_⟩
    exact Form.many_append hus (.inl ⟨hb, rfl⟩)
  · exact yields_terminated rfl fun vs hvs => ⟨hTag, Form.many_append hus (.inr hvs)⟩

theorem yields_propertyStatement :
    propertyStatement.Yields (Form.statement .done) ⟨.keyword .property :: ks, text?⟩ [] := by
  refine yields_take fun t ht => yields_look fun w _ => ?_
  have hProperty : (token t).Fits (·.isTokenThat (·.kind == .keyword .property)) := by simp [ht]
  split
  · exact yields_many rfl rfl fun us hus => yields_terminated rfl fun vs hvs =>
      ⟨hProperty, Form.many_append hus hvs⟩
  · refine yields_parse_typedName rfl rfl fun us hus => yields_many rfl rfl fun as has =>
      yields_terminated rfl fun vs hvs => ?_
    have hRest := Form.typedName_append hus (Form.many_append has hvs)
    simp only [List.append_assoc, List.nil_append]
    exact ⟨hProperty, hRest⟩

theorem yields_modifierWords : Goal.Yields .modifiers := by
  refine Goal.yields_of_adds rfl fun ps => yields_look fun w _ => ?_
  split
  next hHere =>
    refine yields_spell fun text => yields_ite (yields_take fun t ht => ?_) ?_
    · exact yields_again rfl rfl rfl (by simp [ht, hHere])
    · exact Form.after_self (Form.many_done nofun)
  next => exact Form.after_self (Form.many_done nofun)

/-- A function from its name on. -/
theorem yields_signature (h : ∀ us, Form.signature us → Rule.functionDeclaration.form (ps ++ us)) :
    signature.Yields (Form.statement .done) v ps := by
  refine yields_expect fun t ht => yields_word fun n hn => yields_parameterList fun p hp =>
    yields_many rfl rfl fun as has => yields_look fun w _ => ?_
  have hSignature : ∀ us, Form.either (Form.node .block .done) Form.ending us →
      Rule.functionDeclaration.form (ps ++ [t] ++ [n] ++ [p] ++ as ++ us) := by
    intro us hus
    simpa using h (t :: n :: p :: (as ++ us)) ⟨ht, hn, hp, Form.many_append has hus⟩
  split
  · exact yields_block fun b hb => yields_close rfl (hSignature _ (.inl ⟨hb, rfl⟩))
  · exact yields_ended rfl (fun us hus => hSignature us (.inr hus))
      fun v => yields_unended rfl fun us hus => hSignature us (.inr hus)

theorem yields_functionDeclaration :
    functionDeclaration.Yields (Form.statement .done) v [] := by
  refine yields_many rfl rfl fun ms hms => yields_look fun w _ => yields_ite ?_ ?_
  · exact yields_signature fun us hus => Form.many_append hms (.inl hus)
  · refine yields_node <| yields_node <| yields_word fun t ht => ⟨.inl rfl, ?_⟩
    rintro qs ⟨us, rfl, hus⟩
    refine ⟨typeName_form ⟨ht, hus⟩, ⟨by simp, rfl⟩, yields_signature fun vs hvs => ?_⟩
    simpa using Form.many_append hms (.inr ⟨by simp, hvs⟩)

/-! ## The statement -/

theorem yields_headedStatement {w : Window} :
    (headedStatement w).Yields (Form.statement .done) v [] :=
  yields_ite yields_functionDeclaration <|
    yields_ite ⟨yields_functionDeclaration, yields_expressionStatement⟩ <|
      yields_ite ⟨yields_functionDeclaration, yields_expressionStatement⟩
        yields_expressionStatement

theorem yields_identifierStatement {text : String} {w : Window} :
    (identifierStatement text w).Yields (Form.statement .done)
      ⟨[.identifier, w.next, w.second], some text⟩ [] := by
  unfold identifierStatement
  split
  next hTag => exact yields_tagStatement hTag.1
  refine yields_ite ?_ ?_
  · exact yields_valueStatement rfl fun t us ht hus => ⟨by simp [ht], hus⟩
  split
  next hInclude =>
    rw [hInclude.2]
    exact yields_includeStatement
  next => exact yields_headedStatement

theorem yields_oneStatement : Goal.Yields .statement := by
  refine Goal.yields_of_nil rfl rfl (yields_look fun w _ => ?_)
  split
  · exact yields_block fun b hb => ⟨hb.isStatement rfl, rfl⟩
  next h => exact yields_take fun t ht => yields_close rfl (by simp [ht, h])
  next h =>
    rw [h]
    exact yields_declaration fun v us hus => yields_terminated rfl hus
  next h =>
    rw [h]
    exact yields_ifStatement
  next h =>
    rw [h]
    exact yields_whileStatement
  next h =>
    rw [h]
    exact yields_doWhileStatement
  next h =>
    rw [h]
    exact yields_forStatement
  next h =>
    rw [h]
    exact yields_switchStatement
  next h =>
    rw [h]
    exact yields_tryStatement
  next h => exact yields_valueStatement rfl fun t us ht hus => ⟨by simp [ht, h], hus⟩
  next h => exact yields_valueStatement rfl fun t us ht hus => ⟨by simp [ht, h], hus⟩
  next h => exact yields_wordStatement rfl fun t us ht hus => ⟨by simp [ht, h], hus⟩
  next h => exact yields_wordStatement rfl fun t us ht hus => ⟨by simp [ht, h], hus⟩
  next h =>
    rw [h]
    exact yields_importStatement
  next h =>
    exact yields_ite yields_functionDeclaration <|
      yields_componentDeclaration rfl fun t us ht hus => ⟨by simp [ht, h], hus⟩
  next h =>
    exact yields_ite yields_functionDeclaration <|
      yields_componentDeclaration rfl fun t us ht hus => ⟨by simp [ht, h], hus⟩
  next h =>
    rw [h]
    exact yields_propertyStatement
  · exact yields_ite yields_functionDeclaration yields_expressionStatement
  next h =>
    rw [h]
    exact yields_spell fun text => yields_identifierStatement
  · exact yields_expressionStatement

/-! ## Expressions -/

theorem yields_standalone : Goal.Yields .standalone := by
  refine Goal.yields_of_nil rfl rfl (yields_expression fun e he => yields_look fun w _ => ?_)
  split
  next hEnd =>
    exact yields_take fun t ht => ⟨he, Form.many_of ⟨by simp [ht, hEnd], rfl⟩⟩
  next =>
    refine fun t ht => ⟨.inl rfl, ?_⟩
    rintro qs ⟨us, rfl, vs, ts, rfl, hvs, hts⟩
    exact ⟨he, t :: vs, ts, by simp, by simpa using ⟨fits_of_hasErrors ht, hvs⟩, hts⟩

theorem yields_oneExpression : Goal.Yields .expression := by
  refine Goal.yields_of_nil rfl rfl (yields_ternary fun e he => yields_look fun w _ => ?_)
  split
  next hAssign =>
    refine yields_take fun t ht => yields_expression fun e' he' =>
      yields_operation rfl ?_ fun _ h => yields_done h
    simp [he, ht, hAssign, he']
  next => exact yields_done he

theorem yields_oneTernary : Goal.Yields .ternary := by
  refine Goal.yields_of_nil rfl rfl (yields_one rfl rfl fun e he => yields_look fun w _ => ?_)
  split
  next hQuestion =>
    refine yields_take fun t ht => yields_ternary fun a ha => yields_expect fun c hc =>
      yields_ternary fun b hb => yields_operation rfl ?_ fun _ h => yields_done h
    simp [he, ht, hQuestion, ha, hc, hb]
  split
  next hElvis =>
    refine yields_take fun t ht => yields_ternary fun b hb =>
      yields_operation rfl ?_ fun _ h => yields_done h
    simp [he, ht, hElvis, hb]
  next => exact yields_done he

/-- A goal that goes on with the expression that is there. -/
theorem yields_goesOn {goal : Goal} {e : Tree} (hOn : goal.goesOn = true)
    (hForm : goal.form = Form.expression .done) (he : e.Fits (·.isExpression)) :
    (again goal).Yields (Form.expression .done) v [e] := by
  refine ⟨?_, fun qs hqs => ?_⟩
  · rw [Goal.Begins, if_pos hOn]
    exact ⟨he, rfl⟩
  · rwa [Goal.Gives, if_pos hOn, hForm] at hqs

/-- A goal in whose place another one begins. -/
theorem yields_instead {goal : Goal} (hOn : goal.goesOn = false)
    (hForm : goal.form = Form.expression .done) :
    (again goal).Yields (Form.expression .done) v [] := by
  refine ⟨Goal.begins_nil hOn, fun qs hqs => ?_⟩
  have := Goal.form_of_gives hqs
  rwa [hForm] at this

theorem yields_binary (level : Nat) : Goal.Yields (.binary level) := by
  refine Goal.yields_of_nil rfl rfl (yields_look fun w _ => ?_)
  split
  next hNot =>
    refine yields_take fun t ht => yields_one rfl rfl fun e he =>
      yields_operation rfl ?_ fun _ h => yields_done h
    simp [ht, hNot.2, he, unaryOperators]
  split
  · exact yields_one rfl rfl fun e he => yields_goesOn rfl rfl he
  · exact yields_instead rfl rfl

/-- Every operator of a level stands for an operation by itself, but for the words that begin with
`DOES`. -/
theorem isOperator_of_mem_levels {level : Nat} (h : (binaryLevels.getD level []).contains k) :
    k = .keyword .does ∨ (BinaryOp.ofKinds? [k]).isSome = true := by
  have hAll : ∀ ks ∈ binaryLevels, ∀ k ∈ ks,
      k = .keyword .does ∨ (BinaryOp.ofKinds? [k]).isSome = true := by decide
  obtain ⟨ks, hks, hk⟩ := exists_mem_binaryLevels h
  exact hAll ks hks k hk

theorem yields_operator {e : Tree}
    (hKind : k = .keyword .does ∨ (BinaryOp.ofKinds? [k]).isSome = true)
    (h : ∀ v us, (∀ {next : Form} {vs}, next vs → Form.operator next (us ++ vs)) →
      next.Yields Q v ([e] ++ us)) :
    (operator next).Yields Q ⟨k :: ks, text?⟩ [e] := by
  refine yields_look fun w hw => ?_
  have hHere : w.here = k := eq_here hw
  split
  next hIs =>
    refine yields_take fun t ht => yields_look fun w' _ => ?_
    split
    next hNot =>
      refine yields_take fun u hu => h _ [.token t, .token u] fun hvs => .inr (.inl ?_)
      exact ⟨by simp [ht, hIs], by simp [hu, hNot], hvs⟩
    next =>
      refine h _ [.token t] fun hvs => .inl ⟨?_, hvs⟩
      simp [ht, hIs, BinaryOp.ofKinds?]
  split
  next hDoes =>
    refine yields_take fun t ht => yields_expect fun u hu => yields_expect fun c hc => ?_
    refine h _ [.token t, u, c] fun hvs => .inr (.inr ⟨?_, hu, hc, hvs⟩)
    simp [ht, hDoes]
  next hDoes =>
    refine yields_take fun t ht => h _ [.token t] fun hvs => .inl ⟨fits_of ?_, hvs⟩
    rw [isTokenThat_token, ht, hHere]
    exact hKind.resolve_left fun hKind => hDoes (hHere.trans hKind)

theorem yields_binaryTail (level : Nat) : Goal.Yields (.binaryTail level) := by
  refine Goal.yields_of_goesOn rfl fun e he => yields_look fun w _ => ?_
  split
  next hOperator =>
    refine yields_operator (isOperator_of_mem_levels hOperator) fun v us hus =>
      yields_one rfl rfl fun e' he' => yields_operation rfl ?_ fun e he => yields_goesOn rfl rfl he
    exact ⟨he, hus ⟨he', rfl⟩⟩
  next => exact yields_done he

theorem yields_unary : Goal.Yields .unary := by
  refine Goal.yields_of_nil rfl rfl (yields_look fun w _ => ?_)
  split
  next hOperator =>
    refine yields_take fun t ht => yields_one rfl rfl fun e he =>
      yields_operation rfl ?_ fun _ h => yields_done h
    exact ⟨fits_of (by rw [isTokenThat_token, ht]; exact hOperator), he, rfl⟩
  next => exact yields_instead rfl rfl

/-! ## Operands -/

/-- What an operand does with the expression that it is. -/
theorem yields_operandToken (h : ∀ e : Tree, e.Fits (·.isExpression) → next.Yields Q ⟨ks, none⟩ [e])
    (hKind : operandKinds.contains k = true) : (take next).Yields Q ⟨k :: ks, text?⟩ [] :=
  yields_take fun t ht => h _ (fits_of (by rw [isExpression_token, ht]; exact hKind))

theorem yields_arrowBody {a t : Tree}
    (ha : a.Fits fun t => t.isTokenThat (·.kind == .identifier) || t.isNode .parameterList)
    (ht : t.Fits (·.isTokenThat fun _ => true))
    (h : ∀ v e, e.Fits (·.isExpression) → next.Yields Q v [e]) :
    (arrowBody next).Yields Q v [a, t] := by
  have hBody : ∀ v (b : Tree), b.Fits (fun t => t.isNode .block || t.isExpression) →
      (close .arrowFunction next).Yields Q v [a, t, b] :=
    fun v b hb => yields_operation rfl ⟨ha, ht, hb, rfl⟩ (h v)
  refine yields_look fun w _ => ?_
  split
  · exact yields_block fun b hb => hBody _ b (Or.imp id (by simp +contextual) hb)
  · exact yields_expression fun e he => hBody _ e (Or.imp id (by simp +contextual) he)

theorem yields_arrowFunction (h : ∀ v e, Tree.Fits e (·.isExpression) → next.Yields Q v [e]) :
    (arrowFunction next).Yields Q v [] := by
  refine yields_parameterList fun a ha => fun t _ => yields_arrowBody ?_ (fits_token t) h
  exact Or.imp id (by simp +contextual) ha

theorem yields_parenthesized (h : ∀ v e, Tree.Fits e (·.isExpression) → next.Yields Q v [e]) :
    (parenthesized next).Yields Q ⟨.symbol .lParen :: ks, text?⟩ [] := by
  refine yields_take fun l hl => yields_expression fun e he => yields_expect fun r hr =>
    yields_operation rfl ?_ (h _)
  simp [hl, he, hr]

theorem yields_parenOrArrow {w : Window}
    (h : ∀ v e, Tree.Fits e (·.isExpression) → next.Yields Q v [e]) :
    (parenOrArrow w next).Yields Q ⟨.symbol .lParen :: ks, text?⟩ [] := by
  refine yields_ite (yields_ite (yields_arrowFunction h) (yields_parenthesized h)) ?_
  refine yields_ite ⟨yields_arrowFunction h, yields_parenthesized h⟩ (yields_parenthesized h)

theorem yields_arrayLiteral (h : ∀ v e, Tree.Fits e (·.isExpression) → next.Yields Q v [e]) :
    (arrayLiteral next).Yields Q ⟨.symbol .lBracket :: ks, text?⟩ [] := by
  refine yields_take fun l hl => yields_look fun w _ => ?_
  have hOpen : (token l).Fits (·.isTokenThat (·.kind == .symbol .lBracket)) := by simp [hl]
  split
  next hHere =>
    refine yields_take fun r hr => yields_operation rfl ⟨hOpen, Form.many_of ⟨?_, rfl⟩⟩ (h _)
    simp [hr, hHere]
  next =>
    exact yields_many rfl rfl fun us hus => yields_expect fun r hr =>
      yields_operation rfl ⟨hOpen, Form.many_append hus ⟨hr, rfl⟩⟩ (h _)

theorem yields_structLiteral (h : ∀ v e, Tree.Fits e (·.isExpression) → next.Yields Q v [e]) :
    (structLiteral next).Yields Q ⟨.symbol .lBrace :: ks, text?⟩ [] := by
  refine yields_take fun l hl => yields_look fun w _ => ?_
  have hOpen : (token l).Fits (·.isTokenThat (·.kind == .symbol .lBrace)) := by simp [hl]
  split
  next hHere =>
    refine yields_take fun r hr => yields_operation rfl ⟨hOpen, Form.many_of ⟨?_, rfl⟩⟩ (h _)
    simp [hr, hHere]
  next =>
    exact yields_many rfl rfl fun us hus => yields_expect fun r hr =>
      yields_operation rfl ⟨hOpen, Form.many_append hus ⟨hr, rfl⟩⟩ (h _)

theorem yields_newArguments {n c : Tree} (hn : n.Fits (·.isTokenThat (·.kind == .keyword .new)))
    (hc : c.Fits fun t => t.isTokenThat (·.kind == .string) || t.isNode .typeName)
    (h : ∀ v e, Tree.Fits e (·.isExpression) → next.Yields Q v [e]) :
    (newArguments next).Yields Q v [n, c] := by
  refine yields_look fun w _ => ?_
  split
  next hHere =>
    rw [hHere]
    exact yields_argumentList fun a ha =>
      yields_operation rfl ⟨hn, hc, .inr ⟨ha, rfl⟩⟩ (h _)
  next => exact yields_operation rfl ⟨hn, hc, .inl rfl⟩ (h _)

theorem yields_newExpression (h : ∀ v e, Tree.Fits e (·.isExpression) → next.Yields Q v [e]) :
    (newExpression next).Yields Q ⟨.keyword .new :: ks, text?⟩ [] := by
  refine yields_take fun n hn => yields_look fun w _ => ?_
  have hNew : (token n).Fits (·.isTokenThat (·.kind == .keyword .new)) := by simp [hn]
  split
  next hHere => exact yields_take fun c hc => yields_newArguments hNew (by simp [hc, hHere]) h
  next =>
    refine yields_node ⟨Goal.begins_nil rfl, fun qs hqs => ⟨typeName_form hqs, ?_⟩⟩
    exact yields_newArguments hNew (by simp) h

theorem yields_functionExpression
    (h : ∀ v e, Tree.Fits e (·.isExpression) → next.Yields Q v [e]) :
    (functionExpression next).Yields Q ⟨.keyword .function :: ks, text?⟩ [] := by
  refine yields_take fun f hf => yields_parameterList fun p hp => yields_block fun b hb =>
    yields_operation rfl ?_ (h _)
  simp [hf, hp, hb]

theorem yields_operand (h : ∀ v e, Tree.Fits e (·.isExpression) → next.Yields Q v [e]) :
    (operand next).Yields Q v [] := by
  refine yields_look fun w _ => ?_
  split
  next hHere => exact yields_operandToken (h _) (by rw [hHere]; rfl)
  next hHere => exact yields_operandToken (h _) (by rw [hHere]; rfl)
  next hHere => exact yields_operandToken (h _) (by rw [hHere]; rfl)
  next hHere => exact yields_operandToken (h _) (by rw [hHere]; rfl)
  next hHere => exact yields_operandToken (h _) (by rw [hHere]; rfl)
  next hHere => exact yields_operandToken (h _) (by rw [hHere]; rfl)
  next hHere =>
    refine yields_ite ?_ (yields_operandToken (h _) (by rw [hHere]; rfl))
    exact yields_take fun t ht => yields_take fun a _ =>
      yields_arrowBody (by simp [ht, hHere]) (fits_token a) h
  next hHere =>
    rw [hHere]
    exact yields_parenOrArrow h
  next hHere =>
    rw [hHere]
    exact yields_arrayLiteral h
  next hHere =>
    rw [hHere]
    exact yields_structLiteral h
  next hHere =>
    rw [hHere]
    exact yields_newExpression h
  next hHere =>
    rw [hHere]
    exact yields_functionExpression h
  · exact fun t ht => h _ t (fits_of_hasErrors ht)
  · exact yields_ite (fun t ht => h _ t (fits_of_hasErrors ht))
      fun t ht => h _ t (fits_of_hasErrors ht)

theorem yields_applied : Goal.Yields .applied :=
  Goal.yields_of_nil rfl rfl (yields_operand fun _ _ he => yields_goesOn rfl rfl he)

theorem yields_appliedTail : Goal.Yields .appliedTail := by
  refine Goal.yields_of_goesOn rfl fun e he => yields_look fun w _ => ?_
  have hAgain : ∀ v e, Tree.Fits e (·.isExpression) →
      (again .appliedTail).Yields (Form.expression .done) v [e] :=
    fun v e he => yields_goesOn rfl rfl he
  split
  next hHere =>
    rw [hHere]
    exact yields_argumentList fun a ha => yields_operation rfl ⟨he, ha, rfl⟩ (hAgain _)
  next hHere =>
    refine yields_take fun t ht => yields_word fun n hn => yields_operation rfl ?_ (hAgain _)
    simp [he, ht, hHere, hn]
  next hHere =>
    refine yields_take fun t ht => yields_word fun n hn => yields_operation rfl ?_ (hAgain _)
    simp [he, ht, hHere, hn]
  next hHere =>
    refine yields_take fun t ht => yields_expression fun i hi => yields_expect fun r hr =>
      yields_operation rfl ?_ (hAgain _)
    simp [he, ht, hHere, hi, hr]
  next hHere =>
    refine yields_take fun t ht => yields_operation rfl ?_ (hAgain _)
    simp [he, ht, hHere, PostfixOp.ofKind?]
  next hHere =>
    refine yields_take fun t ht => yields_operation rfl ?_ (hAgain _)
    simp [he, ht, hHere, PostfixOp.ofKind?]
  · exact yields_done he

end Grammar

/-- Every goal passes the check. -/
theorem Goal.yields (goal : Goal) : goal.Yields := by
  cases goal with
  | script => exact Grammar.yields_script
  | standalone => exact Grammar.yields_standalone
  | leftovers => exact Grammar.yields_leftovers
  | statements stop => exact Grammar.yields_statements stop
  | statement => exact Grammar.yields_oneStatement
  | switchClauses => exact Grammar.yields_switchClauses
  | catchClauses => exact Grammar.yields_catchClauses
  | modifiers => exact Grammar.yields_modifierWords
  | dottedName => exact Grammar.yields_dottedName
  | dottedTail => exact Grammar.yields_dottedTail
  | typedName => exact Grammar.yields_typedName
  | propertyName => exact Grammar.yields_propertyName
  | attributes => exact Grammar.yields_attributes
  | parameters => exact Grammar.yields_parameters
  | expression => exact Grammar.yields_oneExpression
  | ternary => exact Grammar.yields_oneTernary
  | binary level => exact Grammar.yields_binary level
  | binaryTail level => exact Grammar.yields_binaryTail level
  | unary => exact Grammar.yields_unary
  | applied => exact Grammar.yields_applied
  | appliedTail => exact Grammar.yields_appliedTail
  | arguments => exact Grammar.yields_arguments
  | elements => exact Grammar.yields_elements
  | structEntries => exact Grammar.yields_structEntries

/-- What a goal makes is well-formed and of its form, however many steps it takes. -/
theorem run_makes (steps : Nat) : Makes (run steps) := run_yields Goal.yields steps

end CfScript
