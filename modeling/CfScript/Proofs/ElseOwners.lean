import CfScript.Proofs.ControlText
import CfScript.Proofs.ReadsStatements
import CfScript.Proofs.RestatedStatements
import CfScript.Proofs.Roundtrip

/-!
# Every `else` keeps its owner

The text of a statement of control flow is read back as a statement that says the same. Each form is
read as a tree that restates it, and the tree takes an `else` behind it only if the form is open. So a
`then` branch in front of an `else` takes it in neither case: a branch that is not open leaves it, and
an open one stands in braces, which leave it too.

## Main results

* `recovers_ifElse`, `recovers_for`, ...: one lemma for each form;
* `Statement.recovers`: all of control flow is read back;
* `Statement.ofSource_scriptText`: the script of a printed statement has no findings, and holds the same
  statement, apart from braces around `then` branches and from parentheses;
* `Expression.isPlain_of_isCalculation`: conditions of names, numbers, calls and operators are plain.
-/

namespace CfScript

open Layout Token.Inner

/-! ## Parts of statements -/

section

variable {ts us : List Token.Inner} {more : List String} {e : Expression} {e? : Option Expression}
  {init? : Option Statement}

/-- A plain expression in a place of its own. -/
theorem Expression.recovers_complete (h : e.isPlain = true) (hts : Spelled ts (lexemes false e)) :
    ∃ T, (Complete .expression Strength.assignment ts T ∧
      ∃ t us, ts = t :: us ∧ t.1.kind ∉ Grammar.nonStarters) ∧ T.Restates e := by
  obtain ⟨T, hHolds, hRestates⟩ := e.recovers h false ts hts
  exact ⟨T, ⟨hHolds.expression rfl, hHolds.starts.head⟩, hRestates⟩

/-- A condition in parentheses, and what is behind it. -/
theorem Spelled.condition (hts : Spelled ts (parenLexemes e ++ more)) (h : e.isPlain = true) :
    ∃ o us c vs T, ts = o :: (us ++ c :: vs) ∧ o.1.kind = .symbol .lParen ∧
      c.1.kind = .symbol .rParen ∧ Complete .expression Strength.assignment us T ∧ T.Restates e ∧
        Spelled vs more := by
  obtain ⟨_, vs, rfl, hCondition, hMore⟩ := hts.append
  obtain ⟨o, us, c, rfl, ho, hus, hc⟩ := hCondition.enclosed
  obtain ⟨T, ⟨hComplete, -⟩, hRestates⟩ := Expression.recovers_complete h hus
  exact ⟨o, us, c, vs, T, by simp, ho.kind_eq (by decide), hc.kind_eq (by decide), hComplete,
    hRestates, hMore⟩

/-- A clause of a loop header. -/
theorem Spelled.clause (hts : Spelled ts (clauseLexemes e?)) (h : e?.all (·.isPlain) = true) :
    ∃ T?, ReadsClause ts T? ∧ Option.Rel Tree.Restates T? e? := by
  cases e? with
  | none =>
    cases hts
    exact ⟨none, .inl ⟨rfl, rfl⟩, .none⟩
  | some e =>
    obtain ⟨T, ⟨hComplete, t, us, rfl, ht⟩, hRestates⟩ := Expression.recovers_complete h hts
    exact ⟨some T, .inr ⟨T, t, us, rfl, rfl, ht, hComplete⟩, .some hRestates⟩

/-- What a loop starts with. -/
theorem Spelled.start (hts : Spelled ts (startLexemes init?))
    (h : init?.all (·.isPlainDeclaration) = true) :
    ∃ T?, ReadsStart ts T? ∧ Option.Rel Tree.RestatesDeclaration T? init? := by
  match init?, h with
  | none, _ =>
    cases hts
    exact ⟨none, readsStart_none, .none⟩
  | some (.declare name none _), h =>
    simp only [Option.all_some, Statement.isPlainDeclaration, Option.all_none, Bool.and_true] at h
    obtain ⟨v, us, rfl, hv, hus⟩ := hts.cons
    obtain ⟨x, rfl, hx⟩ := hus.single
    have hVar : v.1.kind = .keyword .var := hv.kind_eq (by decide)
    have hWord : x.1.kind.isWord = true := by rw [hx.kind_eq (beq_iff_eq.1 h)]; rfl
    exact ⟨_, readsStart_declare hVar hWord, .some (restatesDeclaration hVar hWord hx.2)⟩
  | some (.declare name (some value) _), h =>
    simp only [Option.all_some, Statement.isPlainDeclaration, Bool.and_eq_true] at h
    obtain ⟨v, us, rfl, hv, hus⟩ := hts.cons
    obtain ⟨x, us, rfl, hx, hus⟩ := hus.cons
    obtain ⟨m, us, rfl, hm, hus⟩ := hus.cons
    have hVar : v.1.kind = .keyword .var := hv.kind_eq (by decide)
    have hWord : x.1.kind.isWord = true := by rw [hx.kind_eq (beq_iff_eq.1 h.1)]; rfl
    have hMark : m.1.kind = .symbol .assign := hm.kind_eq (by decide)
    obtain ⟨T, ⟨hComplete, -⟩, hRestates⟩ := Expression.recovers_complete h.2 hus
    exact ⟨_, readsStart_assign hVar hWord hMark hComplete,
      .some (restatesDeclaration_value hVar hWord hx.2 hMark hRestates)⟩

/-- A word and the semicolon behind it. -/
theorem Spelled.jump {word : String} (hts : Spelled ts [word, ";"]) (keyword : Keyword)
    (h : Scan.kindOf? word = some (.keyword keyword)) :
    ∃ k d, ts = [k, d] ∧ k.1.kind = .keyword keyword ∧ d.1.kind = .symbol .semicolon := by
  obtain ⟨k, us, rfl, hk, hus⟩ := hts.cons
  obtain ⟨d, rfl, hd⟩ := hus.single
  exact ⟨k, d, rfl, hk.kind_eq h, hd.kind_eq (by decide)⟩

end

/-! ## Forms of statements -/

/-- Whether tokens that are spelled like the statement are read as a tree that restates it. -/
def Statement.Recovers (s : Statement) : Prop :=
  ∀ ts, Spelled ts s.lexemes → ∃ T, ReadsStatement (endsWithOpenIf s) ts T ∧ T.RestatesStatement s

section

variable {s t : Statement} {condition collection : Expression} {condition? update? : Option Expression}
  {init? : Option Statement} {ts : List Token.Inner} {id : Identifier} {span span' : Span}

/-- A branch without `else`, which is open. -/
theorem recovers_if (hCondition : condition.isPlain = true) (hThen : s.Recovers) :
    (Statement.branch condition s none span).Recovers := by
  intro ts hts
  obtain ⟨k, us, rfl, hk, hts⟩ := hts.cons
  obtain ⟨o, us, c, vs, T, rfl, ho, hc, hT, hRestates, hts⟩ := hts.condition hCondition
  obtain ⟨U, hReads, hU⟩ := hThen vs hts
  have hIf : k.1.kind = .keyword .if_ := hk.kind_eq (by decide)
  exact ⟨_, readsStatement_if hIf ho hc hT hReads,
    restatesStatement_if hIf ho hc hRestates hU.restatesThen⟩

/-- A `then` branch in front of an `else`, which stands in braces if it is open. Either way it does not
take the `else`. -/
theorem Statement.Recovers.before_else (h : s.Recovers)
    (hts : Spelled ts (if endsWithOpenIf s then "\x7b" :: s.lexemes ++ ["\x7d"] else s.lexemes)) :
    ∃ T, ReadsStatement false ts T ∧ T.RestatesThen s := by
  cases hOpen : endsWithOpenIf s with
  | false =>
    rw [hOpen, if_neg Bool.false_ne_true] at hts
    obtain ⟨T, hReads, hRestates⟩ := h ts hts
    exact ⟨T, hOpen ▸ hReads, hRestates.restatesThen⟩
  | true =>
    rw [hOpen, if_pos rfl] at hts
    obtain ⟨o, us, c, rfl, ho, hus, hc⟩ := hts.enclosed
    obtain ⟨T, hReads, hRestates⟩ := h us hus
    have hBlock := readsStatement_block (ho.kind_eq (by decide)) (hc.kind_eq (by decide))
      (readsStatements_cons hReads readsStatements_nil)
    rw [List.append_nil] at hBlock
    exact ⟨_, hBlock, restatesThen_braced hRestates hOpen⟩

/-- A branch with an `else`, which is open if the statement at its end is. -/
theorem recovers_ifElse (hCondition : condition.isPlain = true) (hThen : s.Recovers)
    (hElse : t.Recovers) : (Statement.branch condition s (some t) span).Recovers := by
  intro ts hts
  simp only [Statement.lexemes, List.append_assoc] at hts
  obtain ⟨k, us, rfl, hk, hts⟩ := hts.cons
  obtain ⟨o, us, c, vs, T, rfl, ho, hc, hT, hRestates, hts⟩ := hts.condition hCondition
  obtain ⟨vs, ws, rfl, hvs, hws⟩ := hts.append
  obtain ⟨U, hReads, hU⟩ := hThen.before_else hvs
  obtain ⟨e, ws, rfl, he, hws⟩ := hws.cons
  obtain ⟨V, hReads', hV⟩ := hElse ws hws
  have hIf : k.1.kind = .keyword .if_ := hk.kind_eq (by decide)
  have hWord : e.1.kind = .keyword .else_ := he.kind_eq (by decide)
  exact ⟨_, readsStatement_ifElse hIf ho hc hWord hT hReads hReads',
    restatesStatement_ifElse hIf ho hc hWord hRestates hU hV⟩

theorem recovers_while (hCondition : condition.isPlain = true) (hBody : s.Recovers) :
    (Statement.whileLoop condition s span).Recovers := by
  intro ts hts
  obtain ⟨k, us, rfl, hk, hts⟩ := hts.cons
  obtain ⟨o, us, c, vs, T, rfl, ho, hc, hT, hRestates, hts⟩ := hts.condition hCondition
  obtain ⟨U, hReads, hU⟩ := hBody vs hts
  have hWhile : k.1.kind = .keyword .while_ := hk.kind_eq (by decide)
  exact ⟨_, readsStatement_while hWhile ho hc hT hReads,
    restatesStatement_while hWhile ho hc hRestates hU⟩

/-- A `do`, which its condition ends, whatever its body is. -/
theorem recovers_do (hBody : s.Recovers) (hCondition : condition.isPlain = true) :
    (Statement.doLoop s condition span).Recovers := by
  intro ts hts
  simp only [Statement.lexemes, List.append_assoc, List.cons_append] at hts
  obtain ⟨k, us, rfl, hk, hts⟩ := hts.cons
  obtain ⟨us, vs, rfl, hus, hvs⟩ := hts.append
  obtain ⟨U, hReads, hU⟩ := hBody us hus
  obtain ⟨w, vs, rfl, hw, hvs⟩ := hvs.cons
  obtain ⟨o, vs, c, ws, T, rfl, ho, hc, hT, hRestates, hws⟩ := hvs.condition hCondition
  obtain ⟨d, rfl, hd⟩ := hws.single
  have hDo : k.1.kind = .keyword .do_ := hk.kind_eq (by decide)
  have hWhile : w.1.kind = .keyword .while_ := hw.kind_eq (by decide)
  have hEnd : d.1.kind = .symbol .semicolon := hd.kind_eq (by decide)
  exact ⟨_, readsStatement_do hDo hWhile ho hc hEnd hReads hT,
    restatesStatement_do hDo hWhile ho hc hEnd hU hRestates⟩

theorem recovers_for (hStart : init?.all (·.isPlainDeclaration) = true)
    (hTest : condition?.all (·.isPlain) = true) (hUpdate : update?.all (·.isPlain) = true)
    (hBody : s.Recovers) : (Statement.forLoop init? condition? update? s span).Recovers := by
  intro ts hts
  simp only [Statement.lexemes, List.append_assoc, List.cons_append] at hts
  obtain ⟨k, us, rfl, hk, hts⟩ := hts.cons
  obtain ⟨o, us, rfl, ho, hts⟩ := hts.cons
  obtain ⟨as, us, rfl, has, hts⟩ := hts.append
  obtain ⟨d, us, rfl, hd, hts⟩ := hts.cons
  obtain ⟨bs, us, rfl, hbs, hts⟩ := hts.append
  obtain ⟨e, us, rfl, he, hts⟩ := hts.cons
  obtain ⟨cs, us, rfl, hcs, hts⟩ := hts.append
  obtain ⟨c, us, rfl, hc, hts⟩ := hts.cons
  obtain ⟨T?, hReadsStart, hT⟩ := has.start hStart
  obtain ⟨U?, hReadsTest, hU⟩ := hbs.clause hTest
  obtain ⟨V?, hReadsUpdate, hV⟩ := hcs.clause hUpdate
  obtain ⟨W, hReads, hW⟩ := hBody us hts
  have hFirst : d.1.kind = .symbol .semicolon := hd.kind_eq (by decide)
  have hSecond : e.1.kind = .symbol .semicolon := he.kind_eq (by decide)
  have hEnd : c.1.kind = .symbol .rParen := hc.kind_eq (by decide)
  exact ⟨_, readsStatement_for (hk.kind_eq (by decide)) (ho.kind_eq (by decide)) hFirst hSecond hEnd
    hReadsStart hReadsTest hReadsUpdate hReads, restatesStatement_for hFirst hSecond hEnd hT hU hV hW⟩

theorem recovers_forIn (var : Bool) (hName : Scan.kindOf? id.name = some .identifier)
    (hCollection : collection.isPlain = true) (hBody : s.Recovers) :
    (Statement.eachLoop var (.identifier id span') collection s span).Recovers := by
  intro ts hts
  simp only [Statement.lexemes, List.append_assoc, List.cons_append, List.nil_append] at hts
  obtain ⟨k, us, rfl, hk, hts⟩ := hts.cons
  obtain ⟨o, us, rfl, ho, hts⟩ := hts.cons
  obtain ⟨as, us, rfl, has, hts⟩ := hts.append
  obtain ⟨x, us, rfl, hx, hts⟩ := hts.cons
  obtain ⟨w, us, rfl, hw, hts⟩ := hts.cons
  obtain ⟨bs, us, rfl, hbs, hts⟩ := hts.append
  obtain ⟨c, us, rfl, hc, hts⟩ := hts.cons
  obtain ⟨T, ⟨hT, -⟩, hRestates⟩ := Expression.recovers_complete hCollection hbs
  obtain ⟨U, hReads, hU⟩ := hBody us hts
  have hFor : k.1.kind = .keyword .for_ := hk.kind_eq (by decide)
  have hOpening : o.1.kind = .symbol .lParen := ho.kind_eq (by decide)
  have hTarget : x.1.kind = .identifier := hx.kind_eq hName
  have hIn : w.1.kind = .keyword .in_ := hw.kind_eq (by decide)
  have hEnd : c.1.kind = .symbol .rParen := hc.kind_eq (by decide)
  cases var with
  | true =>
    obtain ⟨v, rfl, hv⟩ := has.single
    have hVar : v.1.kind = .keyword .var := hv.kind_eq (by decide)
    exact ⟨_, readsStatement_forVarIn hFor hOpening hVar hTarget hIn hEnd hT hReads,
      restatesStatement_forVarIn hFor hOpening hVar hIn hEnd (restates_identifier hTarget hx.2)
        hRestates hU⟩
  | false =>
    cases has
    exact ⟨_, readsStatement_forIn hFor hOpening hTarget hIn hEnd hT hReads,
      restatesStatement_forIn hFor hOpening hIn hEnd (restates_identifier hTarget hx.2) hRestates hU⟩

end

mutual

/-- Tokens that are spelled like control flow are read as a tree that restates it. -/
theorem Statement.recovers : (s : Statement) → s.isControl = true → s.Recovers
  | .block body _, h => fun ts hts => by
    obtain ⟨o, us, c, rfl, ho, hus, hc⟩ := hts.enclosed
    obtain ⟨trees, hReads, hTrees⟩ := statements_recover body h us hus
    exact ⟨_, readsStatement_block (ho.kind_eq (by decide)) (hc.kind_eq (by decide)) hReads,
      restatesStatement_block hTrees⟩
  | .branch condition thenBranch none _, h => by
    simp only [Statement.isControl, Bool.and_eq_true] at h
    exact recovers_if h.1 (thenBranch.recovers h.2)
  | .branch condition thenBranch (some elseBranch) _, h => by
    simp only [Statement.isControl, Bool.and_eq_true] at h
    exact recovers_ifElse h.1.1 (thenBranch.recovers h.1.2) (elseBranch.recovers h.2)
  | .whileLoop condition body _, h => by
    simp only [Statement.isControl, Bool.and_eq_true] at h
    exact recovers_while h.1 (body.recovers h.2)
  | .doLoop body condition _, h => by
    simp only [Statement.isControl, Bool.and_eq_true] at h
    exact recovers_do (body.recovers h.1) h.2
  | .forLoop init? condition? update? body _, h => by
    simp only [Statement.isControl, Bool.and_eq_true] at h
    exact recovers_for h.1.1.1 h.1.1.2 h.1.2 (body.recovers h.2)
  | .eachLoop var (.identifier id _) collection body _, h => by
    simp only [Statement.isControl, Bool.and_eq_true] at h
    exact recovers_forIn var (beq_iff_eq.1 h.1.1) h.1.2 (body.recovers h.2)
  | .breakLoop _, _ => fun ts hts => by
    obtain ⟨k, d, rfl, hk, hd⟩ := hts.jump .break_ (by decide)
    exact ⟨_, readsStatement_jump hd (.inl ⟨hk, rfl⟩), restatesStatement_break⟩
  | .continueLoop _, _ => fun ts hts => by
    obtain ⟨k, d, rfl, hk, hd⟩ := hts.jump .continue_ (by decide)
    exact ⟨_, readsStatement_jump hd (.inr (.inl ⟨hk, rfl⟩)), restatesStatement_continue⟩
  | .returnValue none _, _ => fun ts hts => by
    obtain ⟨k, d, rfl, hk, hd⟩ := hts.jump .return_ (by decide)
    exact ⟨_, readsStatement_jump hd (.inr (.inr ⟨hk, rfl⟩)), restatesStatement_return hk hd⟩

/-- Tokens that are spelled like statements of control flow are read as trees that restate them. -/
theorem statements_recover : (ss : List Statement) → controlStatements ss = true →
    ∀ ts, Spelled ts (lexemesOfEach ss).flatten →
      ∃ trees, ReadsStatements ts trees ∧ List.Forall₂ Tree.RestatesStatement trees ss
  | [], _, ts, hts => by
    cases hts
    exact ⟨[], readsStatements_nil, .nil⟩
  | s :: ss, h, ts, hts => by
    simp only [controlStatements, Bool.and_eq_true] at h
    obtain ⟨us, vs, rfl, hus, hvs⟩ := hts.append
    obtain ⟨T, hReads, hT⟩ := s.recovers h.1 us hus
    obtain ⟨trees, hRest, hTrees⟩ := statements_recover ss h.2 vs hvs
    exact ⟨T :: trees, readsStatements_cons hReads hRest, .cons hT hTrees⟩

end

/-! ## Scripts -/

/-- Control flow is read back from its text: nothing is found wrong, and without braces around `then`
branches and without parentheses it is the same. -/
theorem Statement.ofSource_scriptText {s : Statement} (h : s.isControl = true) (style : Style)
    {options : ParseOptions} (hEntry : options.entry = .script)
    (hStrategy : options.strategy ≠ .fastOnly) (rules : AttributeRules) :
    (Script.ofSource (scriptText (some s) style) options rules).findings = .empty ∧
      ∃ s' : Statement, (Script.ofSource (scriptText (some s) style) options rules).root? = some s' ∧
        (s'.unwrapped.bare == s.unwrapped.bare) = true := by
  obtain ⟨hFindings, s', hRestates, hRoot⟩ := Script.ofSource_of_lexes (lexes_scriptText h style)
    hStrategy rules (fun s? => ∃ s' : Statement, s'.Restates s ∧ s? = some s')
    fun ts hts last hLast => by
      obtain ⟨T, hReads, hRestates⟩ := s.recovers h ts hts
      have hStatement := hReads.reads [] fun _ => nofun
      rw [List.append_nil] at hStatement
      obtain ⟨t, us, rfl, ht⟩ := hReads.head
      have hEnd : kindAt (t :: us) 0 ≠ .endOfInput := by simpa [Token.isEnd] using t.2.1
      have hBrace : kindAt (t :: us) 0 ≠ .symbol .rBrace := fun hSame =>
        ht (by rw [show t.1.kind = _ from hSame]; decide)
      rw [hEntry]
      exact ⟨[T, .token last], Production.Reads.parseGoal_script hEnd hBrace hStatement,
        returns_script hRestates last⟩
  exact ⟨hFindings, s', hRoot, hRestates.same h⟩

/-- A loop whose body is an open `if`, in front of an `else`. -/
def Statement.openLoop : Statement :=
  let name (text : String) : Expression := .ofIdentifier ⟨text, .dummy⟩
  let call : Expression := .call (name "f") [⟨none, .number "1" .dummy⟩] .dummy
  let inner : Statement := .branch (.binary .is (name "b") call .dummy) (.breakLoop .dummy) none .dummy
  let loop : Statement := .forLoop (some (.declare ⟨"i", .dummy⟩ none .dummy)) none none inner .dummy
  .branch (name "a") loop (some (.continueLoop .dummy)) .dummy

theorem Statement.ofSource_scriptText_openLoop :
    (Script.ofSource (scriptText (some openLoop) {}) {} {}).findings = .empty ∧
      ∃ s' : Statement, (Script.ofSource (scriptText (some openLoop) {}) {} {}).root? = some s' ∧
        (s'.unwrapped.bare == openLoop.unwrapped.bare) = true :=
  ofSource_scriptText (by decide) {} rfl (by decide) {}

/-! ## Calculations -/

mutual

/-- Whether the expression is made of names, numbers, binary operators and calls whose arguments have
no names. -/
def Expression.isCalculation : Expression → Bool
  | .identifier id _ => Scan.kindOf? id.name == some .identifier
  | .number text _ => Scan.kindOf? text == some .integer || Scan.kindOf? text == some .float
  | .binary _ left right _ => left.isCalculation && right.isCalculation
  | .call callee args _ => callee.isCalculation && calculatedArguments args
  | _ => false

/-- Whether the arguments have no names, and their values are calculations. -/
def calculatedArguments : List (Argument Expression) → Bool
  | [] => true
  | ⟨none, value⟩ :: args => value.isCalculation && calculatedArguments args
  | ⟨some _, _⟩ :: _ => false

end

/-- Whether steps begin, and not with the word `NOT`. -/
def Layout.Unnegated (steps : List Step) : Prop :=
  ∃ step more, steps = step :: more ∧ step ≠ .write UnaryOp.notWord.text

namespace Layout.Unnegated

variable {a b : List Step} {e : Expression}

theorem append (h : Unnegated a) : Unnegated (a ++ b) := by
  obtain ⟨step, more, rfl, hStep⟩ := h
  exact ⟨step, more ++ b, rfl, hStep⟩

theorem atLeast {tight : Bool} (h : Unnegated (expression tight e)) (least : Nat) :
    Unnegated (atLeast least tight e (expression · e)) := by
  unfold Layout.atLeast
  split
  · exact ⟨_, _, rfl, by decide⟩
  · exact h

end Layout.Unnegated

/-- No calculation is written with the word `NOT` first. -/
theorem unnegated_of_isCalculation (tight : Bool) : (e : Expression) → e.isCalculation = true →
    Unnegated (expression tight e)
  | .identifier id _, h => by
    refine ⟨.write id.name, [], rfl, fun hStep => ?_⟩
    rw [Expression.isCalculation, (Step.write.injEq _ _).mp hStep] at h
    exact absurd h (by decide)
  | .number text _, h => by
    refine ⟨.write text, [], rfl, fun hStep => ?_⟩
    rw [Expression.isCalculation, (Step.write.injEq _ _).mp hStep] at h
    exact absurd h (by decide)
  | .binary op left right _, h => by
    simp only [Expression.isCalculation, Bool.and_eq_true] at h
    exact ((unnegated_of_isCalculation tight left h.1).atLeast _).append.append
  | .call callee args _, h => by
    simp only [Expression.isCalculation, Bool.and_eq_true] at h
    exact ((unnegated_of_isCalculation false callee h.1).atLeast _).append

mutual

/-- Calculations are plain: no operand of `IS` among them is written with the word `NOT` first. -/
theorem Expression.isPlain_of_isCalculation : (e : Expression) → e.isCalculation = true →
    e.isPlain = true
  | .identifier _ _, h => h
  | .number _ _, h => h
  | .binary op left right _, h => by
    simp only [Expression.isCalculation, Bool.and_eq_true] at h
    have hStart : startsWithNot right = false := by
      obtain ⟨step, more, hSteps, hStep⟩ :=
        (unnegated_of_isCalculation BinaryOp.is.tightens right h.2).atLeast (rightStrength .is right)
      rw [startsWithNot, hSteps]
      simpa using hStep
    simp [Expression.isPlain, left.isPlain_of_isCalculation h.1, right.isPlain_of_isCalculation h.2,
      hStart]
  | .call callee args _, h => by
    simp only [Expression.isCalculation, Bool.and_eq_true] at h
    simp only [Expression.isPlain, Bool.and_eq_true]
    exact ⟨callee.isPlain_of_isCalculation h.1, plainArguments_of_calculated args h.2⟩

theorem plainArguments_of_calculated : (args : List (Argument Expression)) →
    calculatedArguments args = true → plainArguments args = true
  | [], _ => rfl
  | ⟨none, value⟩ :: args, h => by
    simp only [calculatedArguments, Bool.and_eq_true] at h
    simp only [plainArguments, Option.all_none, Bool.true_and, Bool.and_eq_true]
    exact ⟨value.isPlain_of_isCalculation h.1, plainArguments_of_calculated args h.2⟩

end

end CfScript
