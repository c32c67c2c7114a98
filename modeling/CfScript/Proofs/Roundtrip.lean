import CfScript.Build.Script
import CfScript.Proofs.Coverage
import CfScript.Proofs.Recovery
import CfScript.Proofs.SourceStream

/-!
# Expressions that are read back

A plain expression is printed, and the text is read as a source that holds one expression. Nothing is
found wrong, and the expression that is built is the first one, apart from parentheses: it may have
some more, where the printed text needed them. So no two plain expressions that differ in more than
their parentheses have one text.

With functions this is no longer so. A function with an arrow takes all that follows it, and where it
ends the left operand of an operator it takes the operator too.

## Main results

* `Script.ofSource_of_lexes`: the script of a text that is put together from lexemes;
* `Expression.ofSource_render_restates`: the script of a printed expression;
* `Expression.ofSource_render`: it has no findings, and the expression in it is the same;
* `Expression.render_injective`: the text tells the expression.
-/

namespace CfScript

open Layout

/-! ## Tokens -/

/-- A word, a literal or a symbol other than an arrow. -/
theorem Token.Spells.solid {t : Token} {text : String} (h : t.Spells text)
    (hSolid : Scan.isSolid text = true) :
    (t.isEnd = false ∧ t.kind ≠ .symbol .arrow) ∧ t.kind.isTrivia = false ∧ t.kind ≠ .invalid := by
  rw [Scan.isSolid, h.1, Option.any_some] at hSolid
  cases hKind : t.kind <;> simp_all [Token.isEnd, Scan.isOperand, TokenKind.isTrivia]

/-- Tokens that are spelled like words, literals and symbols are tokens inside a source, and the
scanner says nothing about them. -/
theorem Spelled.of_forall₂ {body : List Token} {texts : List String}
    (h : List.Forall₂ Token.Spells body texts) (hSolid : ∀ text ∈ texts, Scan.isSolid text = true) :
    ∃ ts : List Token.Inner, body = ts.map (·.1) ∧ Spelled ts texts ∧
      ∀ t ∈ body, t.kind.isTrivia = false ∧ t.kind ≠ .invalid := by
  induction h with
  | nil => exact ⟨[], rfl, .nil, nofun⟩
  | @cons t text _ _ hHead _ ih =>
    obtain ⟨ts, rfl, hts, hAll⟩ := ih fun text hText => hSolid text (by simp [hText])
    obtain ⟨hInner, hSeen⟩ := hHead.solid (hSolid text (by simp))
    exact ⟨⟨t, hInner⟩ :: ts, rfl, List.Forall₂.cons hHead hts, List.forall_mem_cons.2 ⟨hSeen, hAll⟩⟩

/-- The stream of a text that is put together from lexemes is spelled like them, and the scanner has no
complaints. -/
theorem Scan.Lexes.stream {source : String} {texts : List String}
    (h : Scan.Lexes source.toList texts) :
    Token.complaints (Token.tokens source) = [] ∧
      ∃ ts : List Token.Inner,
        (TokenStream.ofTokens (Token.tokens source)).rest = ts.map (·.1) ∧ Spelled ts texts := by
  obtain ⟨body, last, hTokens, hLast, hBody⟩ : ∃ body last, Token.tokens source = body ++ [last] ∧
    last.isEnd = true ∧ List.Forall₂ Token.Spells body texts := h.scan 0 1
  obtain ⟨ts, rfl, hts, hAll⟩ := Spelled.of_forall₂ hBody h.solid
  constructor
  · rw [hTokens, Token.complaints_eq_nil_iff]
    intro t ht
    rcases List.mem_append.1 ht with ht | ht
    · exact (hAll t ht).2
    · rw [List.mem_singleton.1 ht]
      exact fun hInvalid => by simp [Token.isEnd, hInvalid] at hLast
  · refine ⟨ts, ?_, hts⟩
    have hSeen : (ts.map (·.1)).filter (fun t => !t.kind.isTrivia && !t.isEnd) = ts.map (·.1) := by
      refine List.filter_eq_self.2 fun t ht => ?_
      obtain ⟨u, hu, rfl⟩ := List.mem_map.1 ht
      simp [(hAll _ ht).1, u.2.1]
    rw [TokenStream.rest_ofTokens_tokens, Token.words, hTokens, List.filter_append, hSeen]
    simp [hLast]

/-! ## Scripts -/

namespace Build

/-- The root of a source that holds one expression. -/
theorem returns_standalone {T : Tree} {e : Expression} (h : T.Restates e) (last : Token) :
    (Build.root (.node .standaloneExpression [T, .token last])).Returns fun s? =>
      ∃ e' : Expression, e'.Restates e ∧ s? = some (.expression e' e'.span) := by
  refine (h.builds.orLeaveOut .standaloneExpression _).bind fun e? he => ?_
  obtain ⟨e', rfl, hRestates⟩ := he
  exact returns_pure ⟨e', hRestates, rfl⟩

end Build

/-- The script of a text that is put together from lexemes: if all tokens that are spelled like them
are parsed without a finding, and the tree is built without one, then the script has none, and its root
is as it was built. -/
theorem Script.ofSource_of_lexes {source : String} {texts : List String}
    (hLexes : Scan.Lexes source.toList texts) {options : ParseOptions}
    (hStrategy : options.strategy ≠ .fastOnly) (rules : AttributeRules)
    (P : Option Statement → Prop)
    (h : ∀ ts, Spelled ts texts → ∀ last hLast, ∃ parts,
      (∃ before', parseGoal .lenient options.entry.goal
        (Production.Reads.state last hLast .empty [] ts) =
          .parsed parts (Production.Reads.state last hLast .empty before' [])) ∧
        (Build.root (.node options.entry.rule parts)).Returns P) :
    (Script.ofSource source options rules).findings = .empty ∧
      P (Script.ofSource source options rules).root? := by
  obtain ⟨hComplaints, ts, hRest, hts⟩ := hLexes.stream
  obtain ⟨parts, hParse, hBuild⟩ := h ts hts _
    (TokenStream.ofTokens (Token.tokens source)).last_isEnd
  obtain ⟨hTree, hFound⟩ := Production.Reads.parseStream_of_parseGoal
    (TokenStream.Whole.ofSource _) hRest hParse hStrategy
  obtain ⟨s?, hRun, hRoot⟩ := hBuild rules .empty
  have hBuilt : Build.run (parse source options).tree rules = (s?, .empty) := by
    rw [show (parse source options).tree = _ from hTree, Build.run, hRun]
  have hFindings : (parse source options).findings = .empty := by
    simp only [parse, hComplaints, hFound]
    rfl
  refine ⟨?_, ?_⟩
  · rw [Script.findings_ofSource, hFindings, hBuilt]
    rfl
  · rwa [show (Script.ofSource source options rules).root? = s? from congrArg Prod.fst hBuilt]

/-- The script of a printed plain expression has no findings, and the expression in it restates the
printed one. -/
theorem Expression.ofSource_render_restates {e : Expression} (h : e.isPlain = true) (style : Style)
    (depth : Nat) {options : ParseOptions} (hEntry : options.entry = .expression)
    (hStrategy : options.strategy ≠ .fastOnly) (rules : AttributeRules) :
    (Script.ofSource (e.render style depth) options rules).findings = .empty ∧
      ∃ e' : Expression, e'.Restates e ∧
        (Script.ofSource (e.render style depth) options rules).root? =
          some (.expression e' e'.span) := by
  refine Script.ofSource_of_lexes (lexes_render h style depth) hStrategy rules
    (fun s? => ∃ e' : Expression, e'.Restates e ∧ s? = some (.expression e' e'.span))
    fun ts hts last hLast => ?_
  obtain ⟨T, hHolds, hRestates⟩ := e.recovers h false ts hts
  have hReads := hHolds.expression rfl [] .nil
  rw [List.append_nil] at hReads
  rw [hEntry]
  exact ⟨[T, .token last], Production.Reads.parseGoal_standalone hReads,
    Build.returns_standalone hRestates last⟩

/-- A plain expression is read back from its text: nothing is found wrong, and without parentheses it
is the same. -/
theorem Expression.ofSource_render {e : Expression} (h : e.isPlain = true) (style : Style)
    (depth : Nat) {options : ParseOptions} (hEntry : options.entry = .expression)
    (hStrategy : options.strategy ≠ .fastOnly) (rules : AttributeRules) :
    (Script.ofSource (e.render style depth) options rules).findings = .empty ∧
      ∃ e' : Expression, (Script.ofSource (e.render style depth) options rules).root? =
        some (.expression e' e'.span) ∧ (e'.bare == e.bare) = true := by
  obtain ⟨hFindings, e', hRestates, hRoot⟩ :=
    ofSource_render_restates h style depth hEntry hStrategy rules
  exact ⟨hFindings, e', hRoot, e.same_bare h e'.bare hRestates⟩

/-- A comparison, whose left operand is one too, behind the word `NOT`, and a call with all kinds of
arguments. -/
def Expression.comparisonAndCall : Expression :=
  let name (text : String) : Expression := .ofIdentifier ⟨text, .dummy⟩
  let comparison : Expression :=
    .binary .isNot (.binary .eqWord (name "a") (name "b") .dummy) (.number "1.5" .dummy) .dummy
  let entry : StructEntry Expression := ⟨name "new", .colon, .string "it''s" .single .dummy⟩
  let struct : Expression := .struct [entry] .dummy
  let sign : Expression := .unary .neg (.unary .decrement (name "c") .dummy) .dummy
  let assignment : Expression := .assignment .addAssign (name "d") (.null .dummy) .dummy
  .binary .andWord (.unary .notWord comparison .dummy)
    (.call (.new "x.y" [] .dummy) [⟨some ⟨"eq", .dummy⟩, struct⟩, ⟨none, sign⟩, ⟨none, assignment⟩]
      .dummy) .dummy

theorem Expression.ofSource_render_comparisonAndCall :
    (Script.ofSource (comparisonAndCall.render {} 0) { entry := .expression } {}).findings = .empty ∧
      ∃ e' : Expression,
        (Script.ofSource (comparisonAndCall.render {} 0) { entry := .expression } {}).root? =
          some (.expression e' e'.span) ∧ (e'.bare == comparisonAndCall.bare) = true :=
  ofSource_render (by decide) {} 0 rfl (by decide) {}

/-- The text of a plain expression tells it, apart from parentheses. -/
theorem Expression.render_injective {e f : Expression} (he : e.isPlain = true) (hf : f.isPlain = true)
    {style : Style} {depth : Nat} (h : e.render style depth = f.render style depth) :
    (e.bare == f.bare) = true := by
  have hRead {g : Expression} (hg : g.isPlain = true) :=
    (g.ofSource_render_restates hg style depth (show (ParseOptions.mk .expression .adaptive).entry = _
      from rfl) nofun {}).2
  obtain ⟨e', hRestates, hRoot⟩ := hRead he
  obtain ⟨f', hRestates', hRoot'⟩ := hRead hf
  rw [h, hRoot'] at hRoot
  obtain rfl : f' = e' := by injection Option.some.inj hRoot
  exact f.same_bare hf e.bare (hRestates.symm.trans hRestates')

/-- An operand that stands in parentheses, because they were written or because they are needed. -/
theorem Expression.render_injective_product :
    let name (text : String) : Expression := .ofIdentifier ⟨text, .dummy⟩
    let sum : Expression := .binary .add (name "a") (name "b") .dummy
    let written : Expression := .binary .mul (.paren sum .dummy) (name "c") .dummy
    let needed : Expression := .binary .mul sum (name "c") .dummy
    written.render {} 0 = needed.render {} 0 ∧ (written.bare == needed.bare) = true :=
  have h : _ = _ := by decide +kernel
  ⟨h, render_injective (by decide) (by decide) h⟩

/-- A function with an arrow at the end of a left operand takes the operator behind it, and the
operator `IS` takes a word `NOT`: either way two expressions have one text. -/
theorem Expression.not_render_injective :
    let name (text : String) : Expression := .ofIdentifier ⟨text, .dummy⟩
    let lambda (value : Expression) : Expression := .lambda true [] value .dummy
    let outside : Expression :=
      .binary .add (.binary .add (name "a") (lambda (name "b")) .dummy) (name "c") .dummy
    let inside : Expression :=
      .binary .add (name "a") (lambda (.binary .add (name "b") (name "c") .dummy)) .dummy
    let negated : Expression := .binary .is (name "a") (.unary .notWord (name "b") .dummy) .dummy
    let negative : Expression := .binary .isNot (name "a") (name "b") .dummy
    ["a", "b", "c"].all (Scan.kindOf? · == some .identifier) = true ∧
      (outside.render {} 0 = inside.render {} 0 ∧ (outside.bare == inside.bare) = false) ∧
        negated.render {} 0 = negative.render {} 0 ∧ (negated.bare == negative.bare) = false := by
  refine ⟨by decide, ⟨by decide +kernel, by decide⟩, by decide +kernel, by decide⟩

end CfScript
