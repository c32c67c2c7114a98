import CfScript.Proofs.Account
import Mathlib.Tactic.Abel

/-!
# Builds account for what they do

There is one lemma for each step of a build. It says which texts and which nodes the step gives; the
steps before it do not show in it.

## Main results

* `tells_attributes`: the unknown attributes that are found are those of the map that is made;
* `makes_branchExpression`, `makes_branchStatement`: the builds of a node whose parts are told.
-/

namespace CfScript

open Build

namespace Build

variable {α β : Type} {g : Ground} {b : Branch} {rs : List Reading} {r : Reading}
  {m : Multiset Diagnostic} {P : α → Prop} {count : α → Multiset Diagnostic}

/-! ## Texts -/

theorem ofTokens_singleton (t : Token) : Written.ofTokens [t] = t.lexeme := by
  simp [Written.ofTokens]

theorem drawnFrom_lexeme {t : Token} (h : t ∈ g.tokens) :
    (Written.name t.lexeme).DrawnFrom g.tokens := by
  obtain ⟨front, back, hSplit⟩ := List.append_of_mem h
  exact ⟨g.filled t h, [t], ⟨front, back, by simp [hSplit]⟩, (ofTokens_singleton t).symm⟩

theorem isEnd_of_isWord {t : Token} (h : t.kind.isWord = true) : t.isEnd = false := by
  rw [Token.isEnd, beq_eq_false_iff_ne]
  intro hEnd
  rw [hEnd] at h
  cases h

/-- A token of the tree that is a word is one of its words. -/
theorem mem_of_isWord {tree : Tree} {t : Token} (h : tree.Grounded g) (hToken : tree.token? = some t)
    (hWord : t.kind.isWord = true) : t ∈ g.tokens := h.token t hToken (isEnd_of_isWord hWord)

theorem drawn_word {t : Token} (h : t ∈ g.tokens) :
    g.Drawn (wordIdentifier t).written := .inl (drawnFrom_lexeme h)

/-! ## Parts -/

theorem tells_bind_pick {f : Reading → Build α} (h : ∀ r ∈ rs, g.Tells m (f r) P count) (i : Nat) :
    g.Tells m (b.pick rs i >>= f) P count := by
  unfold Branch.pick
  cases hPart : rs[i]? with
  | none => exact .throw_bind _ f
  | some r =>
    rw [pure_bind]
    exact h r (List.mem_of_getElem? hPart)

theorem makes_childExpression (h : b.Told g) (i : Nat) :
    g.Makes (b.childExpression i) Expression.nodes :=
  tells_bind_pick (fun r hr => (h.parts r hr).expression) i

theorem makes_operandExpression (h : b.Told g) (i : Nat) :
    g.Makes (b.operandExpression i) Expression.nodes :=
  tells_bind_pick (fun r hr => (h.operands r hr).expression) i

theorem makes_operandStatement (h : b.Told g) (i : Nat) :
    g.Makes (b.operandStatement i) Statement.nodes :=
  tells_bind_pick (fun r hr => (h.operands r hr).statement) i

/-- A word is a token of the tree. -/
theorem tells_word (h : r.Told g) (what : String) :
    g.Tells 0 (word what r) (fun t => t ∈ g.tokens) fun _ => 0 := by
  unfold word
  split
  next t hTree =>
    split
    next hWord => exact .pure (mem_of_isWord h.grounded (by rw [hTree]; rfl) hWord) rfl
    next => exact .throw _
  · exact .throw _
  · exact .throw _

theorem names_identifier (h : r.Told g) (what : String) :
    g.Names (identifier what r) fun id => [id.written] :=
  (tells_word h what).map (fun t ht => by simpa using drawn_word ht) fun _ _ => rfl

theorem names_path (h : r.Told g) (what : String) :
    g.Names (path what r) fun text => [.path text] := by
  unfold path
  split
  next t hTree =>
    split
    next hString =>
      have hToken : r.tree.token? = some t := by rw [hTree]; rfl
      have hMem : t ∈ g.tokens := h.grounded.token t hToken (by simp [Token.isEnd, hString])
      exact .pure ((g.draws_cons).2 ⟨.inl (drawnFrom_lexeme hMem), g.draws_nil⟩) rfl
    next => exact .throw _
  next hTree =>
    have hRule : r.tree.rule? = some .typeName := by rw [hTree]; rfl
    have hPath : g.Drawn (.path r.tree.text) := by
      by_cases hEmpty : r.tree.text = ""
      · exact .inr ⟨by rw [hEmpty], h.grounded.assumed hRule hEmpty⟩
      · exact .inl ⟨hEmpty, h.grounded.text hRule⟩
    exact .pure ((g.draws_cons).2 ⟨hPath, g.draws_nil⟩) rfl
  next => exact .throw _

theorem tells_operator (what : String) (ofKind? : TokenKind → Option α) (r : Reading) :
    g.Tells 0 (operator what ofKind? r) (fun _ => True) fun _ => 0 := by
  unfold operator
  split
  · exact .throw _
  · split
    · exact .pure trivial rfl
    · exact .throw _

theorem makes_statements (h : ∀ r ∈ rs, r.Told g) : g.Makes (statements rs) statementNodes := by
  induction rs with
  | nil => exact .pure (by simp [statementNodes]) rfl
  | cons r rs ih =>
    have hRest := ih fun r hr => h r (by simp [hr])
    have hr := h r (by simp)
    unfold statements
    split
    · exact hRest
    · exact hRest
    · refine (hr.statement.orLeaveOut hr.grounded.whole).bind fun s? hs => ?_
      refine hRest.bind fun ss hss => .pure ?_ ?_
      · cases s? with
        | none => simpa using hss
        | some s => simpa [statementNodes] using ⟨hs s rfl, hss⟩
      · simp [statementNodes_eq]

theorem makes_block? (h : b.Told g) : g.Makes (block? b) bodyNodes? := by
  refine (Ground.Tells.optional fun c hc => makes_statements (h.node? hc).1.parts).imp ?_ ?_
  · intro body? hBody
    cases body? with
    | none => simp [bodyNodes?]
    | some body => exact hBody body rfl
  · intro body? _
    cases body? <;> simp [bodyNodes?]

theorem makes_block (h : b.Told g) : g.Makes (block b) statementNodes := by
  refine (makes_block? h).bind fun body? hBody => ?_
  cases body? with
  | none => exact .throw _
  | some body => exact .pure hBody (by simp [bodyNodes?])

/-! ## Attributes -/

/-- The findings about the attributes in a map that are not accepted. -/
def unaccepted (rules : AttributeRules) (element : Element) (map : AttributeMap Expression) :
    List Diagnostic :=
  ((map.unknown element.known).filter fun a => !rules.accepts element a.name.name).filterMap
    fun a => rules.unknown? element a.name 0

theorem code_repeated? {rules : AttributeRules} {owner : String} {name : Identifier} {line : LineNumber}
    {d : Diagnostic} (h : d ∈ rules.repeated? owner name line) :
    d.code = some .duplicateAttribute := by
  obtain ⟨severity, -, rfl⟩ := Option.map_eq_some_iff.1 h
  rfl

theorem places_finding? {code : ErrorCode} {t : Token} {message label : String}
    {notes : List String} (h : t ∈ g.tokens) :
    ∀ d ∈ g.rules.finding? code (wordIdentifier t) t.line message label notes, g.Places d := by
  intro d hd
  obtain ⟨severity, -, rfl⟩ := Option.map_eq_some_iff.1 hd
  exact .inr ⟨rfl, t, h, rfl, rfl, rfl⟩

theorem unaccepted_eq (rules : AttributeRules) (element : Element) (map : AttributeMap Expression) :
    unaccepted rules element map =
      ((map.entries.map (·.name)).filter fun id => !rules.accepts element id.name).filterMap
        (rules.unknown? element · 0) := by
  have hUnknown : (map.unknown element.known).filter (fun a => !rules.accepts element a.name.name) =
      map.entries.filter fun a => !rules.accepts element a.name.name := by
    rw [AttributeMap.unknown, List.filter_filter]
    refine List.filter_congr fun a _ => ?_
    cases hKnown : element.known.any (a.name.isNamed ·) with
    | false => simp
    | true =>
      have hKnows : element.knows a.name.name = true := by
        obtain ⟨k, hk, hNamed⟩ := List.any_eq_true.1 hKnown
        refine List.any_eq_true.2 ⟨k, hk, ?_⟩
        rw [Text.sameName_iff]
        exact (AttributeMap.isNamed_iff.1 hNamed).symm
      simp [AttributeRules.accepts, hKnows]
  rw [unaccepted, hUnknown, List.filter_map, List.filterMap_map]
  rfl

/-- The lines of the tokens aside, what is found about them is found about their names. -/
theorem strange_unknown (rules : AttributeRules) (element : Element) (ts : List Token) :
    strange (ts.filterMap fun t => rules.unknown? element (wordIdentifier t) t.line) =
      (((ts.map wordIdentifier).filterMap (rules.unknown? element · 0) : List Diagnostic) :
        Multiset Diagnostic) := by
  cases hSeverity : rules.policy.severity? with
  | none => simp [AttributeRules.unknown?, AttributeRules.finding?, hSeverity]
  | some severity =>
    simp [strange, AttributeRules.unknown?, AttributeRules.finding?, hSeverity, List.filter_map,
      Function.comp_def, Diagnostic.unlined]

theorem validate_of_policy (h : g.rules.policy.severity? = none) (n : Node) :
    n.validate g.rules = [] := by
  cases n with
  | expression e => rfl
  | statement s =>
    unfold Node.validate Statement.validate
    dsimp only
    split
    · simp [AttributeRules.unknown?, AttributeRules.finding?, h]
    · rfl

/-- Where no finding is made, nothing is counted. -/
theorem tally_of_policy (h : g.rules.policy.severity? = none) (ns : List Node) : g.tally ns = 0 := by
  simp [Ground.tally, validate_of_policy h]

/-- The tokens of the names that are new are those of the map, the last one first. -/
def Gathered (g : Ground) (fresh : List Token) (map : AttributeMap Expression) : Prop :=
  fresh.reverse.map wordIdentifier = map.entries.map (·.name) ∧ (∀ t ∈ fresh, t ∈ g.tokens) ∧
    g.DrawsAll map.nodes

/-- A name that is new goes to the end, and one that is there is given another value. -/
theorem insert_cases (map : AttributeMap Expression) (name : Identifier) (value : Expression) :
    map.insert name value = (none, ⟨map.entries ++ [⟨name, value⟩]⟩) ∨
      ∃ old, map.insert name value = (some old, map.set name.name value) := by
  unfold AttributeMap.insert
  split
  next old _ => exact .inr ⟨old, rfl⟩
  next => exact .inl rfl

theorem drawsAll_set {map : AttributeMap Expression} {value : Expression} (name : String)
    (hMap : g.DrawsAll map.nodes) (hValue : g.DrawsAll value.nodes) :
    g.DrawsAll (map.set name value).nodes := by
  rw [AttributeMap.nodes_eq, Ground.drawsAll_flatMap] at hMap ⊢
  exact AttributeMap.forall_replaceIn hMap name fun _ _ => hValue

/-- Attributes are gathered in a map: each name is that of a token, and the values are counted. -/
theorem tells_gather (owner : String) {bs : List Branch} (h : ∀ b ∈ bs, b.Told g)
    {fresh : List Token} {map : AttributeMap Expression} (hMap : Gathered g fresh map) :
    g.Tells (g.tally map.nodes) (gather owner bs fresh map) (fun r => Gathered g r.1 r.2)
      fun r => g.tally r.2.nodes := by
  induction bs generalizing fresh map with
  | nil => exact .pure hMap rfl
  | cons b bs ih =>
    have hb := h b (by simp)
    obtain ⟨hNames, hFresh, hDrawn⟩ := hMap
    refine tells_bind_pick (fun r hr => ?_) 0
    refine (tells_word (hb.parts r hr) _).bind fun name hName => ?_
    refine (makes_childExpression hb 2).bind fun value hValue => ?_
    rcases insert_cases map (wordIdentifier name) value with hInsert | ⟨old, hInsert⟩
    · have hNew : Gathered g (name :: fresh) ⟨map.entries ++ [⟨wordIdentifier name, value⟩]⟩ := by
        refine ⟨by simp [hNames], List.forall_mem_cons.2 ⟨hName, hFresh⟩, ?_⟩
        rw [AttributeMap.nodes_eq, Ground.drawsAll_flatMap] at hDrawn ⊢
        exact List.forall_mem_append.2 ⟨hDrawn, by simpa using hValue⟩
      have hRest := ih (fun b hb => h b (by simp [hb])) hNew
      simp only [hInsert]
      rw [add_zero]
      rwa [AttributeMap.nodes_eq, List.flatMap_append, ← AttributeMap.nodes_eq, Ground.tally_append,
        List.flatMap_cons, List.flatMap_nil, List.append_nil] at hRest
    · have hSame : Gathered g fresh (map.set (wordIdentifier name).name value) := by
        refine ⟨?_, hFresh, drawsAll_set _ hDrawn hValue⟩
        rw [hNames, AttributeMap.set, AttributeMap.map_key_replaceIn]
      have hRest := ih (fun b hb => h b (by simp [hb])) hSame
      simp only [hInsert]
      refine .read_bind ?_
      cases hSeverity : g.rules.policy.severity? with
      | none =>
        -- Where nothing is found, nothing is counted, and the value that is lost is not missed.
        simp only [AttributeRules.repeated?, AttributeRules.finding?, hSeverity, Option.map_none]
        simp only [tally_of_policy hSeverity] at hRest ⊢
        exact (Ground.Tells.report fun d hd => by cases hd).bind fun _ _ => hRest
      | some severity =>
        obtain ⟨d, hd⟩ : ∃ d, g.rules.repeated? owner (wordIdentifier name) name.line = some d := by
          simp [AttributeRules.repeated?, AttributeRules.finding?, hSeverity]
        refine .report_bind (d := d) (fun e he => ?_) (by simp [hd]) (fun hPlain => ?_) hRest
        · exact places_finding? hName e (Option.mem_toList.1 he)
        · exact hPlain.2 (code_repeated? hd)

theorem Gathered.draws {fresh : List Token} {map : AttributeMap Expression}
    (h : Gathered g fresh map) : g.Draws map.texts := by
  have hTexts : map.texts = (fresh.reverse.map wordIdentifier).map (·.written) := by
    rw [h.1, AttributeMap.texts, List.map_map]
    rfl
  rw [hTexts, Ground.draws_map]
  intro id hId
  obtain ⟨t, ht, rfl⟩ := List.mem_map.1 hId
  exact drawn_word (h.2.1 t (List.mem_reverse.1 ht))

theorem gathered_empty : Gathered g [] .empty :=
  ⟨rfl, nofun, by simp [AttributeMap.nodes_eq, AttributeMap.empty]⟩

/-- The attributes of an element: those that are not accepted are found. -/
theorem tells_attributes (h : b.Told g) (element : Element) :
    g.Tells 0 (attributes element b) (fun map => g.Draws map.texts ∧ g.DrawsAll map.nodes)
      fun map => unaccepted g.rules element map + g.tally map.nodes := by
  have hGather := tells_gather element.word (fun c (hc : c ∈ b.nodes .attribute) => (h.nodes c hc).1)
    (gathered_empty (g := g))
  refine hGather.bind fun r hr => ?_
  obtain ⟨fresh, map⟩ := r
  refine .read_bind ?_
  refine (Ground.Tells.report fun d hd => ?_).bind fun _ _ => .pure ⟨hr.draws, hr.2.2⟩ ?_
  · obtain ⟨t, ht, hFound⟩ := List.mem_filterMap.1 hd
    exact places_finding? (hr.2.1 t (List.mem_reverse.1 (List.mem_filter.1 ht).1)) d hFound
  · have hStrange := strange_unknown g.rules element
      (fresh.reverse.filter (!g.rules.accepts element ·.lexeme))
    have hNames : (fresh.reverse.filter (!g.rules.accepts element ·.lexeme)).map wordIdentifier =
        (map.entries.map (·.name)).filter fun id => !g.rules.accepts element id.name := by
      rw [← hr.1, List.filter_map]
      rfl
    rw [hNames, ← unaccepted_eq] at hStrange
    rw [hStrange]
    abel

theorem accounts_parameterAttributes (h : b.Told g) :
    g.Accounts (parameterAttributes b) AttributeMap.texts AttributeMap.nodes := by
  have hGather := tells_gather "parameter" (fun c (hc : c ∈ b.nodes .attribute) => (h.nodes c hc).1)
    (gathered_empty (g := g))
  exact hGather.map (fun r hr => ⟨hr.draws, hr.2.2⟩) fun _ _ => rfl

/-! ## Parameters -/

theorem makes_some {e : Build Expression} (h : g.Makes e Expression.nodes) :
    g.Makes (some <$> e) expressionNodes? := h.map (fun _ he => he) fun _ _ => rfl

theorem makes_none : g.Makes (pure none) expressionNodes? := .pure (by simp [expressionNodes?]) rfl

/-- What follows the modifier and the type of a parameter. -/
theorem accounts_named (h : b.Told g) (hParts : ∀ r ∈ rs, r.Told g) (required : Bool)
    {type? : Option Identifier} (hType : ∀ type ∈ type?, g.Drawn type.written) :
    g.Accounts (do
      let name ← identifier "parameter name" (← b.pick rs 0)
      let default? ←
        if rs[1]?.any (·.isToken (.symbol .assign)) then
          some <$> (do (← b.pick rs 2).expression)
        else pure none
      return ({ required, type?, name, default?, attributes := ← parameterAttributes b } :
        Parameter Expression)) Parameter.texts Parameter.nodes := by
  refine tells_bind_pick (fun r hr => (names_identifier (hParts r hr) _).bind fun name hName => ?_) 0
  have hRest (m : Multiset Diagnostic) (default? : Option Expression)
      (hDefault : g.DrawsAll (expressionNodes? default?))
      (hCount : m = g.tally (expressionNodes? default?)) :
      g.Tells m (do
        return ({ required, type?, name, default?, attributes := ← parameterAttributes b } :
          Parameter Expression)) (fun p => g.Draws p.texts ∧ g.DrawsAll p.nodes)
        fun p => g.tally p.nodes := by
    refine (accounts_parameterAttributes h).bind fun map hMap => .pure ⟨?_, ?_⟩ ?_
    · have hName := (g.draws_cons).1 hName
      simp only [Parameter.texts, Ground.draws_append, Ground.draws_map, Option.mem_toList,
        Ground.draws_cons]
      exact ⟨hType, hName.1, hMap.1⟩
    · exact (g.drawsAll_append).2 ⟨hDefault, hMap.2⟩
    · simp [Parameter.nodes, hCount]
  dsimp only
  split
  · exact (makes_some (tells_bind_pick (fun r hr => (hParts r hr).expression) 2)).bind
      fun default? hDefault => hRest _ default? hDefault (by simp)
  · exact (makes_none).bind fun default? hDefault => hRest _ default? hDefault (by simp)

theorem accounts_parameter (h : b.Told g) (hRule : b.rule = .parameter) :
    g.Accounts (parameter b) Parameter.texts Parameter.nodes := by
  have hParts : ∀ r ∈ b.parts.filter (·.rule? != some .attribute), r ∈ b.parts := fun r hr =>
    (List.mem_filter.1 hr).1
  have hAfter := forall_mem_dropIf hParts
    (isRequired (b.parts.filter (·.rule? != some .attribute)) = true)
  refine accounts_named h (fun r hr => h.parts r (forall_mem_dropIf hAfter _ r hr)) _
    fun type hType => ?_
  obtain ⟨c, hc, rfl⟩ := Option.map_eq_some_iff.1 hType
  obtain ⟨r, hHead, hBranch⟩ := Option.bind_eq_some_iff.1 hc
  exact h.type (by simp [hRule]) (by simp [hRule]) (hAfter r (List.mem_of_mem_head? hHead)) hBranch

theorem accounts_parameterList (h : b.Told g) :
    g.Accounts (all parameter (b.nodes .parameter)) (·.flatMap (·.texts)) parameterNodes := by
  have hAll : ∀ c ∈ b.nodes .parameter, g.Accounts (parameter c) Parameter.texts Parameter.nodes :=
    fun c hc => accounts_parameter (h.nodes c hc).1 (h.nodes c hc).2
  refine (Ground.Tells.all hAll).imp (fun params hParams => ?_) fun params _ => ?_
  · rw [Ground.draws_flatMap, parameterNodes_eq, Ground.drawsAll_flatMap]
    exact ⟨fun p hp => (hParams p hp).1, fun p hp => (hParams p hp).2⟩
  · rw [parameterNodes_eq]

theorem accounts_parameters (h : b.Told g) :
    g.Accounts (parameters b) (·.flatMap (·.texts)) parameterNodes := by
  unfold parameters
  split
  next list hList => exact accounts_parameterList (h.node? hList).1
  next => exact .pure ⟨by simp, by simp [parameterNodes]⟩ rfl

/-! ## Expressions -/

attribute [local simp] Expression.nodes Statement.nodes Node.texts Node.validate Statement.validate
  Statement.element?

/-- A string is a token without its quotes. -/
theorem makes_string {t : Token} (h : t ∈ g.tokens) (hString : t.kind = .string) :
    g.Makes (string t) Expression.nodes := by
  unfold string
  dsimp only
  split
  next text hText =>
    refine .pure ?_ rfl
    have hLexeme : t.lexeme.toList =
        (quoteOf t.lexeme.toList).char :: (text ++ [(quoteOf t.lexeme.toList).char]) := by
      cases hChars : t.lexeme.toList with
      | nil => simp [hChars, stringText] at hText
      | cons c cs =>
        rw [hChars, stringText] at hText
        split at hText
        next hQuotes =>
          cases hText
          rw [List.dropLast_append_getLast? _ hQuotes.2, ← hQuotes.1]
        next => cases hText
    simpa using .inl ⟨t, h, hString, by simpa using hLexeme⟩
  next => exact .throw _

theorem makes_ofIdentifier {t : Token} (h : t ∈ g.tokens) :
    g.Makes (pure (.ofIdentifier (wordIdentifier t))) Expression.nodes :=
  .pure (by simpa [Expression.ofIdentifier] using drawn_word h) rfl

theorem makes_number {t : Token} (h : t ∈ g.tokens) :
    g.Makes (pure (.number t.lexeme t.span)) Expression.nodes :=
  .pure (by simpa using .inl (drawnFrom_lexeme h)) rfl

theorem makes_tokenExpression {t : Token} (h : t.isEnd = false → t ∈ g.tokens) :
    g.Makes (tokenExpression t) Expression.nodes := by
  unfold tokenExpression
  split
  next hKind => exact makes_number (h (by simp [Token.isEnd, hKind]))
  next hKind => exact makes_number (h (by simp [Token.isEnd, hKind]))
  next hKind => exact makes_string (h (by simp [Token.isEnd, hKind])) hKind
  · exact .pure (by simp) rfl
  · exact .pure (by simp) rfl
  · exact .pure (by simp) rfl
  · split
    next hWord => exact makes_ofIdentifier (h (isEnd_of_isWord hWord))
    next => exact .throw _

theorem makes_leafStatement (l : Leaf) : g.Makes (leafStatement l) Statement.nodes := by
  cases l <;> exact .throw _

theorem makes_leafExpression {l : Leaf} (h : (Tree.leaf l).Grounded g) :
    g.Makes (leafExpression l) Expression.nodes := by
  cases l with
  | matched t => exact makes_tokenExpression (h.token t rfl)
  | skipped t => exact .throw _
  | assumed what => exact .throw _

theorem accounts_argument (h : b.Told g) :
    g.Accounts (argument b) Argument.texts (·.value.nodes) := by
  unfold argument
  split
  · refine tells_bind_pick
      (fun r hr => (names_identifier (h.parts r hr) _).bind fun name hName => ?_) 0
    refine (makes_childExpression h 2).bind fun value hValue => .pure ⟨?_, hValue⟩ (by simp)
    simpa [Argument.texts] using hName
  · refine (makes_childExpression h 0).bind fun value hValue => .pure ⟨?_, hValue⟩ (by simp)
    simp [Argument.texts]

theorem accounts_arguments (h : b.Told g) :
    g.Accounts (arguments b) (·.flatMap (·.texts)) argumentNodes := by
  unfold arguments
  split
  next list hList =>
    have hAll : ∀ c ∈ list.nodes .argument, g.Accounts (argument c) Argument.texts (·.value.nodes) :=
      fun c hc => accounts_argument ((h.node? hList).1.nodes c hc).1
    refine (Ground.Tells.all hAll).imp (fun args hArgs => ?_) fun args _ => ?_
    · rw [Ground.draws_flatMap, argumentNodes_eq, Ground.drawsAll_flatMap]
      exact ⟨fun a ha => (hArgs a ha).1, fun a ha => (hArgs a ha).2⟩
    · rw [argumentNodes_eq]
  next => exact .pure ⟨by simp, by simp [argumentNodes]⟩ rfl

theorem makes_key (h : r.Told g) : g.Makes (key r) Expression.nodes := by
  unfold key
  split
  next t hToken =>
    split
    next hWord => exact makes_ofIdentifier (mem_of_isWord h.grounded hToken hWord)
    next => exact h.expression
  next => exact h.expression

theorem makes_structEntry (h : b.Told g) :
    g.Makes (structEntry b) fun e => e.key.nodes ++ e.value.nodes := by
  refine tells_bind_pick (fun r hr => (makes_key (h.parts r hr)).bind fun key hKey => ?_) 0
  refine tells_bind_pick (fun _ _ => (makes_childExpression h 2).bind fun value hValue => ?_) 1
  exact .pure (by simpa using ⟨hKey, hValue⟩) (by simp)

theorem tells_binaryOperator (b : Branch) (between : List Reading) :
    g.Tells 0 (binaryOperator b between) (fun _ => True) fun _ => 0 := by
  unfold binaryOperator
  dsimp only
  split
  · exact .pure trivial rfl
  · exact .throw _

theorem makes_binary (h : b.Told g) : g.Makes (binary b) Expression.nodes := by
  unfold binary
  split
  next first second rest hParts =>
    have hTold : ∀ r ∈ first :: second :: rest, r.Told g := hParts ▸ h.parts
    have hLast : ((second :: rest).getLast?.getD second).Told g := by
      rw [List.getLast?_eq_some_getLast (List.cons_ne_nil _ _), Option.getD_some]
      exact hTold _ (List.mem_cons_of_mem _ (List.getLast_mem _))
    refine (tells_binaryOperator b _).bind fun op _ => ?_
    refine (hTold first (by simp)).expression.bind fun left hLeft => ?_
    refine hLast.expression.bind fun right hRight => ?_
    exact .pure (by simpa using ⟨hLeft, hRight⟩)
      (by simp)
  next => exact .throw _

theorem accounts_arrowParameters (h : r.Told g) :
    g.Accounts (arrowParameters r) (·.flatMap (·.texts)) parameterNodes := by
  unfold arrowParameters
  split
  next t hToken =>
    split
    next hWord =>
      have hDrawn := drawn_word (mem_of_isWord h.grounded hToken hWord)
      refine .pure ⟨?_, ?_⟩ ?_
      · simpa [Parameter.texts, AttributeMap.texts] using hDrawn
      · simp [parameterNodes, expressionNodes?, AttributeMap.nodes, valueNodes]
      · rfl
    next => exact .throw _
  next list _ hList => exact accounts_parameterList (Branch.Told.of_branchOf? h hList).1
  · exact .throw _

theorem makes_arrow (h : b.Told g) : g.Makes (arrow b) Expression.nodes := by
  refine tells_bind_pick (fun first hFirst => ?_) 0
  refine (accounts_arrowParameters (h.parts first hFirst)).bind fun params hParams => ?_
  have hLast : (b.parts.getLast?.getD first).Told g :=
    List.forall_mem_cons.2 ⟨h.parts first hFirst, h.parts⟩ _ (mem_getLast?_getD first b.parts)
  dsimp only
  split
  next block hBlock =>
    refine (makes_statements (Branch.Told.of_branchOf? hLast hBlock).1.parts).bind fun body hBody => ?_
    exact .pure ((g.drawsAll_cons).2 ⟨hParams.1, (g.drawsAll_append).2 ⟨hParams.2, hBody⟩⟩)
      (by simp)
  next =>
    refine hLast.expression.bind fun value hValue => ?_
    exact .pure ((g.drawsAll_cons).2 ⟨hParams.1, (g.drawsAll_append).2 ⟨hParams.2, hValue⟩⟩)
      (by simp)

/-- The expression of a node whose parts are told. -/
theorem makes_branchExpression (h : b.Told g) : g.Makes (branchExpression b) Expression.nodes := by
  have hChild := makes_childExpression h
  unfold branchExpression
  split
  · refine tells_bind_pick (fun r _ => (tells_operator _ _ r).bind fun op _ => ?_) 1
    refine (hChild 0).bind fun target hTarget => (hChild 2).bind fun value hValue => ?_
    exact .pure (by simpa using ⟨hTarget, hValue⟩)
      (by simp)
  · refine (hChild 0).bind fun condition hCondition => (hChild 2).bind fun yes hYes => ?_
    refine (hChild 4).bind fun no hNo => ?_
    exact .pure (by simpa using ⟨hCondition, hYes, hNo⟩)
      (by simp [add_assoc])
  · refine (hChild 0).bind fun value hValue => (hChild 2).bind fun default hDefault => ?_
    exact .pure (by simpa using ⟨hValue, hDefault⟩)
      (by simp)
  · exact makes_binary h
  · refine tells_bind_pick (fun r _ => (tells_operator _ _ r).bind fun op _ => ?_) 0
    refine (hChild 1).bind fun operand hOperand => ?_
    exact .pure (by simpa using hOperand)
      (by simp)
  · refine tells_bind_pick (fun r _ => ?_) 1
    split
    · refine (hChild 0).bind fun operand hOperand => ?_
      exact .pure (by simpa using hOperand)
        (by simp)
    · exact .throw _
  · refine (hChild 1).bind fun inner hInner => ?_
    exact .pure (by simpa using hInner)
      (by simp)
  · refine (hChild 0).bind fun callee hCallee => (accounts_arguments h).bind fun args hArgs => ?_
    exact .pure ((g.drawsAll_cons).2 ⟨hArgs.1, (g.drawsAll_append).2 ⟨hCallee, hArgs.2⟩⟩)
      (by simp)
  · refine tells_bind_pick (fun _ _ => (hChild 0).bind fun object hObject => ?_) 1
    refine tells_bind_pick (fun r hr => ?_) 2
    refine (names_identifier (h.parts r hr) _).bind fun property hProperty => ?_
    exact .pure ((g.drawsAll_cons).2 ⟨hProperty, hObject⟩) (by simp)
  · refine (hChild 0).bind fun object hObject => (hChild 2).bind fun index hIndex => ?_
    exact .pure (by simpa using ⟨hObject, hIndex⟩)
      (by simp)
  · refine (Ground.Tells.all fun r hr => (h.operands r hr).expression).bind fun items hItems => ?_
    exact .pure (by simpa [expressionNodes_eq] using hItems)
      (by simp [expressionNodes_eq])
  · refine (Ground.Tells.all fun c hc => makes_structEntry (h.nodes c hc).1).bind fun entries hAll => ?_
    exact .pure (by simpa [entryNodes_eq] using hAll)
      (by simp [entryNodes_eq])
  · refine tells_bind_pick (fun r hr => ?_) 1
    refine (names_path (h.parts r hr) _).bind fun className hClass => ?_
    refine (accounts_arguments h).bind fun args hArgs => ?_
    exact .pure ((g.drawsAll_cons).2 ⟨(g.draws_append).2 ⟨hClass, hArgs.1⟩, hArgs.2⟩)
      (by simp)
  · refine (accounts_parameters h).bind fun params hParams => (makes_block h).bind fun body hBody => ?_
    exact .pure ((g.drawsAll_cons).2 ⟨hParams.1, (g.drawsAll_append).2 ⟨hParams.2, hBody⟩⟩)
      (by simp)
  · exact makes_arrow h
  · exact .throw _

/-! ## Statements -/

theorem makes_valueAfterKeyword (h : b.Told g) : g.Makes (valueAfterKeyword b) expressionNodes? := by
  unfold valueAfterKeyword
  cases hPart : b.operands[1]? with
  | none => exact makes_none
  | some r => exact makes_some (h.operands r (List.mem_of_getElem? hPart)).expression

theorem makes_declaration (h : b.Told g) : g.Makes (declaration b) Statement.nodes := by
  refine tells_bind_pick (fun r hr => ?_) 1
  refine (names_identifier (h.operands r hr) _).bind fun name hName => ?_
  dsimp only
  split
  · refine (makes_some (makes_operandExpression h 3)).bind fun value? hValue => ?_
    exact .pure ((g.drawsAll_cons).2 ⟨hName, hValue⟩)
      (by simp)
  · refine .pure ((g.drawsAll_cons).2 ⟨hName, by simp [expressionNodes?]⟩) ?_
    simp [expressionNodes?]

theorem makes_branching (h : b.Told g) : g.Makes (branching b) Statement.nodes := by
  refine (makes_operandExpression h 1).bind fun condition hCondition => ?_
  refine (makes_operandStatement h 2).bind fun thenBranch hThen => ?_
  dsimp only
  split
  · have hSome : g.Makes (some <$> b.operandStatement 4) statementNodes? :=
      (makes_operandStatement h 4).map (fun _ hs => hs) fun _ _ => rfl
    refine hSome.bind fun elseBranch? hElse => ?_
    exact .pure (by simpa using ⟨hCondition, hThen, hElse⟩)
      (by simp [add_assoc])
  · exact .pure (by simpa [statementNodes?] using ⟨hCondition, hThen⟩)
      (by simp [statementNodes?])

theorem makes_doLoop (h : b.Told g) : g.Makes (doLoop b) Statement.nodes := by
  refine (makes_operandStatement h 1).bind fun body hBody => ?_
  split
  next c rest hParts =>
    have hLast : (rest.getLast?.getD c).Told g := by
      refine h.operands _ ?_
      rw [hParts]
      exact List.mem_cons_of_mem _ (List.mem_cons_of_mem _ (mem_getLast?_getD c rest))
    refine hLast.expression.bind fun condition hCondition => ?_
    exact .pure (by simpa using ⟨hBody, hCondition⟩)
      (by simp)
  next => exact .throw _

theorem makes_loopStart (h : r.Told g) : g.Makes (loopStart r) Statement.nodes := by
  unfold loopStart
  split
  · exact h.statement
  · refine h.expression.bind fun value hValue => ?_
    exact .pure (by simpa using hValue)
      (by simp)

theorem makes_optional {r? : Option Reading} (h : ∀ r ∈ r?, r.Told g) :
    g.Makes (optional (·.expression) r?) expressionNodes? := by
  cases r? with
  | none => exact makes_none
  | some r => exact makes_some (h r rfl).expression

theorem makes_forLoop (h : b.Told g) : g.Makes (forLoop b) Statement.nodes := by
  unfold forLoop
  split
  next => exact .throw _
  next body hBody =>
    have hBody := h.parts body (List.mem_of_getLast? hBody)
    have hClause (i : Nat) :
        ∀ r ∈ (clauses (b.parts.dropLast.drop 2) none)[i]?.join, r.Told g := by
      intro r hr
      have hMem := List.mem_of_getElem? (Option.join_eq_some_iff.1 hr)
      exact h.parts r (List.dropLast_subset _ (List.mem_of_mem_drop
        ((mem_of_mem_clauses hMem).resolve_left nofun)))
    have hInit : g.Makes
        (optional loopStart (clauses (b.parts.dropLast.drop 2) none)[0]?.join) statementNodes? := by
      cases hPart : (clauses (b.parts.dropLast.drop 2) none)[0]?.join with
      | none => exact .pure (by simp [statementNodes?]) rfl
      | some r => exact (makes_loopStart (hClause 0 r hPart)).map (fun _ hs => hs) fun _ _ => rfl
    refine hInit.bind fun init? hInit => ?_
    refine (makes_optional (hClause 1)).bind fun condition? hCondition => ?_
    refine (makes_optional (hClause 2)).bind fun update? hUpdate => ?_
    refine hBody.statement.bind fun body hBody => ?_
    exact .pure (by simpa using ⟨hInit, hCondition, hUpdate, hBody⟩)
      (by simp [add_assoc])

theorem makes_eachLoop (h : b.Told g) : g.Makes (eachLoop b) Statement.nodes := by
  refine (makes_operandExpression h _).bind fun target hTarget => ?_
  refine (makes_operandExpression h _).bind fun collection hCollection => ?_
  refine (makes_operandStatement h _).bind fun body hBody => ?_
  exact .pure (by simpa using ⟨hTarget, hCollection, hBody⟩)
    (by simp [add_assoc])

/-- Of several default clauses the first one is built, and the others are not looked at. -/
theorem tells_switchClauses {bs : List Branch} (h : ∀ b ∈ bs, b.Told g)
    {default? : Option (List Statement)} (hDefault : g.DrawsAll (bodyNodes? default?)) :
    g.Tells (g.tally (bodyNodes? default?)) (switchClauses bs default?)
      (fun r => g.DrawsAll (caseNodes r.1) ∧ g.DrawsAll (bodyNodes? r.2))
      fun r => g.tally (caseNodes r.1) + g.tally (bodyNodes? r.2) := by
  induction bs generalizing default? with
  | nil => exact .pure ⟨by simp [caseNodes], hDefault⟩ (by simp [caseNodes])
  | cons b bs ih =>
    have hRest := @ih fun b hb => h b (by simp [hb])
    have hb := h b (by simp)
    unfold switchClauses
    split
    next hRule _ =>
      refine (makes_childExpression hb 1).bind fun value hValue => ?_
      refine (makes_statements fun r hr => hb.parts r (List.mem_of_mem_drop hr)).bind
        fun body hBody => ?_
      have hFrame := (hRest hDefault).frame (g.tally value.nodes + g.tally (statementNodes body))
      rw [add_comm, ← add_assoc] at hFrame
      refine hFrame.seq fun r hr => .pure ?_ ?_
      · simpa [caseNodes] using ⟨⟨hValue, hBody, hr.1⟩, hr.2⟩
      · simp [caseNodes, add_assoc]
    next hRule =>
      refine (makes_statements fun r hr => hb.parts r (List.mem_of_mem_drop hr)).bind
        fun body hBody => ?_
      have hFirst : g.DrawsAll (bodyNodes? (some body)) := hBody
      simpa [bodyNodes?] using hRest hFirst
    next => exact hRest hDefault

theorem makes_select (h : b.Told g) : g.Makes (select b) Statement.nodes := by
  refine (makes_operandExpression h 1).bind fun subject hSubject => ?_
  have hClauses : ∀ c ∈ b.parts.filterMap (·.branch?), c.Told g := by
    intro c hc
    obtain ⟨r, hr, hBranch⟩ := List.mem_filterMap.1 hc
    exact Branch.Told.of_branch? (h.parts r hr) hBranch
  have hNone : g.DrawsAll (bodyNodes? none) := by simp [bodyNodes?]
  refine (tells_switchClauses hClauses hNone).bind fun r hr => .pure ?_ ?_
  · simpa using ⟨hSubject, hr⟩
  · simp

theorem accounts_catchClause (h : b.Told g) (hRule : b.rule = .catchClause) :
    g.Accounts (catchClause b) CatchClause.texts (statementNodes ·.body) := by
  have hType : ∀ type ∈ (b.operands[1]?.bind (·.branchOf? .typeName)).map (·.tree.text),
      g.Drawn (.name type) := by
    intro type hType
    obtain ⟨c, hc, rfl⟩ := Option.map_eq_some_iff.1 hType
    obtain ⟨r, hPart, hBranch⟩ := Option.bind_eq_some_iff.1 hc
    have hr := b.operands_sublist.subset (List.mem_of_getElem? hPart)
    exact h.type (by simp [hRule]) (by simp [hRule]) hr hBranch
  unfold catchClause
  dsimp only
  split
  · exact .throw _
  next r hPart =>
    have hr := h.operands r (List.mem_of_getElem? hPart)
    refine (names_identifier hr _).bind fun name hName => ?_
    refine (makes_block h).bind fun body hBody => .pure ⟨?_, hBody⟩ (by simp)
    simp only [CatchClause.texts, Ground.draws_append, Ground.draws_map, Option.mem_toList]
    exact ⟨hType, hName⟩

theorem makes_tryStatement (h : b.Told g) : g.Makes (tryStatement b) Statement.nodes := by
  refine (makes_block h).bind fun body hBody => ?_
  have hCatch : ∀ c ∈ b.nodes .catchClause,
      g.Accounts (catchClause c) CatchClause.texts (statementNodes ·.body) := fun c hc =>
    accounts_catchClause (h.nodes c hc).1 (h.nodes c hc).2
  refine (Ground.Tells.all hCatch).bind fun catches hCatches => ?_
  have hFinally : g.Makes (optional block (b.node? .finallyClause)) bodyNodes? := by
    cases hPart : b.node? .finallyClause with
    | none => exact .pure (by simp [bodyNodes?]) rfl
    | some c => exact (makes_block (h.node? hPart).1).map (fun _ hs => hs) fun _ _ => rfl
  refine hFinally.bind fun finally? hFinally => .pure ?_ ?_
  · refine (g.drawsAll_cons).2 ⟨(g.draws_flatMap).2 fun c hc => (hCatches c hc).1, ?_⟩
    rw [catchNodes_eq]
    simpa using ⟨hBody, fun c hc => (hCatches c hc).2, hFinally⟩
  · simp [catchNodes_eq, add_assoc]

theorem makes_component (h : b.Told g) (kind : ComponentKind) :
    g.Makes (component kind b) Statement.nodes := by
  refine (tells_attributes h _).bind fun map hMap => (makes_block? h).bind fun body? hBody => ?_
  have hNodes : statementNodes (body?.getD []) = bodyNodes? body? := by
    cases body? <;> rfl
  refine .pure ((g.drawsAll_cons).2 ⟨hMap.1, (g.drawsAll_append).2 ⟨hMap.2, hNodes ▸ hBody⟩⟩) ?_
  simp only [Statement.nodes, Ground.tally_cons, Ground.tally_append, hNodes, zero_add, add_assoc]
  rfl

theorem makes_tag (h : b.Told g) : g.Makes (tag b) Statement.nodes := by
  refine tells_bind_pick (fun first _ => ?_) 0
  split
  · exact .throw _
  · refine (tells_attributes h _).bind fun map hMap => (makes_block? h).bind fun body? hBody => ?_
    refine .pure ((g.drawsAll_cons).2 ⟨hMap.1, (g.drawsAll_append).2 ⟨hMap.2, hBody⟩⟩) ?_
    simp only [Statement.nodes, Ground.tally_cons, Ground.tally_append, zero_add, add_assoc]
    rfl

/-- The name and the type of a short property are among its parts. -/
theorem mem_of_propertyHead (rs : List Reading) :
    (∀ type ∈ (propertyHead rs).1,
        ∃ p ∈ rs, ∃ c, p.branchOf? .typeName = some c ∧ type = c.identifier) ∧
      ∀ r ∈ (propertyHead rs).2, r ∈ rs := by
  unfold propertyHead
  split
  · exact ⟨nofun, nofun⟩
  next first rest =>
    split
    next c name others hType =>
      refine ⟨fun type hMem => ?_, fun r hr => ?_⟩
      · cases hMem
        exact ⟨first, by simp, c, hType, rfl⟩
      · cases hr
        simp
    next => exact ⟨nofun, fun r hr => by cases hr; simp⟩

theorem makes_shortProperty (h : b.Told g) (hRule : b.rule = .propertyShorthand) :
    g.Makes (shortProperty b) Statement.nodes := by
  have hParts : ∀ r ∈ (b.operands.drop 1).filter (·.rule? != some .attribute), r ∈ b.parts :=
    fun r hr => b.operands_sublist.subset (List.mem_of_mem_drop (List.mem_filter.1 hr).1)
  obtain ⟨hTypes, hFirst⟩ :=
    mem_of_propertyHead ((b.operands.drop 1).filter (·.rule? != some .attribute))
  have hType : ∀ type ∈ (propertyHead ((b.operands.drop 1).filter (·.rule? != some .attribute))).1,
      g.Drawn type.written := by
    intro type hMem
    obtain ⟨p, hp, c, hBranch, rfl⟩ := hTypes type hMem
    exact h.type (by simp [hRule]) (by simp [hRule]) (hParts p hp) hBranch
  unfold shortProperty
  dsimp only
  split
  · exact .throw _
  next r hSome =>
    split
    · exact .throw_bind _ _
    · refine (names_identifier (h.parts r (hParts r (hFirst r hSome))) _).bind fun name hName => ?_
      refine (tells_attributes h .property).bind fun map hMap => .pure ((g.drawsAll_cons).2 ⟨?_, ?_⟩) ?_
      · refine (g.draws_append).2 ⟨(g.draws_append).2 ⟨hName, ?_⟩, hMap.1⟩
        rw [Ground.draws_map]
        exact fun type hMem => hType type (Option.mem_toList.1 hMem)
      · exact hMap.2
      · simp only [Statement.nodes, Ground.tally_cons, zero_add]
        rfl

/-- Before the word `function` stand words and a return type. -/
theorem tells_functionHead {returnType? : Option Identifier} (hParts : ∀ r ∈ rs, r.Told g)
    (hTokens : ∀ r ∈ rs, ∀ t, r.token? = some t → t ∈ g.tokens)
    (hType : ∀ type ∈ returnType?, g.Drawn type.written) :
    g.Tells 0 (functionHead returnType? rs)
      (fun head => (∀ id ∈ head.modifiers, g.Drawn id.written) ∧
        (∀ type ∈ head.returnType?, g.Drawn type.written) ∧ ∀ r ∈ head.rest, r.Told g)
      fun _ => 0 := by
  induction rs generalizing returnType? with
  | nil => exact .pure ⟨List.forall_mem_nil _, hType, List.forall_mem_nil _⟩ rfl
  | cons r rs ih =>
    have hRest := @ih
    obtain ⟨hr, hRs⟩ := List.forall_mem_cons.1 hParts
    obtain ⟨hToken, hTokens⟩ := List.forall_mem_cons.1 hTokens
    unfold functionHead
    split
    · exact .pure ⟨List.forall_mem_nil _, hType, hRs⟩ rfl
    · split
      next t hSome =>
        refine (ih hRs hTokens hType).bind fun head hHead => .pure ⟨?_, hHead.2⟩ rfl
        exact List.forall_mem_cons.2 ⟨drawn_word (hToken t hSome), hHead.1⟩
      next type _ hBranch =>
        refine ih hRs hTokens fun id hId => ?_
        obtain ⟨hTold, hRule⟩ := Branch.Told.of_branchOf? hr hBranch
        obtain ⟨c, hc, rfl⟩ := Option.map_eq_some_iff.1 hId
        obtain ⟨p, hp, hName⟩ := List.exists_of_findSome?_eq_some hc
        exact hTold.type (by simp [hRule]) (by simp [hRule]) hp hName
      · exact .throw _

theorem makes_function (h : b.Told g) (hRule : b.rule = .functionDeclaration) :
    g.Makes (function b) Statement.nodes := by
  have hTokens : ∀ r ∈ b.parts, ∀ t, r.token? = some t → t ∈ g.tokens := by
    intro r hr t ht
    have hChild : r.tree ∈ b.tree.children := h.children ▸ List.mem_map_of_mem hr
    exact (h.parts r hr).grounded.token t ht (h.tree.heads (hRule ▸ h.rule) r.tree hChild t ht)
  refine (tells_functionHead h.parts hTokens fun _ hNone => by cases hNone).bind fun head hHead => ?_
  obtain ⟨hModifiers, hType, hRest⟩ := hHead
  split
  · exact .throw _
  next r _ hParts =>
    refine (names_identifier (hRest r (by simp [hParts])) _).bind fun name hName => ?_
    refine (accounts_parameters h).bind fun params hParams => ?_
    refine (tells_attributes h .function).bind fun map hMap => ?_
    refine (makes_block? h).bind fun body? hBody => .pure ((g.drawsAll_cons).2 ⟨?_, ?_⟩) ?_
    · refine (g.draws_append).2 ⟨(g.draws_append).2 ⟨(g.draws_append).2 ⟨?_, hName⟩, hParams.1⟩, hMap.1⟩
      rw [Ground.draws_append, Ground.draws_map, Ground.draws_map]
      exact ⟨hModifiers, fun type hMem => hType type (Option.mem_toList.1 hMem)⟩
    · exact (g.drawsAll_append).2 ⟨(g.drawsAll_append).2 ⟨hParams.2, hMap.2⟩, hBody⟩
    · have hFound : Node.validate g.rules (.statement (.function head.modifiers head.returnType? name
          params map body? b.span)) = unaccepted g.rules .function map := rfl
      simp only [Statement.nodes, Ground.tally_cons, Ground.tally_append, hFound]
      abel

/-- The statement of a node whose parts are told. -/
theorem makes_branchStatement (h : b.Told g) : g.Makes (branchStatement b) Statement.nodes := by
  unfold branchStatement
  split
  · refine (makes_statements h.parts).bind fun body hBody => ?_
    exact .pure (by simpa using hBody)
      (by simp)
  · refine (makes_statements h.parts).bind fun body hBody => ?_
    exact .pure (by simpa using hBody)
      (by simp)
  · exact .pure (by simp [statementNodes])
      (by simp [statementNodes])
  · refine (makes_childExpression h 0).bind fun value hValue => ?_
    exact .pure (by simpa using hValue)
      (by simp)
  · exact makes_declaration h
  · exact makes_branching h
  · refine (makes_operandExpression h 1).bind fun condition hCondition => ?_
    refine (makes_operandStatement h 2).bind fun body hBody => ?_
    exact .pure (by simpa using ⟨hCondition, hBody⟩)
      (by simp)
  · exact makes_doLoop h
  · exact makes_forLoop h
  · exact makes_eachLoop h
  · exact makes_select h
  · exact .pure (by simp)
      (by simp)
  · exact .pure (by simp)
      (by simp)
  · refine (makes_valueAfterKeyword h).bind fun value? hValue => ?_
    exact .pure (by simpa using hValue)
      (by simp)
  · refine (makes_valueAfterKeyword h).bind fun value? hValue => ?_
    exact .pure (by simpa using hValue)
      (by simp)
  · refine (makes_valueAfterKeyword h).bind fun value? hValue => ?_
    exact .pure (by simpa using hValue)
      (by simp)
  · refine (makes_operandExpression h 1).bind fun value hValue => ?_
    exact .pure (by simpa using hValue)
      (by simp)
  · exact makes_tryStatement h
  · refine tells_bind_pick (fun r hr => ?_) 1
    refine (names_path (h.operands r hr) _).bind fun path hPath => ?_
    exact .pure ((g.drawsAll_cons).2 ⟨hPath, by simp⟩)
      (by simp)
  · exact makes_component h .component
  · exact makes_component h .interface
  · exact makes_tag h
  · refine (tells_attributes h .property).bind fun map hMap => ?_
    refine .pure ((g.drawsAll_cons).2 ⟨?_, hMap.2⟩) ?_
    · simpa [Property.texts, Property.name?, Property.type?] using hMap.1
    · simp only [Statement.nodes, Ground.tally_cons, zero_add]
      rfl
  next hRule => exact makes_shortProperty h hRule
  next hRule => exact makes_function h hRule
  · exact .throw _

end Build

end CfScript
