import CfScript.Proofs.Contents

/-!
# What builds give stands where it was read

In a tree without errors every node stands somewhere, but for a name that was assumed as a whole. A
build gives its node the span of the tree node that it reads, or that of a part of it, and takes what
it holds from further down. So what a build gives fits the span of what it reads, step by step.

## Main results

* `Reading.Framed`: readings whose builds give what fits;
* `fits_branchExpression`, `fits_branchStatement`: so does a node whose parts do.
-/

namespace CfScript

open Build
open Content (AllFit fits_name fits_expression fits_statement fits_bare allFit_nil allFit_cons allFit_append
  allFit_flatMap)

/-! ## Readings -/

/-- What is known of where a part of a whole tree stands. -/
structure Tree.Framed (t : Tree) : Prop where
  token : ∀ u, t.token? = some u → u.isEnd = false → u.span.IsFilled
  node : ∀ rule, t.rule? = some rule → rule ≠ .typeName → t.span.IsFilled
  /-- Only a class and an import may lack their names. -/
  titled : ∀ rule, t.rule? = some rule → rule ≠ .newExpression → rule ≠ .importStatement →
    ∀ c ∈ t.children, c.rule? = some .typeName → c.span.IsFilled
  /-- The end of the input is no word in front of a function. -/
  heads : t.rule? = some .functionDeclaration → ∀ c ∈ t.children, ∀ u, c.token? = some u →
    u.isEnd = false

namespace Build

/-- A build of contents that fit a span. -/
abbrev Fit {α : Type} (b : Build α) (contents : α → List Content) (s : Span) : Prop :=
  b.Ensures fun a => AllFit (contents a) s

/-- A build of an expression that fits a span. -/
abbrev FitExpression (b : Build Expression) (s : Span) : Prop :=
  b.Ensures fun e => Content.Fits (.expression e) s

/-- A build of a statement that fits a span. -/
abbrev FitStatement (b : Build Statement) (s : Span) : Prop :=
  b.Ensures fun a => Content.Fits (.statement a) s

end Build

/-- A reading of such a tree whose builds give what fits it, and those of its parts. -/
inductive Reading.Framed : Reading → Prop
  | mk {tree : Tree} {parts : List Reading} {statement : Build Statement}
      {expression : Build Expression} : tree.Framed → parts.map (·.tree) = tree.children →
      (∀ p ∈ parts, p.Framed) → FitStatement statement tree.extent →
      FitExpression expression tree.extent → Framed (.mk tree parts statement expression)

/-- A branch of such a tree with such parts. -/
structure Branch.Framed (b : Branch) : Prop where
  rule : b.tree.rule? = some b.rule
  tree : b.tree.Framed
  children : b.parts.map (·.tree) = b.tree.children
  parts : ∀ p ∈ b.parts, p.Framed

namespace Reading.Framed

variable {r : Reading}

theorem tree (h : r.Framed) : r.tree.Framed := by
  cases h with
  | mk hTree => exact hTree

theorem statement (h : r.Framed) : FitStatement r.statement r.tree.extent := by
  cases h with
  | mk _ _ _ hStatement => exact hStatement

theorem expression (h : r.Framed) : FitExpression r.expression r.tree.extent := by
  cases h with
  | mk _ _ _ _ hExpression => exact hExpression

/-- The branch of a node that is read. -/
theorem branch {rule : Rule} (h : r.Framed) (hRule : r.rule? = some rule) :
    Branch.Framed ⟨rule, r.tree, r.parts⟩ := by
  cases h with
  | mk hTree hChildren hParts => exact ⟨hRule, hTree, hChildren, hParts⟩

end Reading.Framed

namespace Branch.Framed

variable {b c : Branch} {r : Reading} {rule : Rule}

theorem filled (h : b.Framed) (hRule : b.rule ≠ .typeName) : b.span.IsFilled :=
  h.tree.node b.rule h.rule hRule

theorem within (h : b.Framed) (hr : r ∈ b.parts) : r.tree.extent.Within b.span :=
  Tree.extent_within (h.children ▸ List.mem_map_of_mem hr)

theorem expression (h : b.Framed) (hr : r ∈ b.parts) : FitExpression r.expression b.span :=
  (h.parts r hr).expression.imp fun _ he => he.mono (h.within hr)

theorem statement (h : b.Framed) (hr : r ∈ b.parts) : FitStatement r.statement b.span :=
  (h.parts r hr).statement.imp fun _ hs => hs.mono (h.within hr)

theorem of_branchOf? (h : r.Framed) (hBranch : r.branchOf? rule = some c) :
    c.Framed ∧ c.rule = rule ∧ c.tree = r.tree := by
  obtain ⟨hRule, rfl⟩ := Reading.eq_of_branchOf? hBranch
  exact ⟨h.branch hRule, rfl, rfl⟩

/-- A part that is a node stands in the branch. -/
theorem inner (h : b.Framed) (hr : r ∈ b.parts) (hBranch : r.branchOf? rule = some c) :
    c.Framed ∧ c.rule = rule ∧ c.span.Within b.span := by
  obtain ⟨hc, hRule, hTree⟩ := of_branchOf? (h.parts r hr) hBranch
  refine ⟨hc, hRule, ?_⟩
  rw [Branch.span, ← Tree.extent_of_rule? hc.rule, hTree]
  exact h.within hr

theorem nodes (h : b.Framed) (hc : c ∈ b.nodes rule) :
    c.Framed ∧ c.rule = rule ∧ c.span.Within b.span := by
  obtain ⟨r, hr, hBranch⟩ := List.mem_filterMap.1 hc
  exact h.inner hr hBranch

theorem node? (h : b.Framed) (hc : b.node? rule = some c) :
    c.Framed ∧ c.rule = rule ∧ c.span.Within b.span := by
  obtain ⟨r, hr, hBranch⟩ := List.exists_of_findSome?_eq_some hc
  exact h.inner hr hBranch

/-- A part that is a node of any rule stands in the branch. -/
theorem branch? (h : b.Framed) (hr : r ∈ b.parts) (hBranch : r.branch? = some c) :
    c.Framed ∧ c.span.Within b.span := by
  obtain ⟨rule, hRule, rfl⟩ := Option.map_eq_some_iff.1 hBranch
  refine ⟨(h.parts r hr).branch hRule, ?_⟩
  have hWithin := h.within hr
  rwa [Tree.extent_of_rule? hRule] at hWithin

theorem mem_operands (hr : r ∈ b.operands) : r ∈ b.parts := b.operands_sublist.subset hr

/-- The name of a type stands in the branch, unless it is that of a class or of an import. -/
theorem type (h : b.Framed) (hNew : b.rule ≠ .newExpression) (hImport : b.rule ≠ .importStatement)
    (hr : r ∈ b.parts) (hType : r.branchOf? .typeName = some c) :
    Content.Fits (.name c.identifier) b.span := by
  obtain ⟨hc, hRule, hWithin⟩ := h.inner hr hType
  obtain ⟨-, -, hTree⟩ := of_branchOf? (h.parts r hr) hType
  have hFilled : c.span.IsFilled := h.tree.titled b.rule h.rule hNew hImport c.tree
    (h.children ▸ hTree ▸ List.mem_map_of_mem hr) (hRule ▸ hc.rule)
  exact fits_name (hWithin _ hFilled.inside)

end Branch.Framed

/-! ## Steps of builds -/

namespace Build

variable {α β : Type} {b : Branch} {rs : List Reading} {r : Reading} {P : α → Prop}

theorem ensures_bind_pick {f : Reading → Build α} (h : ∀ r ∈ rs, Ensures (f r) P) (i : Nat) :
    Ensures (b.pick rs i >>= f) P := by
  unfold Branch.pick
  cases hPart : rs[i]? with
  | none => exact ensures_throw_bind _ f
  | some r =>
    rw [pure_bind]
    exact h r (List.mem_of_getElem? hPart)

theorem fits_childExpression (h : b.Framed) (i : Nat) : FitExpression (b.childExpression i) b.span :=
  ensures_bind_pick (fun _ hr => h.expression hr) i

theorem fits_operandExpression (h : b.Framed) (i : Nat) :
    FitExpression (b.operandExpression i) b.span :=
  ensures_bind_pick (fun _ hr => h.expression (Branch.Framed.mem_operands hr)) i

theorem fits_operandStatement (h : b.Framed) (i : Nat) :
    FitStatement (b.operandStatement i) b.span :=
  ensures_bind_pick (fun _ hr => h.statement (Branch.Framed.mem_operands hr)) i

/-- A token that is read stands where its leaf does. -/
theorem fits_token {t : Tree} (h : t.Framed) {u : Token} (hToken : t.token? = some u)
    (hOpen : u.isEnd = false) : Content.Fits (.name (wordIdentifier u)) t.extent := by
  have hLeaf : t = .token u := by
    cases t with
    | node rule cs => cases hToken
    | leaf l =>
      cases l <;> cases hToken
      rfl
  rw [hLeaf, Tree.extent_token hOpen]
  exact fits_name (h.token u hToken hOpen).inside

theorem ensures_word (h : r.Framed) (what : String) :
    Ensures (word what r) fun t => Content.Fits (.name (wordIdentifier t)) r.tree.extent := by
  unfold word
  split
  next t hTree =>
    split
    next hWord =>
      exact ensures_pure (fits_token h.tree (by rw [hTree]; rfl) (isEnd_of_isWord hWord))
    next => exact ensures_throw _
  · exact ensures_throw _
  · exact ensures_throw _

/-- A name by itself. -/
theorem fits_ofIdentifier {id : Identifier} {s : Span} (h : Content.Fits (.name id) s) :
    Content.Fits (.expression (.ofIdentifier id)) s := by
  have hSelf : Content.Fits (.name id) id.span := fits_name h.inside.filled.inside
  have hFits : Content.Fits (.expression (.ofIdentifier id)) id.span :=
    fits_expression rfl h.inside.filled (by simpa [Expression.ofIdentifier, Expression.contents] using hSelf)
  exact ⟨h.inside, hFits.nests⟩

/-- A name that is read at a part. -/
theorem ensures_identifier (h : b.Framed) (hr : r ∈ b.parts) (what : String) :
    Ensures (identifier what r) fun id => Content.Fits (.name id) b.span :=
  (ensures_word (h.parts r hr) what).map fun _ ht => ht.mono (h.within hr)

theorem fits_statements {s : Span} (h : ∀ r ∈ rs, FitStatement r.statement s) :
    Fit (statements rs) (·.map .statement) s := by
  induction rs with
  | nil => exact ensures_pure (by simp)
  | cons r rs ih =>
    have hRest := ih fun r hr => h r (by simp [hr])
    unfold statements
    split
    · exact hRest
    · exact hRest
    · refine ((h r (by simp)).orLeaveOut _ _).bind fun s? hs => ?_
      refine hRest.bind fun ss hss => ensures_pure ?_
      simpa [or_imp, forall_and] using ⟨hs, by simpa using hss⟩

theorem fits_block? (h : b.Framed) : Fit (block? b) bodyContents b.span := by
  have hBlock : ∀ c ∈ b.node? .block, Fit (statements c.parts) (·.map .statement) b.span := by
    intro c hc
    obtain ⟨hFramed, -, hWithin⟩ := h.node? hc
    exact (fits_statements fun _ hr => hFramed.statement hr).imp fun _ hss => hss.mono hWithin
  refine (Ensures.optional hBlock).imp fun body? hBody => ?_
  cases body? with
  | none => simp [bodyContents]
  | some body => exact hBody body rfl

theorem fits_block (h : b.Framed) : Fit (block b) (·.map .statement) b.span := by
  refine (fits_block? h).bind fun body? hBody => ?_
  cases body? with
  | none => exact ensures_throw _
  | some body => exact ensures_pure hBody

/-! ## Attributes -/

theorem fits_gather (owner : String) {bs : List Branch} (h : b.Framed)
    (hNodes : ∀ c ∈ bs, c ∈ b.nodes .attribute) {fresh : List Token} {map : AttributeMap Expression}
    (hMap : AllFit map.contents b.span) :
    Fit (gather owner bs fresh map) (·.2.contents) b.span := by
  induction bs generalizing fresh map with
  | nil => exact ensures_pure hMap
  | cons c bs ih =>
    have hRest := @ih fun c hc => hNodes c (by simp [hc])
    obtain ⟨hc, -, hWithin⟩ := h.nodes (hNodes c (by simp))
    refine ensures_bind_pick (fun r hr => ?_) 0
    refine (ensures_word (hc.parts r hr) _).bind fun word hWord => ?_
    refine (fits_childExpression hc 2).bind fun value hValue => ?_
    have hName : Content.Fits (.name (wordIdentifier word)) b.span :=
      (hWord.mono (hc.within hr)).mono hWithin
    have hInsert : AllFit (map.insert (wordIdentifier word) value).2.contents b.span := by
      simp only [AttributeMap.contents, allFit_flatMap, allFit_cons, allFit_nil, and_true] at hMap ⊢
      exact AttributeMap.forall_insert hMap (fun a ha => ⟨(hMap a ha).1, hValue.mono hWithin⟩)
        ⟨hName, hValue.mono hWithin⟩
    dsimp only
    split
    next hSplit =>
      rw [hSplit] at hInsert
      exact hRest hInsert
    next hSplit =>
      rw [hSplit] at hInsert
      exact (ensures_any _).bind fun _ _ => (ensures_any _).bind fun _ _ => hRest hInsert

theorem fits_gathered (owner : String) (h : b.Framed) :
    Fit (gather owner (b.nodes .attribute) [] .empty) (·.2.contents) b.span :=
  fits_gather owner h (fun _ hc => hc) (by simp [AttributeMap.contents, AttributeMap.empty])

theorem fits_attributes (h : b.Framed) (element : Element) :
    Fit (attributes element b) AttributeMap.contents b.span := by
  refine (fits_gathered element.word h).bind fun r hr => (ensures_any _).bind fun _ _ => ?_
  exact (ensures_any _).bind fun _ _ => ensures_pure hr

theorem fits_parameterAttributes (h : b.Framed) :
    Fit (parameterAttributes b) AttributeMap.contents b.span :=
  (fits_gathered "parameter" h).map fun _ hr => hr

/-! ## Parameters and arguments -/

theorem fits_some {e : Build α} {f : α → Content} {s : Span} (h : e.Ensures fun a => (f a).Fits s) :
    Fit (some <$> e) (·.toList.map f) s :=
  h.map fun a ha => by simpa using ha

/-- What follows the modifier and the type of a parameter. -/
theorem fits_named (h : b.Framed) (hParts : ∀ r ∈ rs, r ∈ b.parts) (required : Bool)
    {type? : Option Identifier} (hType : ∀ type ∈ type?, Content.Fits (.name type) b.span) :
    Fit (do
      let name ← identifier "parameter name" (← b.pick rs 0)
      let default? ←
        if rs[1]?.any (·.isToken (.symbol .assign)) then
          some <$> (do (← b.pick rs 2).expression)
        else pure none
      return ({ required, type?, name, default?, attributes := ← parameterAttributes b } :
        Parameter Expression)) Parameter.contents b.span := by
  refine ensures_bind_pick (fun r hr => (ensures_identifier h (hParts r hr) _).bind fun name hName => ?_) 0
  have hRest (default? : Option Expression)
      (hDefault : AllFit (default?.toList.map .expression) b.span) :
      Fit (do
        return ({ required, type?, name, default?, attributes := ← parameterAttributes b } :
          Parameter Expression)) Parameter.contents b.span := by
    refine (fits_parameterAttributes h).bind fun map hMap => ensures_pure ?_
    simp only [Parameter.contents, allFit_append, allFit_cons, Content.allFit_map, Option.mem_toList]
    exact ⟨hType, hName, by simpa using hDefault, hMap⟩
  dsimp only
  split
  · exact (fits_some (ensures_bind_pick (fun r hr => h.expression (hParts r hr)) 2)).bind hRest
  · exact hRest none (by simp)

theorem fits_parameter (h : b.Framed) (hRule : b.rule = .parameter) :
    Fit (parameter b) Parameter.contents b.span := by
  have hParts : ∀ r ∈ b.parts.filter (·.rule? != some .attribute), r ∈ b.parts := fun r hr =>
    (List.mem_filter.1 hr).1
  have hAfter := forall_mem_dropIf hParts
    (isRequired (b.parts.filter (·.rule? != some .attribute)) = true)
  refine fits_named h (forall_mem_dropIf hAfter _) _ fun type hType => ?_
  obtain ⟨c, hc, rfl⟩ := Option.map_eq_some_iff.1 hType
  obtain ⟨r, hHead, hBranch⟩ := Option.bind_eq_some_iff.1 hc
  exact h.type (by simp [hRule]) (by simp [hRule]) (hAfter r (List.mem_of_mem_head? hHead)) hBranch

theorem fits_parameterList (h : b.Framed) :
    Fit (all parameter (b.nodes .parameter)) (·.flatMap (·.contents)) b.span := by
  have hAll : ∀ c ∈ b.nodes .parameter, Fit (parameter c) Parameter.contents b.span := fun c hc => by
    obtain ⟨hFramed, hRule, hWithin⟩ := h.nodes hc
    exact (fits_parameter hFramed hRule).imp fun _ hp => hp.mono hWithin
  exact (Ensures.all hAll).imp fun params hParams => allFit_flatMap.2 hParams

theorem fits_parameters (h : b.Framed) :
    Fit (parameters b) (·.flatMap (·.contents)) b.span := by
  unfold parameters
  split
  next list hList =>
    obtain ⟨hFramed, -, hWithin⟩ := h.node? hList
    exact (fits_parameterList hFramed).imp fun _ hParams => hParams.mono hWithin
  next => exact ensures_pure (by simp)

theorem fits_argument (h : b.Framed) : Fit (argument b) Argument.contents b.span := by
  unfold argument
  split
  · refine ensures_bind_pick (fun r hr => (ensures_identifier h hr _).bind fun name hName => ?_) 0
    refine (fits_childExpression h 2).bind fun value hValue => ensures_pure ?_
    simpa [Argument.contents] using ⟨hName, hValue⟩
  · refine (fits_childExpression h 0).bind fun value hValue => ensures_pure ?_
    simpa [Argument.contents] using hValue

theorem fits_arguments (h : b.Framed) : Fit (arguments b) (·.flatMap (·.contents)) b.span := by
  unfold arguments
  split
  next list hList =>
    obtain ⟨hFramed, -, hWithin⟩ := h.node? hList
    have hAll : ∀ c ∈ list.nodes .argument, Fit (argument c) Argument.contents b.span := fun c hc => by
      obtain ⟨hArgument, -, hInner⟩ := hFramed.nodes hc
      exact (fits_argument hArgument).imp fun _ ha => (ha.mono hInner).mono hWithin
    exact (Ensures.all hAll).imp fun args hArgs => allFit_flatMap.2 hArgs
  next => exact ensures_pure (by simp)

theorem fits_key (h : b.Framed) (hr : r ∈ b.parts) : FitExpression (key r) b.span := by
  unfold key
  split
  next t hToken =>
    split
    next hWord =>
      have hName := fits_token (h.parts r hr).tree hToken (isEnd_of_isWord hWord)
      exact ensures_pure ((fits_ofIdentifier hName).mono (h.within hr))
    next => exact h.expression hr
  next => exact h.expression hr

theorem fits_structEntry (h : b.Framed) : Fit (structEntry b) StructEntry.contents b.span := by
  refine ensures_bind_pick (fun r hr => (fits_key h hr).bind fun key hKey => ?_) 0
  refine ensures_bind_pick (fun _ _ => (fits_childExpression h 2).bind fun value hValue => ?_) 1
  exact ensures_pure (by simpa [StructEntry.contents] using ⟨hKey, hValue⟩)

/-! ## Expressions -/

attribute [local simp] Expression.contents Statement.contents

/-- The expression of a token stands where the token does. -/
theorem fits_tokenExpression {t : Token} (h : t.isEnd = false → t.span.IsFilled) :
    FitExpression (tokenExpression t) t.span := by
  unfold tokenExpression
  split
  next hKind => exact ensures_pure (fits_expression rfl (h (by simp [Token.isEnd, hKind])) (by simp))
  next hKind => exact ensures_pure (fits_expression rfl (h (by simp [Token.isEnd, hKind])) (by simp))
  next hKind =>
    unfold string
    dsimp only
    split
    · exact ensures_pure (fits_expression rfl (h (by simp [Token.isEnd, hKind])) (by simp))
    · exact ensures_throw _
  next hKind => exact ensures_pure (fits_expression rfl (h (by simp [Token.isEnd, hKind])) (by simp))
  next hKind => exact ensures_pure (fits_expression rfl (h (by simp [Token.isEnd, hKind])) (by simp))
  next hKind => exact ensures_pure (fits_expression rfl (h (by simp [Token.isEnd, hKind])) (by simp))
  · split
    next hWord =>
      exact ensures_pure (fits_ofIdentifier (fits_name (h (isEnd_of_isWord hWord)).inside))
    next => exact ensures_throw _

theorem fits_leafExpression {l : Leaf} (h : (Tree.leaf l).Framed) :
    FitExpression (leafExpression l) (Tree.leaf l).extent := by
  cases l with
  | matched t =>
    intro rules log e he
    by_cases hEnd : t.isEnd = true
    · have hKind : t.kind = .endOfInput := by simpa [Token.isEnd] using hEnd
      simp only [leafExpression, tokenExpression, hKind] at he
      cases he
    · have hOpen : t.isEnd = false := by simpa using hEnd
      have hExtent := Tree.extent_token hOpen
      exact hExtent ▸ fits_tokenExpression (h.token t rfl) rules log e he
  | skipped t => exact ensures_throw _
  | assumed what => exact ensures_throw _

theorem fits_leafStatement (l : Leaf) (s : Span) : FitStatement (leafStatement l) s := by
  cases l <;> exact ensures_throw _

theorem fits_binary (h : b.Framed) (hFilled : b.span.IsFilled) : FitExpression (binary b) b.span := by
  unfold binary
  split
  next first second rest hParts =>
    have hLast : (second :: rest).getLast?.getD second ∈ b.parts := by
      rw [List.getLast?_eq_some_getLast (List.cons_ne_nil _ _), Option.getD_some, hParts]
      exact List.mem_cons_of_mem _ (List.getLast_mem _)
    refine (ensures_any _).bind fun op _ => ?_
    refine (h.expression (by simp [hParts])).bind fun left hLeft => ?_
    refine (h.expression hLast).bind fun right hRight => ?_
    exact ensures_pure (fits_expression rfl hFilled (by simpa using ⟨hLeft, hRight⟩))
  next => exact ensures_throw _

theorem fits_arrowParameters (h : b.Framed) (hr : r ∈ b.parts) :
    Fit (arrowParameters r) (·.flatMap (·.contents)) b.span := by
  unfold arrowParameters
  split
  next t hToken =>
    split
    next hWord =>
      have hName := fits_token (h.parts r hr).tree hToken (isEnd_of_isWord hWord)
      refine ensures_pure ?_
      simpa [Parameter.contents, AttributeMap.contents] using hName.mono (h.within hr)
    next => exact ensures_throw _
  next list _ hList =>
    obtain ⟨hFramed, -, hWithin⟩ := h.inner hr hList
    exact (fits_parameterList hFramed).imp fun _ hParams => hParams.mono hWithin
  · exact ensures_throw _

theorem fits_arrow (h : b.Framed) (hFilled : b.span.IsFilled) : FitExpression (arrow b) b.span := by
  refine ensures_bind_pick (fun first hFirst => ?_) 0
  refine (fits_arrowParameters h hFirst).bind fun params hParams => ?_
  have hLast : b.parts.getLast?.getD first ∈ b.parts :=
    List.forall_mem_cons.2 ⟨hFirst, fun _ hr => hr⟩ _ (mem_getLast?_getD first b.parts)
  dsimp only
  split
  next block hBlock =>
    obtain ⟨hFramed, -, hWithin⟩ := h.inner hLast hBlock
    refine (fits_statements fun _ hr => hFramed.statement hr).bind fun body hBody => ?_
    exact ensures_pure (fits_expression rfl hFilled (allFit_append.2 ⟨hParams, hBody.mono hWithin⟩))
  next =>
    refine (h.expression hLast).bind fun value hValue => ?_
    exact ensures_pure (fits_expression rfl hFilled (allFit_append.2 ⟨hParams, by simpa using hValue⟩))

/-- The expression of a node whose parts are framed. -/
theorem fits_branchExpression (h : b.Framed) : FitExpression (branchExpression b) b.span := by
  have hChild := fits_childExpression h
  by_cases hType : b.rule = .typeName
  · rw [branchExpression, hType]
    exact ensures_throw _
  have hFilled := h.filled hType
  unfold branchExpression
  split
  · refine ensures_bind_pick (fun _ _ => (ensures_any _).bind fun op _ => ?_) 1
    refine (hChild 0).bind fun target hTarget => (hChild 2).bind fun value hValue => ?_
    exact ensures_pure (fits_expression rfl hFilled (by simpa using ⟨hTarget, hValue⟩))
  · refine (hChild 0).bind fun condition hCondition => (hChild 2).bind fun yes hYes => ?_
    refine (hChild 4).bind fun no hNo => ?_
    exact ensures_pure (fits_expression rfl hFilled (by simpa using ⟨hCondition, hYes, hNo⟩))
  · refine (hChild 0).bind fun value hValue => (hChild 2).bind fun default hDefault => ?_
    exact ensures_pure (fits_expression rfl hFilled (by simpa using ⟨hValue, hDefault⟩))
  · exact fits_binary h hFilled
  · refine ensures_bind_pick (fun _ _ => (ensures_any _).bind fun op _ => ?_) 0
    refine (hChild 1).bind fun operand hOperand => ?_
    exact ensures_pure (fits_expression rfl hFilled (by simpa using hOperand))
  · refine ensures_bind_pick (fun _ _ => ?_) 1
    split
    · refine (hChild 0).bind fun operand hOperand => ?_
      exact ensures_pure (fits_expression rfl hFilled (by simpa using hOperand))
    · exact ensures_throw _
  · refine (hChild 1).bind fun inner hInner => ?_
    exact ensures_pure (fits_expression rfl hFilled (by simpa using hInner))
  · refine (hChild 0).bind fun callee hCallee => (fits_arguments h).bind fun args hArgs => ?_
    exact ensures_pure (fits_expression rfl hFilled (allFit_cons.2 ⟨hCallee, hArgs⟩))
  · refine ensures_bind_pick (fun _ _ => (hChild 0).bind fun object hObject => ?_) 1
    refine ensures_bind_pick (fun r hr => ?_) 2
    refine (ensures_identifier h hr _).bind fun property hProperty => ?_
    exact ensures_pure (fits_expression rfl hFilled (by simpa using ⟨hObject, hProperty⟩))
  · refine (hChild 0).bind fun object hObject => (hChild 2).bind fun place hPlace => ?_
    exact ensures_pure (fits_expression rfl hFilled (by simpa using ⟨hObject, hPlace⟩))
  · refine (Ensures.all fun r hr => h.expression (Branch.Framed.mem_operands hr)).bind
      fun items hItems => ?_
    exact ensures_pure (fits_expression rfl hFilled (by simpa using hItems))
  · have hEntry : ∀ c ∈ b.nodes .structEntry, Fit (structEntry c) StructEntry.contents b.span := by
      intro c hc
      obtain ⟨hFramed, -, hWithin⟩ := h.nodes hc
      exact (fits_structEntry hFramed).imp fun _ he => he.mono hWithin
    refine (Ensures.all hEntry).bind fun entries hEntries => ?_
    exact ensures_pure (fits_expression rfl hFilled (allFit_flatMap.2 hEntries))
  · refine ensures_bind_pick (fun _ _ => (ensures_any _).bind fun className _ => ?_) 1
    refine (fits_arguments h).bind fun args hArgs => ?_
    exact ensures_pure (fits_expression rfl hFilled hArgs)
  · refine (fits_parameters h).bind fun params hParams => (fits_block h).bind fun body hBody => ?_
    exact ensures_pure (fits_expression rfl hFilled (allFit_append.2 ⟨hParams, hBody⟩))
  · exact fits_arrow h hFilled
  · exact ensures_throw _

/-! ## Statements -/

theorem fits_valueAfterKeyword (h : b.Framed) :
    Fit (valueAfterKeyword b) (·.toList.map .expression) b.span := by
  refine (Ensures.optional fun r hr => ?_).imp fun value? hValue => by simpa using hValue
  exact h.expression (Branch.Framed.mem_operands (List.mem_of_getElem? hr))

theorem fits_declaration (h : b.Framed) (hFilled : b.span.IsFilled) :
    FitStatement (declaration b) b.span := by
  refine ensures_bind_pick (fun r hr => ?_) 1
  refine (ensures_identifier h (Branch.Framed.mem_operands hr) _).bind fun name hName => ?_
  have hRest (value? : Option Expression) (hValue : AllFit (value?.toList.map .expression) b.span) :
      FitStatement (pure (.declare name value? b.span)) b.span :=
    ensures_pure (fits_statement rfl hFilled (allFit_cons.2 ⟨hName, hValue⟩))
  dsimp only
  split
  · exact (fits_some (fits_operandExpression h 3)).bind hRest
  · exact hRest none (by simp)

theorem fits_branching (h : b.Framed) (hFilled : b.span.IsFilled) :
    FitStatement (branching b) b.span := by
  refine (fits_operandExpression h 1).bind fun condition hCondition => ?_
  refine (fits_operandStatement h 2).bind fun thenBranch hThen => ?_
  have hRest (elseBranch? : Option Statement)
      (hElse : AllFit (elseBranch?.toList.map .statement) b.span) :
      FitStatement (pure (.branch condition thenBranch elseBranch? b.span)) b.span :=
    ensures_pure (fits_statement rfl hFilled
      (allFit_cons.2 ⟨hCondition, allFit_cons.2 ⟨hThen, hElse⟩⟩))
  dsimp only
  split
  · exact (fits_some (fits_operandStatement h 4)).bind hRest
  · exact hRest none (by simp)

theorem fits_doLoop (h : b.Framed) (hFilled : b.span.IsFilled) : FitStatement (doLoop b) b.span := by
  refine (fits_operandStatement h 1).bind fun body hBody => ?_
  split
  next c rest hParts =>
    have hLast : rest.getLast?.getD c ∈ b.operands := by
      rw [hParts]
      exact List.mem_cons_of_mem _ (List.mem_cons_of_mem _ (mem_getLast?_getD c rest))
    refine (h.expression (Branch.Framed.mem_operands hLast)).bind fun condition hCondition => ?_
    exact ensures_pure (fits_statement rfl hFilled (by simpa using ⟨hBody, hCondition⟩))
  next => exact ensures_throw _

theorem fits_loopStart (h : b.Framed) (hr : r ∈ b.parts) : FitStatement (loopStart r) b.span := by
  unfold loopStart
  split
  · exact h.statement hr
  · exact (h.expression hr).bind fun value hValue => ensures_pure (fits_bare hValue)

theorem fits_optional {f : Reading → Build α} {g : α → Content} {s : Span} {r? : Option Reading}
    (h : ∀ r ∈ r?, (f r).Ensures fun a => (g a).Fits s) :
    Fit (optional f r?) (·.toList.map g) s :=
  (Ensures.optional h).imp fun a? ha => by simpa using ha

theorem fits_forLoop (h : b.Framed) (hFilled : b.span.IsFilled) : FitStatement (forLoop b) b.span := by
  unfold forLoop
  split
  next => exact ensures_throw _
  next body hBody =>
    have hClause (i : Nat) :
        ∀ r ∈ (clauses (b.parts.dropLast.drop 2) none)[i]?.join, r ∈ b.parts := by
      intro r hr
      have hMem := List.mem_of_getElem? (Option.join_eq_some_iff.1 hr)
      exact List.dropLast_subset _ (List.mem_of_mem_drop
        ((mem_of_mem_clauses hMem).resolve_left nofun))
    refine (fits_optional fun r hr => fits_loopStart h (hClause 0 r hr)).bind fun init? hInit => ?_
    refine (fits_optional fun r hr => h.expression (hClause 1 r hr)).bind
      fun condition? hCondition => ?_
    refine (fits_optional fun r hr => h.expression (hClause 2 r hr)).bind fun update? hUpdate => ?_
    refine (h.statement (List.mem_of_getLast? hBody)).bind fun body hBody => ?_
    refine ensures_pure (fits_statement rfl hFilled ?_)
    rw [Statement.contents, allFit_append, allFit_append, allFit_append]
    exact ⟨⟨⟨hInit, hCondition⟩, hUpdate⟩, by simpa using hBody⟩

theorem fits_eachLoop (h : b.Framed) (hFilled : b.span.IsFilled) :
    FitStatement (eachLoop b) b.span := by
  refine (fits_operandExpression h _).bind fun target hTarget => ?_
  refine (fits_operandExpression h _).bind fun collection hCollection => ?_
  refine (fits_operandStatement h _).bind fun body hBody => ?_
  exact ensures_pure (fits_statement rfl hFilled (by simpa using ⟨hTarget, hCollection, hBody⟩))

theorem fits_switchClauses {bs : List Branch} {s : Span}
    (h : ∀ c ∈ bs, c.Framed ∧ c.span.Within s) {default? : Option (List Statement)}
    (hDefault : AllFit (bodyContents default?) s) :
    Fit (switchClauses bs default?) (fun r => r.1.flatMap (·.contents) ++ bodyContents r.2) s := by
  induction bs generalizing default? with
  | nil => exact ensures_pure hDefault
  | cons c bs ih =>
    have hRest := @ih fun c hc => h c (by simp [hc])
    obtain ⟨hc, hWithin⟩ := h c (by simp)
    unfold switchClauses
    split
    next =>
      refine (fits_childExpression hc 1).bind fun value hValue => ?_
      refine (fits_statements fun r hr => hc.statement (List.mem_of_mem_drop hr)).bind fun body hBody => ?_
      refine (hRest hDefault).bind fun r hr => ensures_pure ?_
      obtain ⟨hCases, hRest⟩ := allFit_append.1 hr
      have hCase : AllFit (SwitchCase.contents ⟨value, body⟩) s :=
        allFit_cons.2 ⟨hValue.mono hWithin, hBody.mono hWithin⟩
      exact allFit_append.2 ⟨allFit_append.2 ⟨hCase, hCases⟩, hRest⟩
    next =>
      refine (fits_statements fun r hr => hc.statement (List.mem_of_mem_drop hr)).bind fun body hBody => ?_
      exact hRest (hBody.mono hWithin)
    next => exact hRest hDefault

theorem fits_select (h : b.Framed) (hFilled : b.span.IsFilled) : FitStatement (select b) b.span := by
  refine (fits_operandExpression h 1).bind fun subject hSubject => ?_
  have hClauses : ∀ c ∈ b.parts.filterMap (·.branch?), c.Framed ∧ c.span.Within b.span := by
    intro c hc
    obtain ⟨r, hr, hBranch⟩ := List.mem_filterMap.1 hc
    exact h.branch? hr hBranch
  have hNone : AllFit (bodyContents none) b.span := by simp [bodyContents]
  refine (fits_switchClauses hClauses hNone).bind fun r hr => ?_
  exact ensures_pure (fits_statement rfl hFilled (allFit_cons.2 ⟨hSubject, hr⟩))

theorem fits_catchClause (h : b.Framed) : Fit (catchClause b) CatchClause.contents b.span := by
  unfold catchClause
  dsimp only
  split
  · exact ensures_throw _
  next r hPart =>
    have hr := Branch.Framed.mem_operands (List.mem_of_getElem? hPart)
    refine (ensures_identifier h hr _).bind fun name hName => ?_
    refine (fits_block h).bind fun body hBody => ?_
    exact ensures_pure (allFit_cons.2 ⟨hName, hBody⟩)

theorem fits_tryStatement (h : b.Framed) (hFilled : b.span.IsFilled) :
    FitStatement (tryStatement b) b.span := by
  refine (fits_block h).bind fun body hBody => ?_
  have hCatch : ∀ c ∈ b.nodes .catchClause, Fit (catchClause c) CatchClause.contents b.span := by
    intro c hc
    obtain ⟨hFramed, -, hWithin⟩ := h.nodes hc
    exact (fits_catchClause hFramed).imp fun _ hContents => hContents.mono hWithin
  refine (Ensures.all hCatch).bind fun catches hCatches => ?_
  have hFinally : ∀ c ∈ b.node? .finallyClause, Fit (block c) (·.map .statement) b.span := by
    intro c hc
    obtain ⟨hFramed, -, hWithin⟩ := h.node? hc
    exact (fits_block hFramed).imp fun _ hBody => hBody.mono hWithin
  refine (Ensures.optional hFinally).bind fun finally? hFinally => ?_
  have hLast : AllFit (bodyContents finally?) b.span := by
    cases finally? with
    | none => simp [bodyContents]
    | some body => exact hFinally body rfl
  exact ensures_pure (fits_statement rfl hFilled
    (allFit_append.2 ⟨allFit_append.2 ⟨hBody, allFit_flatMap.2 hCatches⟩, hLast⟩))

theorem fits_component (h : b.Framed) (hFilled : b.span.IsFilled) (kind : ComponentKind) :
    FitStatement (component kind b) b.span := by
  refine (fits_attributes h _).bind fun map hMap => (fits_block? h).bind fun body? hBody => ?_
  exact ensures_pure (fits_statement rfl hFilled (allFit_append.2 ⟨hMap, hBody⟩))

theorem fits_tag (h : b.Framed) (hFilled : b.span.IsFilled) : FitStatement (tag b) b.span := by
  refine ensures_bind_pick (fun first _ => ?_) 0
  split
  · exact ensures_throw _
  · refine (fits_attributes h _).bind fun map hMap => (fits_block? h).bind fun body? hBody => ?_
    exact ensures_pure (fits_statement rfl hFilled (allFit_append.2 ⟨hMap, hBody⟩))

theorem fits_property (h : b.Framed) (hFilled : b.span.IsFilled) :
    FitStatement (do return .property ⟨.long none none, ← attributes .property b⟩ b.span) b.span := by
  refine (fits_attributes h .property).bind fun map hMap => ?_
  exact ensures_pure (fits_statement rfl hFilled
    (by simpa [Property.contents, Property.name?, Property.type?] using hMap))

theorem fits_shortProperty (h : b.Framed) (hFilled : b.span.IsFilled)
    (hRule : b.rule = .propertyShorthand) : FitStatement (shortProperty b) b.span := by
  have hParts : ∀ r ∈ (b.operands.drop 1).filter (·.rule? != some .attribute), r ∈ b.parts :=
    fun r hr => Branch.Framed.mem_operands (List.mem_of_mem_drop (List.mem_filter.1 hr).1)
  obtain ⟨hTypes, hFirst⟩ :=
    mem_of_propertyHead ((b.operands.drop 1).filter (·.rule? != some .attribute))
  have hType : ∀ type ∈ (propertyHead ((b.operands.drop 1).filter (·.rule? != some .attribute))).1,
      Content.Fits (.name type) b.span := by
    intro type hMem
    obtain ⟨p, hp, c, hBranch, rfl⟩ := hTypes type hMem
    exact h.type (by simp [hRule]) (by simp [hRule]) (hParts p hp) hBranch
  unfold shortProperty
  dsimp only
  split
  · exact ensures_throw _
  next r hSome =>
    split
    · exact ensures_throw_bind _ _
    · refine (ensures_identifier h (hParts r (hFirst r hSome)) _).bind fun name hName => ?_
      refine (fits_attributes h .property).bind fun map hMap => ?_
      refine ensures_pure (fits_statement rfl hFilled ?_)
      simp only [Statement.contents, Property.contents, allFit_append, Content.allFit_map,
        Option.mem_toList]
      exact ⟨⟨fun id hId => Option.some.inj hId ▸ hName, hType⟩, hMap⟩

/-- Before the word `function` stand words and a return type. -/
theorem ensures_functionHead {returnType? : Option Identifier} (h : b.Framed)
    (hParts : ∀ r ∈ rs, r ∈ b.parts)
    (hTokens : ∀ r ∈ rs, ∀ t, r.token? = some t → t.isEnd = false)
    (hType : ∀ type ∈ returnType?, Content.Fits (.name type) b.span) :
    Ensures (functionHead returnType? rs) fun head =>
      (∀ id ∈ head.modifiers, Content.Fits (.name id) b.span) ∧
        (∀ type ∈ head.returnType?, Content.Fits (.name type) b.span) ∧
          ∀ r ∈ head.rest, r ∈ b.parts := by
  induction rs generalizing returnType? with
  | nil => exact ensures_pure ⟨List.forall_mem_nil _, hType, List.forall_mem_nil _⟩
  | cons r rs ih =>
    obtain ⟨hr, hRs⟩ := List.forall_mem_cons.1 hParts
    obtain ⟨hToken, hTokens⟩ := List.forall_mem_cons.1 hTokens
    unfold functionHead
    split
    · exact ensures_pure ⟨List.forall_mem_nil _, hType, hRs⟩
    · split
      next t hSome =>
        refine (ih hRs hTokens hType).bind fun head hHead => ensures_pure ⟨?_, hHead.2⟩
        have hName := fits_token (h.parts r hr).tree hSome (hToken t hSome)
        exact List.forall_mem_cons.2 ⟨hName.mono (h.within hr), hHead.1⟩
      next type _ hBranch =>
        refine ih hRs hTokens fun id hId => ?_
        obtain ⟨hFramed, hRule, hWithin⟩ := h.inner hr hBranch
        obtain ⟨c, hc, rfl⟩ := Option.map_eq_some_iff.1 hId
        obtain ⟨p, hp, hName⟩ := List.exists_of_findSome?_eq_some hc
        exact (hFramed.type (by simp [hRule]) (by simp [hRule]) hp hName).mono hWithin
      · exact ensures_throw _

theorem fits_function (h : b.Framed) (hFilled : b.span.IsFilled)
    (hRule : b.rule = .functionDeclaration) : FitStatement (function b) b.span := by
  have hTokens : ∀ r ∈ b.parts, ∀ t, r.token? = some t → t.isEnd = false := by
    intro r hr t ht
    have hChild : r.tree ∈ b.tree.children := h.children ▸ List.mem_map_of_mem hr
    exact h.tree.heads (hRule ▸ h.rule) r.tree hChild t ht
  refine (ensures_functionHead h (fun _ hr => hr) hTokens fun _ hNone => by cases hNone).bind
    fun head hHead => ?_
  obtain ⟨hModifiers, hType, hRest⟩ := hHead
  split
  · exact ensures_throw _
  next r _ hParts =>
    refine (ensures_identifier h (hRest r (by simp [hParts])) _).bind fun name hName => ?_
    refine (fits_parameters h).bind fun params hParams => ?_
    refine (fits_attributes h .function).bind fun map hMap => ?_
    refine (fits_block? h).bind fun body? hBody => ensures_pure (fits_statement rfl hFilled ?_)
    simp only [Statement.contents, allFit_append, allFit_cons, Content.allFit_map, Option.mem_toList]
    exact ⟨⟨hModifiers, hType⟩, hName, ⟨hParams, hMap⟩, hBody⟩

/-- The statement of a node whose parts are framed. -/
theorem fits_branchStatement (h : b.Framed) : FitStatement (branchStatement b) b.span := by
  by_cases hType : b.rule = .typeName
  · rw [branchStatement, hType]
    exact ensures_throw _
  have hFilled := h.filled hType
  have hStatements := fits_statements fun r (hr : r ∈ b.parts) => h.statement hr
  have hValue := fits_valueAfterKeyword h
  unfold branchStatement
  split
  · exact hStatements.bind fun body hBody => ensures_pure (fits_statement rfl hFilled hBody)
  · exact hStatements.bind fun body hBody => ensures_pure (fits_statement rfl hFilled hBody)
  · exact ensures_pure (fits_statement rfl hFilled (by simp))
  · refine (fits_childExpression h 0).bind fun value hValue => ?_
    exact ensures_pure (fits_statement rfl hFilled (by simpa using hValue))
  · exact fits_declaration h hFilled
  · exact fits_branching h hFilled
  · refine (fits_operandExpression h 1).bind fun condition hCondition => ?_
    refine (fits_operandStatement h 2).bind fun body hBody => ?_
    exact ensures_pure (fits_statement rfl hFilled (by simpa using ⟨hCondition, hBody⟩))
  · exact fits_doLoop h hFilled
  · exact fits_forLoop h hFilled
  · exact fits_eachLoop h hFilled
  · exact fits_select h hFilled
  · exact ensures_pure (fits_statement rfl hFilled (by simp))
  · exact ensures_pure (fits_statement rfl hFilled (by simp))
  · exact hValue.bind fun value? hAll => ensures_pure (fits_statement rfl hFilled hAll)
  · exact hValue.bind fun value? hAll => ensures_pure (fits_statement rfl hFilled hAll)
  · exact hValue.bind fun value? hAll => ensures_pure (fits_statement rfl hFilled hAll)
  · refine (fits_operandExpression h 1).bind fun value hValue => ?_
    exact ensures_pure (fits_statement rfl hFilled (by simpa using hValue))
  · exact fits_tryStatement h hFilled
  · refine ensures_bind_pick (fun _ _ => (ensures_any _).bind fun path _ => ?_) 1
    exact ensures_pure (fits_statement rfl hFilled (by simp))
  · exact fits_component h hFilled .component
  · exact fits_component h hFilled .interface
  · exact fits_tag h hFilled
  · exact fits_property h hFilled
  next hRule => exact fits_shortProperty h hFilled hRule
  next hRule => exact fits_function h hFilled hRule
  · exact ensures_throw _

end Build

end CfScript
