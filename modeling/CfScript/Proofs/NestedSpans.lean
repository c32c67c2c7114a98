import CfScript.Proofs.NestedBuild

/-!
# Spans nest

A node of a tree without errors holds a token, since its form asks for a part that does, and so on down
to a leaf. Only a name that was assumed as a whole holds none. So where the tokens of a source are not
empty, all nodes of its tree stand somewhere, and what is built from them stands inside.

## Main results

* `Form.exists_solid`: a node has a part that holds a token;
* `Tree.Part.framed`: every part of the tree is read with builds that give what fits it;
* `ofSource_nests`: the spans of a tree go from token to token, and those of a program nest.
-/

namespace CfScript

/-! ## Nodes hold tokens -/

/-- Whether the tree is a token before the end of the input, or a node that is not a mere name. -/
def Tree.isSolid : Tree → Bool
  | node rule _ => rule != .typeName
  | leaf (.matched t) => !t.isEnd
  | leaf _ => false

namespace Form

variable {p : Tree → Bool} {next a b : Form} {ts us : List Tree}

theorem solid_of_isTokenThat {test : Token → Bool} (hTest : ∀ u, test u = true → u.isEnd = false)
    (t : Tree) (h : t.isTokenThat test = true) : t.isSolid = true := by
  obtain ⟨u, rfl, hu⟩ := Tree.isTokenThat_iff.1 h
  simp [Tree.token, Tree.isSolid, hTest u hu]

theorem solid_of_isNode {rule : Rule} (hRule : rule ≠ .typeName) (t : Tree)
    (h : t.isNode rule = true) : t.isSolid = true := by
  obtain ⟨cs, rfl⟩ := Tree.isNode_iff.1 h
  simpa [Tree.isSolid] using hRule

theorem solid_of_isExpression (t : Tree) (h : t.isExpression = true) : t.isSolid = true := by
  cases t with
  | node rule cs =>
    cases rule <;> first | rfl | cases h
  | leaf l =>
    obtain ⟨u, hLeaf, hKind⟩ := Tree.isTokenThat_iff.1 (by simpa [Tree.isExpression, Tree.rule?] using h)
    rw [hLeaf]
    have hOpen : u.kind ≠ .endOfInput := fun hEnd => by simp [hEnd, Tree.operandKinds] at hKind
    simp [Tree.token, Tree.isSolid, Token.isEnd, hOpen]

theorem solid_first (hp : ∀ t, p t = true → t.isSolid = true) (h : one p next ts) :
    ∃ t ∈ ts, t.Fits (·.isSolid) := by
  obtain ⟨t, us, rfl, ht, -⟩ := one_iff.1 h
  exact ⟨t, List.mem_cons_self, ht.imp_right (hp t)⟩

theorem solid_later (hNext : ∀ {us}, next us → ∃ t ∈ us, t.Fits (·.isSolid)) (h : one p next ts) :
    ∃ t ∈ ts, t.Fits (·.isSolid) := by
  obtain ⟨t, us, rfl, -, hus⟩ := one_iff.1 h
  obtain ⟨u, hu, hSolid⟩ := hNext hus
  exact ⟨u, List.mem_cons_of_mem t hu, hSolid⟩

theorem solid_behind (hNext : ∀ {us}, next us → ∃ t ∈ us, t.Fits (·.isSolid)) (h : many p next ts) :
    ∃ t ∈ ts, t.Fits (·.isSolid) := by
  obtain ⟨us, vs, rfl, -, hvs⟩ := h
  obtain ⟨u, hu, hSolid⟩ := hNext hvs
  exact ⟨u, List.mem_append_right us hu, hSolid⟩

theorem solid_kind {k : TokenKind} (hk : k ≠ .endOfInput) (h : kind k next ts) :
    ∃ t ∈ ts, t.Fits (·.isSolid) := by
  refine solid_first (solid_of_isTokenThat fun u hu => ?_) h
  simpa [Token.isEnd, beq_iff_eq.1 hu] using hk

theorem solid_word (h : word next ts) : ∃ t ∈ ts, t.Fits (·.isSolid) :=
  solid_first (solid_of_isTokenThat fun _ hu => Build.isEnd_of_isWord hu) h

theorem solid_expression (h : expression next ts) : ∃ t ∈ ts, t.Fits (·.isSolid) :=
  solid_first solid_of_isExpression h

theorem solid_typedName (h : typedName next ts) : ∃ t ∈ ts, t.Fits (·.isSolid) :=
  h.elim solid_word (solid_later solid_word)

/-- Every node holds a token or another node, but for a name that may have dots, the type of a function
and the whole script. -/
theorem exists_solid {rule : Rule} (hName : rule ≠ .typeName) (hType : rule ≠ .returnType)
    (hScript : rule ≠ .scriptBlock) (h : rule.form ts) : ∃ t ∈ ts, t.Fits (·.isSolid) := by
  cases rule with
  | scriptBlock => exact absurd rfl hScript
  | typeName => exact absurd rfl hName
  | returnType => exact absurd rfl hType
  | standaloneExpression | expressionStatement | assignmentExpression | ternaryExpression
  | elvisExpression | binaryExpression | postfixExpression | callExpression | memberExpression
  | indexExpression => exact solid_expression h
  | «attribute» => exact solid_word h
  | argument => exact h.elim solid_expression solid_word
  | parameter =>
    have hNamed (u : Token) (hu : u.isWordNamed "required" = true) : u.isEnd = false :=
      Build.isEnd_of_isWord (Bool.and_eq_true_iff.1 hu).1
    exact h.elim solid_typedName (solid_first (solid_of_isTokenThat hNamed))
  | functionDeclaration =>
    have hSignature {us : List Tree} (hus : signature us) := solid_kind (by decide) hus
    exact solid_behind (fun hus => hus.elim hSignature (solid_later hSignature)) h
  | tagStatement =>
    refine solid_first (solid_of_isTokenThat fun u hu => ?_) h
    simp [Token.isEnd, beq_iff_eq.1 (Bool.and_eq_true_iff.1 hu).1]
  | unaryExpression =>
    refine solid_first (solid_of_isTokenThat fun u hu => ?_) h
    have hPlain := Grammar.isPlain_of_unaryOperators (List.contains_iff_mem.1 hu)
    simpa [Token.isEnd] using TokenKind.ne_endOfInput_of_isPlain hPlain
  | structEntry =>
    refine solid_first (solid_of_isTokenThat fun u hu => ?_) h
    rw [Bool.or_eq_true, Bool.or_eq_true, beq_iff_eq, beq_iff_eq] at hu
    obtain (hWord | hKind) | hKind := hu
    · exact Build.isEnd_of_isWord hWord
    · simp [Token.isEnd, hKind]
    · simp [Token.isEnd, hKind]
  | arrowFunction =>
    refine solid_first (fun t ht => ?_) h
    obtain hToken | hNode := Bool.or_eq_true_iff.1 ht
    · exact solid_of_isTokenThat (fun u hu => by simp [Token.isEnd, beq_iff_eq.1 hu]) t hToken
    · exact solid_of_isNode (by decide) t hNode
  | _ => exact solid_kind (by decide) h

end Form

namespace Tree

variable {g : Ground} {t : Tree}

theorem passed_token {u : Token} (h : u.isEnd = false) : (token u).passed = [u] := by
  simp [passed, token, leaves, Leaf.passed, Leaf.token?, h]

/-- A name with a text holds a token. -/
theorem Part.passed_ne_nil_of_text (h : t.Part g) (hText : t.text ≠ "") : t.passed ≠ [] := by
  intro hEmpty
  refine hText ((join_leaves h.empty).trans ?_)
  change Written.ofTokens t.passed = ""
  rw [hEmpty]
  rfl

/-- A part without errors that is bound to hold a token does: by its form there is a child that is. -/
theorem Part.passed_ne_nil (h : t.Part g) (hErrors : t.hasErrors = false) (hSolid : t.isSolid = true) :
    t.passed ≠ [] := by
  have hWell := h.wellFormed
  induction hWell with
  | leaf l =>
    cases l with
    | matched u =>
      have hOpen : u.isEnd = false := by simpa [isSolid] using hSolid
      exact passed_token hOpen ▸ List.cons_ne_nil u []
    | skipped u => cases hSolid
    | assumed what => cases hSolid
  | @node rule cs hForm _ ih =>
    have hClean : ∀ c ∈ cs, c.hasErrors = false := hasErrorsAny_eq_false_iff.1 hErrors
    have hOf {c : Tree} (hc : c ∈ cs) (hPassed : c.passed ≠ []) : (node rule cs).passed ≠ [] := by
      rw [passed_node]
      exact fun hNil => hPassed (List.flatMap_eq_nil_iff.1 hNil c hc)
    by_cases hType : rule = .returnType
    · -- The type of a function is a name, and only a class and an import may lack theirs.
      subst hType
      obtain ⟨c, us, rfl, hFits, -⟩ := Form.one_iff.1 hForm
      have hNode := hFits.resolve_left (by simp [hClean c])
      obtain ⟨ds, rfl⟩ := isNode_iff.1 hNode
      have hText := h.grounded.titled .returnType rfl (by decide) (by decide) _ List.mem_cons_self rfl
      exact hOf List.mem_cons_self ((h.child _ List.mem_cons_self).passed_ne_nil_of_text hText)
    · have hScript : rule ≠ .scriptBlock := by
        rintro rfl
        cases h.marked with
        | node hAdmits _ => exact hAdmits
      have hName : rule ≠ .typeName := by simpa [isSolid] using hSolid
      obtain ⟨c, hc, hFits⟩ := Form.exists_solid hName hType hScript hForm
      exact hOf hc (ih c hc (h.child c hc) (hClean c hc) (hFits.resolve_left (by simp [hClean c hc])))

/-- Where no token of the ground is empty, a part that holds a token stands somewhere. -/
theorem Part.extent_isFilled (hTokens : ∀ u ∈ g.tokens, u.span.IsFilled) (h : t.Part g)
    (hPassed : t.passed ≠ []) : t.extent.IsFilled := by
  have hPlaces : ∀ s ∈ t.places, s.IsFilled :=
    List.forall_mem_map.2 fun u hu => hTokens u ((infix_passed h.leaves).subset hu)
  rw [extent, span?_eq_hull? t hPlaces]
  cases hHull : Span.hull? t.places with
  | none => exact absurd (List.map_eq_nil_iff.1 (Span.hull?_eq_none_iff.1 hHull)) hPassed
  | some b => exact Span.isFilled_hull? hPlaces b hHull

theorem Part.framed (hTokens : ∀ u ∈ g.tokens, u.span.IsFilled) (h : t.Part g)
    (hErrors : t.hasErrors = false) : t.Framed where
  token u hu hOpen := hTokens u (h.grounded.token u hu hOpen)
  node rule hRule hName := by
    rw [← extent_of_rule? hRule]
    refine h.extent_isFilled hTokens (h.passed_ne_nil hErrors ?_)
    cases t with
    | leaf l => cases hRule
    | node other cs =>
      cases hRule
      simpa [isSolid] using hName
  titled rule hRule hNew hImport c hc hType := by
    have hText := h.grounded.titled rule hRule hNew hImport c hc hType
    have hPart : c.Part g := by
      cases t with
      | leaf l => cases hc
      | node other cs => exact h.child c hc
    rw [← extent_of_rule? hType]
    exact hPart.extent_isFilled hTokens (hPart.passed_ne_nil_of_text hText)
  heads := h.grounded.heads

open Build in
/-- Every part of a tree without errors is read with builds that give what fits it. -/
theorem Part.read_framed (hTokens : ∀ u ∈ g.tokens, u.span.IsFilled) (h : t.Part g)
    (hErrors : t.hasErrors = false) : (Reading.ofTree t).Framed := by
  have hWell := h.wellFormed
  induction hWell with
  | leaf l =>
    have hFramed := h.framed hTokens hErrors
    exact .mk hFramed rfl nofun (fits_leafStatement l _) (fits_leafExpression hFramed)
  | @node rule cs _ _ ih =>
    have hClean : ∀ c ∈ cs, c.hasErrors = false := hasErrorsAny_eq_false_iff.1 hErrors
    have hParts : ∀ r ∈ Reading.ofTrees cs, r.Framed := by
      rw [Reading.ofTrees_eq_map]
      exact List.forall_mem_map.2 fun c hc => ih c hc (h.child c hc) (hClean c hc)
    have hChildren := Reading.map_tree_ofTrees cs
    have hFramed := h.framed hTokens hErrors
    have hBranch : Branch.Framed ⟨rule, .node rule cs, Reading.ofTrees cs⟩ :=
      ⟨rfl, hFramed, hChildren, hParts⟩
    have hExtent : (node rule cs).extent = (node rule cs).span := extent_node rule cs
    exact .mk hFramed hChildren hParts (hExtent ▸ fits_branchStatement hBranch)
      (hExtent ▸ fits_branchExpression hBranch)

end Tree

namespace Build

variable {cs : List Tree} {entry : Entry}

/-- What the root of a parse is built into fits it. -/
theorem fits_root (h : ∀ c ∈ cs, (Reading.ofTree c).Framed) :
    (root (.node entry.rule cs)).Ensures fun root? =>
      ∀ s ∈ root?, Content.Fits (.statement s) (Tree.node entry.rule cs).span := by
  have hWithin {c : Tree} (hc : c ∈ cs) : c.extent.Within (Tree.node entry.rule cs).span :=
    Tree.extent_within hc
  cases entry with
  | script =>
    have hStatement : ∀ r ∈ (Reading.ofTree (.node Entry.script.rule cs)).parts,
        FitStatement r.statement (Tree.node Entry.script.rule cs).span := by
      rw [Reading.parts_ofTree]
      refine List.forall_mem_map.2 fun c hc => (h c hc).statement.imp fun s hs => ?_
      exact hs.mono (by simpa using hWithin hc)
    refine (fits_statements hStatement).bind fun ss hss => ?_
    rw [Content.allFit_map] at hss
    split
    · exact ensures_pure nofun
    next s => exact ensures_pure fun a ha => Option.some.inj ha ▸ hss s (by simp)
    next hNil _ =>
      obtain ⟨s, hs⟩ := List.exists_mem_of_ne_nil ss hNil
      refine ensures_pure fun a ha => Option.some.inj ha ▸ ?_
      exact Content.fits_statement rfl (hss s hs).inside.outer (by simpa [Statement.contents] using hss)
  | expression =>
    have hStandalone {parts : List Reading} (hParts : ∀ r ∈ parts,
        FitExpression r.expression (Tree.node Entry.expression.rule cs).span) :
        (standalone (.node Entry.expression.rule cs) parts).Ensures fun root? =>
          ∀ s ∈ root?, Content.Fits (.statement s) (Tree.node Entry.expression.rule cs).span := by
      cases parts with
      | nil => exact ensures_pure nofun
      | cons r rs =>
        refine ((hParts r (by simp)).orLeaveOut _ _).bind fun e? he => ensures_pure fun a ha => ?_
        obtain ⟨e, hSome, rfl⟩ := Option.map_eq_some_iff.1 ha
        exact Content.fits_bare (he e hSome)
    refine hStandalone ?_
    rw [Reading.parts_ofTree]
    refine List.forall_mem_map.2 fun c hc => (h c hc).expression.imp fun e he => ?_
    exact he.mono (by simpa using hWithin hc)

theorem runOn_of_mem_run {t : Tree} {rules : AttributeRules} {s : Statement}
    (h : s ∈ (run t rules).1) : ((root t).runOn rules .empty).1 = .ok (some s) := by
  unfold run at h
  split at h
  next hRun =>
    rw [hRun]
    exact congrArg Except.ok h
  next => cases h

end Build

/-! ## Sources -/

/-- The span of every node of the tree of a source that is shorter than 2^32 bytes goes from its first
to its last token, and those of its children are disjoint and stand in order. And where no error is
found by the parser, all that a node of the program holds stands somewhere, and inside the node. -/
theorem ofSource_nests (source : String) (options : ParseOptions) (rules : AttributeRules)
    (h : Text.byteLength source.toList < 2 ^ 32) :
    (∀ path rule cs, (Script.ofSource source options rules).tree.part? path = some (.node rule cs) →
        (Tree.node rule cs).Spanned) ∧
      ((parse source options).hasErrors = false →
        ∀ root ∈ (Script.ofSource source options rules).root?, root.span ≠ .dummy ∧
          ∀ n ∈ root.nodes, ∀ c ∈ n.contents, c.span ≠ .dummy ∧ c.span.Inside n.span) := by
  refine ⟨fun path rule cs hPart => spanned_of_parse h options hPart, fun hErrors root hRoot => ?_⟩
  obtain ⟨cs, hTree, hParts⟩ := parts_ofSource source options rules
  have hClean : (Tree.node options.entry.rule cs).hasErrors = false := hTree ▸ (parse_clean hErrors).2
  have hTokens : ∀ u ∈ (Ground.ofSource source options rules).tokens, u.span.IsFilled :=
    List.forall_mem_map.1 (places_of_parse h options).1
  have hRead : ∀ c ∈ cs, (Reading.ofTree c).Framed := fun c hc =>
    (hParts c hc).read_framed hTokens (Tree.hasErrorsAny_eq_false_iff.1 hClean c hc)
  have hRun := Build.runOn_of_mem_run hRoot
  have hFits := Build.fits_root hRead rules .empty _ (hTree ▸ hRun) root rfl
  refine ⟨hFits.inside.filled.ne_dummy, fun n hn c hc => ?_⟩
  have hInside := hFits.nests n hn c hc
  exact ⟨hInside.filled.ne_dummy, hInside⟩

/-- A call and an assignment, with eleven nodes. -/
theorem ofSource_nests_call :
    let source := "save(a, b); x = y.z;"
    Text.byteLength source.toList < 2 ^ 32 ∧ (parse source {}).hasErrors = false ∧
      ∃ root ∈ (Script.ofSource source).root?, root.nodes.length = 11 ∧
        ∀ n ∈ root.nodes, ∀ c ∈ n.contents, c.span ≠ .dummy ∧ c.span.Inside n.span := by
  intro source
  have hShort : Text.byteLength source.toList < 2 ^ 32 := by decide +kernel
  have hErrors : (parse source {}).hasErrors = false := by decide +kernel
  have hNodes : (Script.ofSource source).root?.map (·.nodes.length) = some 11 := by decide +kernel
  obtain ⟨root, hRoot, hLength⟩ := Option.map_eq_some_iff.1 hNodes
  have hNests := (ofSource_nests source {} {} hShort).2 hErrors root hRoot
  exact ⟨hShort, hErrors, root, hRoot, hLength, hNests.2⟩

end CfScript
