import CfScript.Proofs.Built

/-!
# Lists of parts

The statements of a list, the attributes of an element, the parameters of a function and the
arguments of a call are built one after the other. What is built of a list holds what the trees of
the list keep, in order; of attributes it holds what the map of them keeps.

## Main results

* `gives_statements`, `gives_block?`: statements of lists and of blocks;
* `gives_attributes`: attributes, under each name the value that was given last;
* `gives_parameters`, `gives_arguments`: parameters and arguments.
-/

namespace CfScript

open Build CfScript.Tree

/-! ## Statements -/

namespace Tree

@[simp] theorem listed_cons_token (u : Token) (ts : List Tree) :
    listed (token u :: ts) = listed ts := rfl

theorem listed_cons_node {rule : Rule} (cs ts : List Tree) (hRule : rule.isStatement = true)
    (hEmpty : rule ≠ .emptyStatement) :
    listed (node rule cs :: ts) =
      .mk rule (node rule cs).span (node rule cs).kept :: listed ts := by
  have hOutline : (Piece.of (node rule cs)).outline? =
      some (.mk rule (node rule cs).span (node rule cs).kept) := by
    simp [Piece.outline?, Piece.of, rule?, hRule, hEmpty]
  simp [listed, hOutline]

end Tree

theorem Parts.statements {next : Form} {ts : List Tree} (h : Parts (.statements next) ts) :
    ∃ us vs, ts = us ++ vs ∧ (∀ u ∈ us, Body u) ∧ Parts next vs := by
  obtain ⟨us, vs, rfl, hAll, hNext⟩ := h.many
  exact ⟨us, vs, rfl, fun u hu => (hAll u hu).2.body (hAll u hu).1, hNext⟩

/-- A node that is no empty statement is built or left out. -/
theorem statements_node {rule : Rule} {cs ts : List Tree} (hEmpty : rule ≠ .emptyStatement) :
    Build.statements ((node rule cs :: ts).map Reading.ofTree) = do
      let s? ← Build.orLeaveOut rule (node rule cs) (Build.statement (node rule cs))
      return s?.toList ++ (← Build.statements (ts.map Reading.ofTree)) := by
  cases rule <;> first | rfl | exact absurd rfl hEmpty

/-- Statements are built in order; tokens and empty statements are passed over. -/
theorem gives_statements {ts : List Tree} (h : ∀ t ∈ ts, Body t ∨ ∃ u, t = .token u) :
    (Build.statements (ts.map Reading.ofTree)).Gives (outlines · = listed ts) := by
  induction ts with
  | nil => exact gives_pure rfl
  | cons t ts ih =>
    have hRest := ih fun t ht => h t (by simp [ht])
    rcases h t (by simp) with hBody | ⟨u, rfl⟩
    · obtain ⟨rule, cs, rfl, hRule⟩ := hBody.node
      by_cases hEmpty : rule = .emptyStatement
      · subst hEmpty
        exact hRest
      · rw [statements_node hEmpty]
        refine (hBody.builds.orLeaveOut rule _).bind fun s? hs => ?_
        obtain ⟨s, rfl, hs⟩ := hs
        refine hRest.bind fun ss hss => gives_pure ?_
        have hRuleEq : s.rule = rule := by
          rcases hs.rule with hNone | hSome
          · exact absurd (Option.some.inj hNone) hEmpty
          · exact (Option.some.inj hSome).symm
        rw [listed_cons_node cs ts hRule hEmpty, ← hss, ← hs.held, ← hs.span, ← hRuleEq]
        rfl
    · exact hRest

theorem isStatement_of_body {us : List Tree} (h : ∀ u ∈ us, Body u) :
    us.filter (!·.isStatement) = [] :=
  List.filter_eq_nil_iff.2 fun u hu => by simp [(h u hu).isStatement]

/-- The statements of a script, and the end of the input. -/
theorem gives_script {cs : List Tree} (h : Parts Rule.scriptBlock.form cs) :
    (Build.statements (cs.map Reading.ofTree)).Gives
      fun body => [outlines body] = (Tree.node .scriptBlock cs).kept := by
  obtain ⟨us, vs, rfl, hus, h⟩ := h.statements
  obtain ⟨e, vs, rfl, -, h⟩ := h.kind
  obtain rfl := h.done
  refine (gives_statements fun t ht => ?_).imp fun body hBody => ?_
  · rcases List.mem_append.1 ht with ht | ht
    · exact .inl (hus t ht)
    · exact .inr ⟨e, by simpa using ht⟩
  · have hMark : (Tree.token e).isStatement = false := rfl
    rw [kept_list rfl, hBody]
    simp [isStatement_of_body hus, hMark]

/-- A list of statements between tokens. -/
theorem gives_block {cs : List Tree} (h : Parts Rule.block.form cs) :
    (Build.statements (cs.map Reading.ofTree)).Gives
      fun body => [outlines body] = (Tree.node .block cs).kept := by
  obtain ⟨l, ts, rfl, -, h⟩ := h.kind
  obtain ⟨us, vs, rfl, hus, h⟩ := h.statements
  obtain ⟨r, ts, rfl, -, h⟩ := h.kind
  obtain rfl := h.done
  refine (gives_statements fun t ht => ?_).imp fun body hBody => ?_
  · simp only [List.mem_cons, List.mem_append, List.not_mem_nil, or_false] at ht
    rcases ht with rfl | ht | rfl
    · exact .inr ⟨l, rfl⟩
    · exact .inl (hus t ht)
    · exact .inr ⟨r, rfl⟩
  · rw [kept_list rfl, hBody]
    have hMarks : ∀ u : Token, (Tree.token u).isStatement = false := fun _ => rfl
    simp [List.filter_append, isStatement_of_body hus, hMarks]

/-! ## Nodes among parts -/

namespace Branch

variable {rule other : Rule} {cs : List Tree}

/-- The branches of the nodes of a rule. -/
theorem nodes_ofNode : (ofNode other cs).nodes rule =
    (cs.filter (·.isNode rule)).map fun t => ofNode rule t.children := by
  simp only [nodes, parts_ofNode]
  induction cs with
  | nil => rfl
  | cons t ts ih =>
    cases t with
    | leaf l => exact ih
    | node r cs =>
      by_cases hr : r = rule
      · simp [hr, ih, children]
      · simp [hr, ih]

theorem node?_ofNode : (ofNode other cs).node? rule =
    ((cs.filter (·.isNode rule)).map fun t => ofNode rule t.children).head? := by
  rw [← nodes_ofNode, node?, nodes, List.head?_filterMap]

end Branch

/-- The block of a node that has at most one. -/
theorem gives_block? {rule : Rule} {cs : List Tree} (h : ∀ c ∈ cs, c.Built)
    (hOne : (cs.filter (·.isNode .block)).length ≤ 1) :
    (Build.block? (.ofNode rule cs)).Gives (heldBody? · = keptBlocks cs) := by
  unfold Build.block? keptBlocks
  rw [Branch.node?_ofNode]
  generalize hBlocks : cs.filter (·.isNode .block) = blocks at hOne
  cases blocks with
  | nil => exact gives_pure rfl
  | cons t rest =>
    obtain rfl : rest = [] := by simpa using hOne
    have hMem : t ∈ cs.filter (·.isNode .block) := by simp [hBlocks]
    obtain ⟨hIn, hNode⟩ := List.mem_filter.1 hMem
    obtain ⟨bs, rfl⟩ := isNode_iff.1 hNode
    refine (gives_block (h _ hIn).parts).map fun body hBody => ?_
    simpa [heldBody?] using hBody

/-- Nodes of a rule, all built in the same way. -/
theorem gives_all_nodes {β : Type} {rule other : Rule} {cs : List Tree} {f : Branch → Build β}
    {hold : β → List (List Outline)} (h : ∀ c ∈ cs, c.Built)
    (hBuild : ∀ ds, Parts rule.form ds →
      (f (.ofNode rule ds)).Gives (hold · = (Tree.node rule ds).kept)) :
    (Build.all f ((Branch.ofNode other cs).nodes rule)).Gives
      fun xs => xs.flatMap hold = (cs.filter (·.isNode rule)).flatMap kept := by
  rw [Branch.nodes_ofNode]
  induction cs with
  | nil => exact gives_pure rfl
  | cons c cs ih =>
    have hRest := ih fun c hc => h c (by simp [hc])
    by_cases hNode : c.isNode rule = true
    · obtain ⟨ds, rfl⟩ := isNode_iff.1 hNode
      rw [List.filter_cons_of_pos hNode]
      refine (hBuild ds (h _ (by simp)).parts).bind fun x hx => ?_
      refine hRest.bind fun xs hxs => gives_pure ?_
      rw [List.flatMap_cons, List.flatMap_cons, hx, hxs]
    · rwa [List.filter_cons_of_neg hNode]

/-! ## Attributes -/

/-- An attribute: a word, an equals sign and a value. -/
theorem Parts.attribute {cs : List Tree} (h : Parts Rule.attribute.form cs) :
    ∃ w m e, cs = [.token w, .token m, e] ∧ w.kind.isWord = true ∧ Operand e := by
  obtain ⟨w, ts, rfl, hw, h⟩ := h.word
  obtain ⟨m, ts, rfl, -, h⟩ := h.kind
  obtain ⟨e, ts, rfl, he, h⟩ := h.expression
  obtain rfl := h.done
  exact ⟨w, m, e, rfl, hw, he⟩

/-- The name of an attribute is taken as it is, and its value is what follows the equals sign. -/
theorem gather_cons (owner : String) {w m : Token} {e : Tree} (hw : w.kind.isWord = true)
    (rest : List Branch) (fresh : List Token) (map : AttributeMap Expression) :
    Build.gather owner (.ofNode .attribute ([.token w, .token m, e]) :: rest) fresh map = (do
      let value ← Build.expression e
      match map.insert (wordIdentifier w) value with
      | (none, map) => Build.gather owner rest (w :: fresh) map
      | (some _, map) =>
        note ((← read).repeated? owner (wordIdentifier w) w.line)
        Build.gather owner rest fresh map) := by
  rewrite [Build.gather, Branch.child_ofNode rfl, pure_bind, word_token _ hw, pure_bind,
    Branch.childExpression_ofNode rfl]
  rfl

/-- Attributes are added one by one, to values that hold what pieces hold. -/
theorem gives_gather {cs : List Tree} (h : ∀ c ∈ cs, c.Built) (owner : String) {rule : Rule}
    (fresh : List Token) {map : AttributeMap Expression} {pieces : AttributeMap Piece}
    (hAgree : map.Agree (fun e p => e.held = p.held) pieces) :
    (Build.gather owner ((Branch.ofNode rule cs).nodes .attribute) fresh map).Gives fun r =>
      r.2.Agree (fun e p => e.held = p.held)
        (pieces.insertAll ((cs.map Piece.of).filterMap Rule.attribute?)) := by
  rw [Branch.nodes_ofNode]
  induction cs generalizing fresh map pieces with
  | nil => exact gives_pure hAgree
  | cons c cs ih =>
    have hTail : ∀ c ∈ cs, c.Built := fun c hc => h c (by simp [hc])
    by_cases hNode : c.isNode .attribute = true
    · obtain ⟨ds, rfl⟩ := isNode_iff.1 hNode
      have hBuilt : (node .attribute ds).Built := h _ (by simp)
      obtain ⟨w, m, e, rfl, hw, he⟩ := hBuilt.parts.attribute
      have hHeld : (Piece.of (.node .attribute ([.token w, .token m, e]))).held = e.kept := by
        rw [Piece.of, kept_node rfl]
        simp
      have hAttribute : Rule.attribute? (Piece.of (.node .attribute ([.token w, .token m, e]))) =
          some ⟨wordIdentifier w, .of (.node .attribute ([.token w, .token m, e]))⟩ := rfl
      rw [List.filter_cons_of_pos hNode, List.map_cons, List.map_cons,
        List.filterMap_cons_some hAttribute, AttributeMap.insertAll, List.foldl_cons,
        ← AttributeMap.insertAll, children, gather_cons owner hw]
      refine he.builds.bind fun value hValue => ?_
      have hInsert := AttributeMap.agree_insert hAgree (wordIdentifier w)
        (hValue.trans hHeld.symm)
      split
      next map' hMap =>
        rw [hMap] at hInsert
        exact ih hTail _ hInsert
      next old map' hMap =>
        rw [hMap] at hInsert
        refine gives_read.bind fun rules _ => (gives_note _).bind fun _ _ => ?_
        exact ih hTail _ hInsert
    · have hNone : Rule.attribute? (Piece.of c) = none := by
        simp [Rule.attribute?, Piece.of, hNode]
      rw [List.filter_cons_of_neg hNode, List.map_cons, List.filterMap_cons_none hNone]
      exact ih hTail fresh hAgree

/-- The attributes of an element. -/
theorem gives_attributes {rule : Rule} {cs : List Tree} (h : ∀ c ∈ cs, c.Built)
    (element : Element) :
    (Build.attributes element (.ofNode rule cs)).Gives (heldAttributes · = keptAttributes cs) := by
  unfold Build.attributes
  refine (gives_gather h element.word [] AttributeMap.agree_empty).bind fun r hr => ?_
  refine gives_read.bind fun rules _ => (gives_modify _).bind fun _ _ => gives_pure ?_
  exact heldAttributes_of_agree hr

/-- The attributes of a parameter. -/
theorem gives_parameterAttributes {rule : Rule} {cs : List Tree} (h : ∀ c ∈ cs, c.Built) :
    (Build.parameterAttributes (.ofNode rule cs)).Gives (heldAttributes · = keptAttributes cs) :=
  (gives_gather h "parameter" [] AttributeMap.agree_empty).map fun _ hr =>
    heldAttributes_of_agree hr

/-! ## Elements -/

/-- How the parts of an element stand: first those that are neither attributes nor blocks, then the
attributes, and then a block or marks. -/
structure Shaped (front attributes back : List Tree) : Prop where
  front : ∀ t ∈ front, t.isNode .attribute = false ∧ t.isNode .block = false
  attributes : ∀ t ∈ attributes, t.isNode .attribute = true
  back : (∃ bs, back = [.node .block bs]) ∨ ∀ t ∈ back, ∃ u, t = .token u

namespace Shaped

variable {front attributes back : List Tree}

theorem filter_plain (h : Shaped front attributes back) :
    (front ++ (attributes ++ back)).filter (fun t => !t.isNode .attribute && !t.isNode .block) =
      front ++ back.filter (fun t => !t.isNode .block) := by
  have hFront : front.filter (fun t => !t.isNode .attribute && !t.isNode .block) = front :=
    List.filter_eq_self.2 fun t ht => by simp [h.front t ht]
  have hAttributes : attributes.filter (fun t => !t.isNode .attribute && !t.isNode .block) = [] :=
    List.filter_eq_nil_iff.2 fun t ht => by simp [h.attributes t ht]
  have hBack : back.filter (fun t => !t.isNode .attribute && !t.isNode .block) =
      back.filter (fun t => !t.isNode .block) := by
    rcases h.back with ⟨bs, rfl⟩ | hTokens
    · rfl
    · refine List.filter_congr fun t ht => ?_
      obtain ⟨u, rfl⟩ := hTokens t ht
      rfl
  rw [List.filter_append, List.filter_append, hFront, hAttributes, hBack, List.nil_append]

theorem filter_block (h : Shaped front attributes back) :
    (front ++ (attributes ++ back)).filter (·.isNode .block) = back.filter (·.isNode .block) := by
  have hFront : front.filter (·.isNode .block) = [] :=
    List.filter_eq_nil_iff.2 fun t ht => by simp [h.front t ht]
  have hAttributes : attributes.filter (·.isNode .block) = [] := by
    refine List.filter_eq_nil_iff.2 fun t ht => ?_
    obtain ⟨cs, rfl⟩ := isNode_iff.1 (h.attributes t ht)
    simp
  rw [List.filter_append, List.filter_append, hFront, hAttributes, List.nil_append,
    List.nil_append]

theorem kept (h : Shaped front attributes back) {rule : Rule} (hRule : rule.hasAttributes = true) :
    (Tree.node rule (front ++ (attributes ++ back))).kept =
      front.flatMap Tree.kept ++ keptAttributes (front ++ (attributes ++ back)) ++
        keptBlocks (front ++ (attributes ++ back)) := by
  have hOthers : keptOthers (front ++ (attributes ++ back)) = front.flatMap Tree.kept := by
    rw [keptOthers, h.filter_plain, List.flatMap_append]
    rcases h.back with ⟨bs, rfl⟩ | hTokens
    · simp
    · rw [flatMap_kept_tokens fun t ht => hTokens t (List.mem_filter.1 ht).1, List.append_nil]
  rw [kept_attributed hRule, hOthers]

/-- The block of an element. -/
theorem gives_block? (h : Shaped front attributes back) {rule : Rule}
    (hBuilt : ∀ c ∈ front ++ (attributes ++ back), c.Built) :
    (Build.block? (.ofNode rule (front ++ (attributes ++ back)))).Gives
      (heldBody? · = keptBlocks (front ++ (attributes ++ back))) := by
  refine CfScript.gives_block? hBuilt ?_
  rw [h.filter_block]
  rcases h.back with ⟨bs, rfl⟩ | hTokens
  · exact List.length_filter_le _ _
  · rw [List.filter_eq_nil_iff.2 fun t ht => ?_]
    · exact Nat.zero_le 1
    · obtain ⟨u, rfl⟩ := hTokens t ht
      exact Bool.false_ne_true

end Shaped

/-- A name with dots holds nothing. -/
theorem kept_typeName {cs : List Tree} (h : Parts Rule.typeName.form cs) :
    (Tree.node .typeName cs).kept = [] := by
  obtain ⟨us, vs, rfl, hus, h⟩ := h.many
  obtain rfl := h.done
  rw [kept_node rfl, List.append_nil]
  refine flatMap_kept_tokens fun u hu => ?_
  obtain ⟨t, rfl, -⟩ := isTokenThat_iff.1 (hus u hu).1
  exact ⟨t, rfl⟩

/-- A name, possibly after its type. -/
theorem Parts.typedName {next : Form} {ts : List Tree} (h : Parts (.typedName next) ts) :
    ∃ front w us, ts = front ++ .token w :: us ∧
      (front = [] ∨ ∃ cs, front = [.node .typeName cs] ∧ (Tree.node .typeName cs).kept = []) ∧
      w.kind.isWord = true ∧ Parts next us := by
  rcases h.either with h | h
  · obtain ⟨w, us, rfl, hw, h⟩ := h.word
    exact ⟨[], w, us, rfl, .inl rfl, hw, h⟩
  · obtain ⟨cs, us, rfl, ⟨hcs, -⟩, h⟩ := h.node
    obtain ⟨w, us, rfl, hw, h⟩ := h.word
    exact ⟨[.node .typeName cs], w, us, rfl, .inr ⟨cs, rfl, kept_typeName hcs⟩, hw, h⟩

theorem Parts.attributes {next : Form} {ts : List Tree} (h : Parts (.attributes next) ts) :
    ∃ us vs, ts = us ++ vs ∧ (∀ u ∈ us, u.isNode .attribute = true) ∧ Parts next vs := by
  obtain ⟨us, vs, rfl, hus, h⟩ := h.many
  exact ⟨us, vs, rfl, fun u hu => (hus u hu).1, h⟩

/-! ## Parameters -/

/-- The name of a parameter, and its default if it has one. -/
inductive NameAndDefault : List Tree → Prop
  | name {w : Token} : w.kind.isWord = true → NameAndDefault [.token w]
  | value {w m : Token} {e : Tree} : w.kind.isWord = true → m.kind = .symbol .assign → Operand e →
    NameAndDefault [.token w, .token m, e]

namespace NameAndDefault

variable {name : List Tree}

theorem not_attribute (h : NameAndDefault name) :
    ∀ t ∈ name, t.isNode .attribute = false ∧ t.isNode .block = false := by
  cases h with
  | name => simp
  | value _ _ he => simp [he.isNode .attribute rfl, he.isNode .block rfl]

/-- A name without a modifier and without a type is taken for neither. -/
theorem alone (h : NameAndDefault name) :
    isRequired (name.map Reading.ofTree) = false ∧
      ((name.map Reading.ofTree).head?.bind (·.branchOf? .typeName)).map (·.identifier) = none := by
  cases h with
  | name => exact ⟨rfl, rfl⟩
  | value _ hm => simp [isRequired, hm, TokenKind.isWord]

/-- What stands before a name is a modifier if it is the word for it. -/
theorem behind (h : NameAndDefault name) (r : Reading) :
    isRequired (r :: name.map Reading.ofTree) = r.token?.any (·.isWordNamed "required") := by
  cases h with
  | name hw => simp [isRequired, hw]
  | value hw => simp [isRequired, hw]

end NameAndDefault

/-- What follows the modifier and the type of a parameter. -/
theorem gives_named {name : List Tree} (hName : NameAndDefault name) (b : Branch) (required : Bool)
    (type? : Option Identifier) {held : List (List Outline)}
    (hAttributes : (Build.parameterAttributes b).Gives (heldAttributes · = held)) :
    (show Build (Parameter Expression) from do
      let parts := name.map Reading.ofTree
      let name ← Build.identifier "parameter name" (← b.pick parts 0)
      let default? ←
        if parts[1]?.any (·.isToken (.symbol .assign)) then
          some <$> (do (← b.pick parts 2).expression)
        else pure none
      return { required, type?, name, default?, attributes := ← Build.parameterAttributes b }).Gives
      fun p => heldExpression? p.default? ++ heldAttributes p.attributes =
        name.flatMap kept ++ held := by
  cases hName with
  | name hw =>
    simp only [List.map_cons, List.map_nil, Branch.pick, List.getElem?_cons_zero,
      List.getElem?_cons_succ, List.getElem?_nil, Option.any_none, Bool.false_eq_true, if_false,
      pure_bind, identifier_token _ hw]
    exact hAttributes.bind fun map hMap => gives_pure (by simp [heldExpression?, hMap])
  | @value w m e hw hm he =>
    simp only [List.map_cons, List.map_nil, Branch.pick, List.getElem?_cons_zero,
      List.getElem?_cons_succ, Option.any_some, Reading.isToken, Reading.token?_token, hm,
      beq_self_eq_true, if_true, pure_bind, identifier_token _ hw]
    have hDefault : (some <$> Build.expression e).Gives (heldExpression? · = e.kept) :=
      he.builds.map fun _ h => h
    refine hDefault.bind fun e? he? => hAttributes.bind fun map hMap => gives_pure ?_
    simp [he?, hMap]

/-- How the parts of a parameter stand. -/
structure ParameterShape (modifier type name attributes : List Tree) : Prop where
  modifier : modifier = [] ∨ ∃ r : Token, modifier = [.token r] ∧ r.isWordNamed "required" = true
  type : type = [] ∨ ∃ cs, type = [.node .typeName cs] ∧ (Tree.node .typeName cs).kept = []
  name : NameAndDefault name
  attributes : ∀ t ∈ attributes, t.isNode .attribute = true

theorem Parts.parameter {modifier ts : List Tree} (h : Parts Form.parameter ts)
    (hModifier : modifier = [] ∨
      ∃ r : Token, modifier = [.token r] ∧ r.isWordNamed "required" = true) :
    ∃ type name attributes, modifier ++ ts = modifier ++ type ++ name ++ attributes ∧
      ParameterShape modifier type name attributes := by
  obtain ⟨type, w, us, rfl, hType, hw, h⟩ := h.typedName
  rcases h.either with h | h
  · obtain ⟨m, us, rfl, hm, h⟩ := h.kind
    obtain ⟨e, us, rfl, he, h⟩ := h.expression
    obtain ⟨as, us, rfl, has, h⟩ := h.attributes
    obtain rfl := h.done
    exact ⟨type, [.token w, .token m, e], as, by simp, hModifier, hType, .value hw hm he, has⟩
  · obtain ⟨as, us, rfl, has, h⟩ := h.attributes
    obtain rfl := h.done
    exact ⟨type, [.token w], as, by simp, hModifier, hType, .name hw, has⟩

namespace ParameterShape

variable {modifier type name attributes : List Tree}

theorem front (h : ParameterShape modifier type name attributes) :
    ∀ t ∈ modifier ++ type ++ name, t.isNode .attribute = false ∧ t.isNode .block = false := by
  have hName := h.name.not_attribute
  rcases h.modifier with rfl | ⟨r, rfl, -⟩ <;> rcases h.type with rfl | ⟨ts, rfl, -⟩ <;> simpa

theorem kept (h : ParameterShape modifier type name attributes) :
    (Tree.node .parameter (modifier ++ type ++ name ++ attributes)).kept =
      name.flatMap Tree.kept ++ keptAttributes (modifier ++ type ++ name ++ attributes) := by
  have hShaped : Shaped (modifier ++ type ++ name) attributes [] :=
    ⟨h.front, h.attributes, .inr nofun⟩
  have hNode := hShaped.kept (show Rule.parameter.hasAttributes = true from rfl)
  have hNone := hShaped.filter_block
  have hOthers : (modifier ++ type ++ name).flatMap Tree.kept = name.flatMap Tree.kept := by
    rcases h.modifier with rfl | ⟨r, rfl, -⟩ <;> rcases h.type with rfl | ⟨ts, rfl, hTs⟩ <;> simp [*]
  rw [List.append_nil] at hNode hNone
  rwa [keptBlocks, hNone, List.filter_nil, List.flatMap_nil, List.append_nil, hOthers] at hNode

theorem filter_parts (h : ParameterShape modifier type name attributes) :
    (Branch.ofNode .parameter (modifier ++ type ++ name ++ attributes)).parts.filter
      (·.rule? != some .attribute) = (modifier ++ type ++ name).map Reading.ofTree := by
  rw [Branch.parts_ofNode, List.map_append, List.filter_append,
    List.filter_eq_self.2 fun r hr => ?_, List.filter_eq_nil_iff.2 fun r hr => ?_, List.append_nil]
  · obtain ⟨t, ht, rfl⟩ := List.mem_map.1 hr
    obtain ⟨cs, rfl⟩ := isNode_iff.1 (h.attributes t ht)
    simp
  · obtain ⟨t, ht, rfl⟩ := List.mem_map.1 hr
    simpa [Reading.rule?, isNode] using (h.front t ht).1

/-- The first word is a modifier if a type or a name follows it. -/
theorem gives (h : ParameterShape modifier type name attributes)
    (hBuilt : ∀ c ∈ modifier ++ type ++ name ++ attributes, c.Built) :
    (Build.parameter (.ofNode .parameter (modifier ++ type ++ name ++ attributes))).Gives fun p =>
      heldExpression? p.default? ++ heldAttributes p.attributes =
        (Tree.node .parameter (modifier ++ type ++ name ++ attributes)).kept := by
  have hNamed := gives_named h.name (.ofNode .parameter (modifier ++ type ++ name ++ attributes))
  have hAttributes : (Build.parameterAttributes
      (.ofNode .parameter (modifier ++ type ++ name ++ attributes))).Gives
        (heldAttributes · = keptAttributes (modifier ++ type ++ name ++ attributes)) :=
    gives_parameterAttributes hBuilt
  unfold Build.parameter
  rw [h.filter_parts, h.kept]
  generalize Branch.ofNode .parameter (modifier ++ type ++ name ++ attributes) = b
    at hNamed hAttributes
  rcases h.modifier with rfl | ⟨r, rfl, hr⟩ <;> rcases h.type with rfl | ⟨ts, rfl, -⟩
  · simp only [List.nil_append, h.name.alone, Bool.false_eq_true, if_false, Option.isSome_none]
    exact hNamed false none hAttributes
  · simp only [List.nil_append, List.cons_append, List.map_cons, h.name.behind,
      Reading.token?_node, Option.any_none, Bool.false_eq_true, if_false, List.head?_cons,
      Option.bind_some, Branch.branchOf?_node, if_true, Option.map_some, Option.isSome_some,
      List.drop_succ_cons, List.drop_zero]
    exact hNamed false _ hAttributes
  · simp only [List.append_nil, List.cons_append, List.nil_append, List.map_cons, h.name.behind,
      Reading.token?_token, Option.any_some, hr, if_true, List.drop_succ_cons, List.drop_zero,
      h.name.alone, Option.isSome_none, Bool.false_eq_true, if_false]
    exact hNamed true none hAttributes
  · simp only [List.cons_append, List.nil_append, List.map_cons, isRequired, Reading.rule?_node,
      Reading.token?_token, Option.any_some, hr, beq_self_eq_true, Bool.true_or, Bool.and_self,
      if_true, List.drop_succ_cons, List.drop_zero, List.head?_cons, Option.bind_some,
      Branch.branchOf?_node, Option.map_some, Option.isSome_some]
    exact hNamed true _ hAttributes

end ParameterShape

/-- A parameter with all that may stand beside its name. -/
theorem gives_parameter {cs : List Tree} (h : Parts Rule.parameter.form cs) :
    (Build.parameter (.ofNode .parameter cs)).Gives fun p =>
      heldExpression? p.default? ++ heldAttributes p.attributes = (Tree.node .parameter cs).kept := by
  have hBuilt := h.built
  rcases h.either with h | h
  · obtain ⟨type, name, as, hEq, hShape⟩ := h.parameter (.inl rfl)
    rw [List.nil_append] at hEq
    subst hEq
    exact hShape.gives hBuilt
  · obtain ⟨r, us, rfl, ⟨hr, -⟩, h⟩ := h.token
    obtain ⟨type, name, as, hEq, hShape⟩ := h.parameter (.inr ⟨r, rfl, hr⟩)
    rw [List.singleton_append] at hEq
    rw [hEq] at hBuilt ⊢
    exact hShape.gives hBuilt

theorem heldParameters_eq (params : List (Parameter Expression)) :
    heldParameters params =
      params.flatMap fun p => heldExpression? p.default? ++ heldAttributes p.attributes := by
  induction params with
  | nil => rfl
  | cons p params ih => rw [heldParameters, ih, List.flatMap_cons]

theorem heldArguments_eq (args : List (Argument Expression)) :
    heldArguments args = args.flatMap (·.value.held) := by
  induction args with
  | nil => rfl
  | cons a args ih => rw [heldArguments, ih, List.flatMap_cons]

/-! ## Lists in parentheses -/

/-- What is kept of parts of one sort and marks between them. -/
theorem flatMap_kept_filter {ts : List Tree} {rule : Rule}
    (h : ∀ t ∈ ts, t.isNode rule = true ∨ ∃ u, t = .token u) :
    (ts.filter (·.isNode rule)).flatMap kept = ts.flatMap kept := by
  induction ts with
  | nil => rfl
  | cons t ts ih =>
    have hRest := ih fun t ht => h t (by simp [ht])
    rcases h t (by simp) with hNode | ⟨u, rfl⟩
    · rw [List.filter_cons_of_pos hNode, List.flatMap_cons, List.flatMap_cons, hRest]
    · simpa using hRest

/-- Nodes of one rule with commas between them, in some marks. -/
theorem Parts.listed {rule : Rule} {left right : Symbol} {ts : List Tree}
    (h : Parts (.mark left <| .listed (·.isNode rule) <| .mark right .done) ts) :
    ∀ t ∈ ts, t.isNode rule = true ∨ ∃ u, t = .token u := by
  obtain ⟨l, us, rfl, -, h⟩ := h.kind
  obtain ⟨us, vs, rfl, hus, h⟩ := h.many
  obtain ⟨r, vs, rfl, -, h⟩ := h.kind
  obtain rfl := h.done
  intro t ht
  simp only [List.mem_cons, List.mem_append, List.not_mem_nil, or_false] at ht
  rcases ht with rfl | ht | rfl
  · exact .inr ⟨l, rfl⟩
  · have hSort := (hus t ht).1
    rw [Bool.or_eq_true] at hSort
    refine hSort.imp id fun hToken => ?_
    obtain ⟨u, hu, -⟩ := isTokenThat_iff.1 hToken
    exact ⟨u, hu⟩
  · exact .inr ⟨r, rfl⟩

/-- The parameters of a list. -/
theorem gives_parameterList {cs : List Tree} (h : Parts Rule.parameterList.form cs) :
    (Build.all Build.parameter ((Branch.ofNode .parameterList cs).nodes .parameter)).Gives
      (heldParameters · = (Tree.node .parameterList cs).kept) := by
  refine (gives_all_nodes h.built fun ds => gives_parameter).imp fun ps hps => ?_
  rw [heldParameters_eq, hps, flatMap_kept_filter h.listed, kept_node rfl]

/-- An argument, possibly under a name. -/
theorem gives_argument {cs : List Tree} (h : Parts Rule.argument.form cs) :
    (Build.argument (.ofNode .argument cs)).Gives (·.value.held = (Tree.node .argument cs).kept) := by
  unfold Build.argument
  rcases h.either with h | h
  · obtain ⟨e, us, rfl, he, h⟩ := h.expression
    obtain rfl := h.done
    rw [if_neg (by simp), Branch.childExpression_ofNode rfl]
    exact he.builds.bind fun value hValue => gives_pure (by rw [kept_node rfl]; simp [hValue])
  · obtain ⟨w, us, rfl, hw, h⟩ := h.word
    obtain ⟨m, us, rfl, hm, h⟩ := h.kind
    obtain ⟨e, us, rfl, he, h⟩ := h.expression
    obtain rfl := h.done
    rw [if_pos (by simp [Reading.isToken, hm]), Branch.child_ofNode rfl, pure_bind,
      identifier_token _ hw, pure_bind, Branch.childExpression_ofNode rfl]
    exact he.builds.bind fun value hValue => gives_pure (by rw [kept_node rfl]; simp [hValue])

/-- The arguments of a list. -/
theorem gives_argumentList {cs : List Tree} (h : Parts Rule.argumentList.form cs) :
    (Build.all Build.argument ((Branch.ofNode .argumentList cs).nodes .argument)).Gives
      (heldArguments · = (Tree.node .argumentList cs).kept) := by
  refine (gives_all_nodes h.built fun ds => gives_argument).imp fun xs hxs => ?_
  rw [heldArguments_eq, hxs, flatMap_kept_filter h.listed, kept_node rfl]

end CfScript
