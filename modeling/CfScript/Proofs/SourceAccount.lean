import CfScript.Proofs.AccountedBuild
import CfScript.Proofs.GrammarMarks
import CfScript.Proofs.SourceBuild
import CfScript.Proofs.Tiling

/-!
# What the build of a source accounts for

Every part of the tree of a source is grounded: its leaves stand side by side in the tree, its names
have texts where the grammar saw a word, and the end of the input has none. So every build of a part
tells what it comes to, and so does the build of the root.

## Main results

* `leafTokens_laws`: a tree is made of tokens of its stream only;
* `Tree.Part.told`: every part of a tree is read with builds that account for what they do;
* `Build.makes_root`: so does the build of the root;
* `run_accounts`: what the build of a source accounts for.
-/

namespace CfScript

/-! ## Where the tokens of a tree come from -/

/-- A run adds leaves whose tokens are tokens of its stream. -/
def LeafTokens (ps : List Tree) (s : ParserState) (qs : List Tree) (s' : ParserState) : Prop :=
  s'.stream.tokens = s.stream.tokens ∧ ∃ ls, Tree.leavesAll qs = Tree.leavesAll ps ++ ls ∧
    ∀ l ∈ ls, ∀ t ∈ l.token?, t ∈ s.stream.tokens

theorem TokenStream.mem_tokens_of_mem_rest {s : TokenStream} {t : Token} (h : t ∈ s.rest) :
    t ∈ s.tokens := by
  simp [tokens, body, h]

namespace LeafTokens

variable {σ : Setting} {ps qs rs : List Tree} {s s' s'' : ParserState}

theorem refl (ps : List Tree) (s : ParserState) : LeafTokens ps s ps s :=
  ⟨rfl, [], (List.append_nil _).symm, List.forall_mem_nil _⟩

theorem trans (h : LeafTokens ps s qs s') (h' : LeafTokens qs s' rs s'') :
    LeafTokens ps s rs s'' := by
  obtain ⟨hTokens, ls, hLeaves, hAll⟩ := h
  obtain ⟨hTokens', ms, hLeaves', hAll'⟩ := h'
  refine ⟨hTokens'.trans hTokens, ls ++ ms, by rw [hLeaves', hLeaves, List.append_assoc], ?_⟩
  exact List.forall_mem_append.2 ⟨hAll, hTokens ▸ hAll'⟩

/-- A leaf for the current token or for none. -/
theorem leaf (ps : List Tree) {l : Leaf} (hTokens : s'.stream.tokens = s.stream.tokens)
    (hLeaf : ∀ t ∈ l.token?, t = s.current) : LeafTokens ps s (ps ++ [.leaf l]) s' := by
  refine ⟨hTokens, [l], by simp [Tree.leavesAll, Tree.leaves], List.forall_mem_singleton.2 ?_⟩
  exact fun t ht => hLeaf t ht ▸ s.stream.current_mem_tokens

end LeafTokens

theorem leafTokens_laws : RunLaws fun _ ps s qs s' => LeafTokens ps s qs s' where
  refl _ ps s := .refl ps s
  trans := .trans
  take _ ps s := .leaf ps s.tokens_advance fun _ ht => (Option.some.inj ht).symm
  assume ps s what fault _ := .leaf ps rfl fun _ ht => by cases ht
  reject ps s fault _ := .leaf ps (s.report fault).tokens_advance fun _ ht => (Option.some.inj ht).symm
  skip ps s _ := .leaf ps s.tokens_advance fun _ ht => (Option.some.inj ht).symm
  recover σ ps s := by
    refine ⟨TokenStream.tokens_advanceBy _ _, Adds.recovered s, (Adds.recover σ ps s).leaves, ?_⟩
    intro l hl t ht
    obtain ⟨hPrefix, -⟩ := Token.skipStatement_prefix .empty s.stream.rest
    refine TokenStream.mem_tokens_of_mem_rest (hPrefix.subset ?_)
    exact Adds.tokens_recovered s ▸ List.mem_filterMap.2 ⟨l, hl, ht⟩
  close _ ps s rule := ⟨rfl, [], by simp [Tree.leavesAll, Tree.leaves], List.forall_mem_nil _⟩
  child ps h := by
    obtain ⟨hTokens, ls, hLeaves, hAll⟩ := h
    exact ⟨hTokens, ls, by rw [Tree.leavesAll_append, hLeaves]; rfl, hAll⟩
  node ps rule h := by
    obtain ⟨hTokens, ls, hLeaves, hAll⟩ := h
    refine ⟨hTokens, ls, ?_, hAll⟩
    rw [Tree.leavesAll_append, Tree.leavesAll, Tree.leaves, hLeaves]
    simp [Tree.leavesAll]
  undo ps h _ := ⟨h.1, [], (List.append_nil _).symm, List.forall_mem_nil _⟩

/-! ## Parts of a tree -/

theorem nameless_notMem {rule : Rule} {ms : List Mark} (h : rule.Admits AllSkipped ms)
    (hNew : rule ≠ .newExpression) (hImport : rule ≠ .importStatement) : .nameless ∉ ms := by
  intro hMem
  have hNot (hAll : AllSkipped ms) : False := by
    obtain ⟨side, hSide⟩ := hAll _ hMem
    cases hSide
  cases rule with
  | newExpression => exact hNew rfl
  | importStatement => exact hImport rfl
  | block =>
    obtain ⟨a, b, rfl, -, -⟩ := h
    simp at hMem
  | structLiteral =>
    obtain ⟨b, rfl, -⟩ := h
    simp at hMem
  | switchStatement =>
    obtain ⟨a, n, b, rfl, -, -⟩ := h
    simp at hMem
  | arrowFunction => obtain rfl | ⟨side, rfl⟩ := h <;> simp at hMem
  | scriptBlock | standaloneExpression => exact h
  | _ => exact hNot h

/-- A part of a tree that a parse gives. Tokens that end the input are empty. -/
structure Tree.Part (g : Ground) (t : Tree) : Prop where
  place : ∃ path, g.tree.part? path = some t
  wellFormed : t.WellFormed
  marked : t.Marked AllSkipped
  empty : ∀ l ∈ t.leaves, ∀ u ∈ l.token?, u.isEnd = true → u.lexeme = ""

namespace Tree

variable {g : Ground} {t : Tree}

theorem infix_leaves {rule : Rule} {cs : List Tree} {c : Tree} (hc : c ∈ cs) :
    c.leaves <:+: (node rule cs).leaves := by
  obtain ⟨front, back, rfl⟩ := List.append_of_mem hc
  exact ⟨leavesAll front, leavesAll back, by simp [Tree.leaves, leavesAll]⟩

/-- The leaves of a part of a tree stand side by side in it. -/
theorem infix_leaves_of_part? {root : Tree} {path : List Nat} (h : root.part? path = some t) :
    t.leaves <:+: root.leaves :=
  part?_of_child (P := fun t => t.leaves <:+: root.leaves)
    (fun _ _ h _ hc => (infix_leaves hc).trans h) (List.infix_refl _) h

theorem Part.leaves (h : t.Part g) : t.leaves <:+: g.tree.leaves :=
  h.place.elim fun _ => infix_leaves_of_part?

theorem part?_concat {root : Tree} {rule : Rule} {cs : List Tree} {path : List Nat} {i : Nat}
    (h : root.part? path = some (node rule cs)) : root.part? (path ++ [i]) = cs[i]? := by
  induction path generalizing root with
  | nil =>
    cases h
    cases hChild : cs[i]? <;> simp [part?, children, hChild]
  | cons j path ih =>
    obtain ⟨c, hChild, h⟩ := Option.bind_eq_some_iff.1 h
    rw [List.cons_append, part?, hChild, Option.bind_some, ih h]

theorem Part.child {rule : Rule} {cs : List Tree} (h : (node rule cs).Part g) :
    ∀ c ∈ cs, c.Part g := by
  intro c hc
  obtain ⟨path, hPart⟩ := h.place
  obtain ⟨i, hChild⟩ := List.getElem?_of_mem hc
  refine ⟨⟨path ++ [i], (part?_concat hPart).trans hChild⟩, h.wellFormed.child c hc, ?_, ?_⟩
  · cases h.marked with
    | node _ hAll => exact hAll c hc
  · exact fun l hl => h.empty l ((infix_leaves hc).subset hl)

/-- The texts of leaves are those of their tokens if the end of the input has none. -/
theorem join_leaves {ls : List Leaf} (h : ∀ l ∈ ls, ∀ u ∈ l.token?, u.isEnd = true → u.lexeme = "") :
    String.join (ls.map (·.text)) = Written.ofTokens (Leaf.passed ls) := by
  induction ls with
  | nil => rfl
  | cons l ls ih =>
    obtain ⟨hHead, hRest⟩ := List.forall_mem_cons.1 h
    have hLeaf : l.text = Written.ofTokens (Leaf.passed [l]) := by
      cases hToken : l.token? with
      | none => simp [Leaf.text, Leaf.passed, Written.ofTokens, hToken]
      | some u =>
        by_cases hEnd : u.isEnd = true
        · simp [Leaf.text, Leaf.passed, Written.ofTokens, hToken, hEnd, hHead u hToken hEnd]
        · simp [Leaf.text, Leaf.passed, Written.ofTokens, hToken, hEnd, String.join_cons]
    have hPassed : Leaf.passed (l :: ls) = Leaf.passed [l] ++ Leaf.passed ls :=
      Leaf.passed_append [l] ls
    rw [List.map_cons, String.join_cons, ih hRest, hLeaf, hPassed]
    simp [Written.ofTokens]

theorem infix_passed {ls ms : List Leaf} (h : ls <:+: ms) : Leaf.passed ls <:+: Leaf.passed ms :=
  (h.filterMap _).filter _

/-- Whether the tree is no token that ends the input. -/
def isOpen (t : Tree) : Bool := t.token?.all (!·.isEnd)

theorem isOpen_of_isNode {rule : Rule} (t : Tree) (h : t.isNode rule = true) : t.isOpen = true := by
  obtain ⟨cs, rfl⟩ := isNode_iff.1 h
  rfl

theorem isOpen_of_isTokenThat {test : Token → Bool} (hTest : ∀ u, test u = true → u.isEnd = false)
    (t : Tree) (h : t.isTokenThat test = true) : t.isOpen = true := by
  obtain ⟨u, rfl, hu⟩ := isTokenThat_iff.1 h
  simp [isOpen, token, token?, hTest u hu]

open Form in
/-- The end of the input is no part of a function. -/
theorem isOpen_of_function {cs : List Tree} (h : Rule.functionDeclaration.form cs) :
    ∀ c ∈ cs, c.Fits (·.isOpen) := by
  have hKind (k : TokenKind) (hk : k ≠ .endOfInput) := isOpen_of_isTokenThat
    (fun (u : Token) (hu : (u.kind == k) = true) => by simpa [Token.isEnd, beq_iff_eq.1 hu] using hk)
  have hWord := isOpen_of_isTokenThat fun (u : Token) (hu : u.kind.isWord = true) => by
    simpa [Token.isEnd] using TokenKind.ne_endOfInput_of_isPlain (TokenKind.isPlain_of_isWord hu)
  have hBody {us : List Tree} (hus : either (Form.node .block Form.done) ending us) :
      ∀ c ∈ us, c.Fits (·.isOpen) := by
    obtain hus | hus := hus
    · exact forall_one isOpen_of_isNode forall_done hus
    · exact forall_many (hKind (.symbol .semicolon) (by rintro ⟨⟩)) forall_done hus
  have hSignature {us : List Tree} (hus : signature us) : ∀ c ∈ us, c.Fits (·.isOpen) := by
    refine forall_one (hKind (.keyword .function) (by rintro ⟨⟩)) (fun hus => ?_) hus
    refine forall_one hWord (fun hus => ?_) hus
    refine forall_one isOpen_of_isNode (fun hus => ?_) hus
    exact forall_many isOpen_of_isNode hBody hus
  refine forall_many (hKind .identifier (by rintro ⟨⟩)) (fun hus => ?_) h
  exact hus.elim hSignature (forall_one isOpen_of_isNode hSignature)

theorem Part.grounded (h : t.Part g) : t.Grounded g where
  token u hu hOpen := by
    cases t with
    | node rule cs => cases hu
    | leaf l =>
      have hToken : l = .matched u := by
        cases l <;> cases hu
        rfl
      refine (infix_passed h.leaves).subset ?_
      simp [Tree.leaves, hToken, Leaf.passed, Leaf.token?, hOpen]
  text _ := ⟨_, infix_passed h.leaves, join_leaves h.empty⟩
  assumed hRule hEmpty := h.place.imp fun _ hPart => ⟨t, hPart, hRule, hEmpty⟩
  whole hClean := by
    rw [hasErrors_eq_leaves, List.any_eq_false]
    exact fun l hl => by simp [hClean l (h.leaves.subset hl)]
  titled rule hRule hNew hImport c hc hType := by
    cases t with
    | leaf l => cases hRule
    | node other cs =>
      obtain rfl : other = rule := Option.some.inj hRule
      intro hEmpty
      have hAdmits : other.Admits AllSkipped (marks cs) := by
        cases h.marked with
        | node hAdmits _ => exact hAdmits
      refine nameless_notMem hAdmits hNew hImport (List.mem_filterMap.2 ⟨c, hc, ?_⟩)
      cases c with
      | leaf l => cases hType
      | node name ds =>
        cases hType
        exact if_pos ⟨rfl, hEmpty⟩
  heads hRule c hc u hu := by
    cases t with
    | leaf l => cases hRule
    | node rule cs =>
      obtain rfl : rule = .functionDeclaration := Option.some.inj hRule
      obtain hErrors | hOpen := isOpen_of_function h.wellFormed.form c hc
      · cases c with
        | node rule ds => cases hu
        | leaf l =>
          cases l with
          | matched v => cases hErrors
          | _ => cases hu
      · simpa [isOpen, hu] using hOpen

open Build in
/-- Every part of a tree is read with builds that account for what they do. -/
theorem Part.told (h : t.Part g) : (Reading.ofTree t).Told g := by
  have hWell := h.wellFormed
  induction hWell with
  | leaf l => exact .mk h.grounded rfl nofun (makes_leafStatement l) (makes_leafExpression h.grounded)
  | @node rule cs _ _ ih =>
    have hTold : ∀ r ∈ Reading.ofTrees cs, r.Told g := by
      rw [Reading.ofTrees_eq_map]
      exact List.forall_mem_map.2 fun c hc => ih c hc (h.child c hc)
    have hChildren := Reading.map_tree_ofTrees cs
    have hBranch : Branch.Told g ⟨rule, .node rule cs, Reading.ofTrees cs⟩ :=
      ⟨rfl, h.grounded, hChildren, hTold⟩
    exact .mk h.grounded hChildren hTold (makes_branchStatement hBranch)
      (makes_branchExpression hBranch)

end Tree

namespace Build

variable {g : Ground} {cs : List Tree} {entry : Entry}

/-- The build of the root of a parse accounts for what it does. -/
theorem makes_root (hParts : ∀ c ∈ cs, c.Part g)
    (hWhole : g.Clean → (Tree.node entry.rule cs).hasErrors = false) :
    g.Makes (root (.node entry.rule cs)) statementNodes? := by
  have hTold : ∀ r ∈ (Reading.ofTree (.node entry.rule cs)).parts, r.Told g := by
    rw [Reading.parts_ofTree]
    exact List.forall_mem_map.2 fun c hc => (hParts c hc).told
  cases entry with
  | script =>
    refine (makes_statements hTold).bind fun ss hss => ?_
    split
    · exact .pure (by simp [statementNodes?]) rfl
    next s =>
      have hNodes : statementNodes [s] = s.nodes := by simp [statementNodes]
      rw [hNodes] at hss ⊢
      exact .pure hss (zero_add _)
    · refine .pure (by simpa [statementNodes?, Statement.nodes, Node.texts] using hss) ?_
      simp [statementNodes?, Statement.nodes, Node.validate, Statement.validate, Statement.element?]
  | expression =>
    have hStandalone {parts : List Reading} (h : ∀ r ∈ parts, r.Told g) :
        g.Makes (standalone (.node Entry.expression.rule cs) parts) statementNodes? := by
      cases parts with
      | nil => exact .pure (by simp [statementNodes?]) rfl
      | cons r rs =>
        have hExpression := (h r (by simp)).expression
        refine (hExpression.orLeaveOut hWhole).map (fun e? he => ?_) fun e? _ => ?_
        · cases e? with
          | none => simp [statementNodes?]
          | some e => simpa [statementNodes?, Statement.nodes, Node.texts] using he e rfl
        · cases e? with
          | none => rfl
          | some e =>
            simp [statementNodes?, Statement.nodes, Node.validate, Statement.validate,
              Statement.element?]
    exact hStandalone hTold

/-- What may be left out is built or left out. -/
theorem gives_orLeaveOut {α : Type} (rule : Rule) (t : Tree) (b : Build α) :
    (orLeaveOut rule t b).Gives fun _ => True := by
  intro rules log
  rw [orLeaveOut, runOn_tryCatch]
  cases (some <$> b).runOn rules log with
  | mk result log' =>
    cases result with
    | ok a? => exact ⟨a?, log', rfl, trivial⟩
    | error e => exact ⟨none, _, rfl, trivial⟩

theorem gives_statements (rs : List Reading) : (statements rs).Gives fun _ => True := by
  induction rs with
  | nil => exact gives_pure trivial
  | cons r rs ih =>
    unfold statements
    split
    · exact ih
    · exact ih
    · exact (gives_orLeaveOut _ _ _).bind fun _ _ => ih.bind fun _ _ => gives_pure trivial

/-- The build of the root of a parse does not fail. -/
theorem gives_root (entry : Entry) (cs : List Tree) :
    (root (.node entry.rule cs)).Gives fun _ => True := by
  cases entry with
  | script =>
    refine (gives_statements _).bind fun ss _ => ?_
    split <;> exact gives_pure trivial
  | expression =>
    have hStandalone (parts : List Reading) :
        (standalone (.node Entry.expression.rule cs) parts).Gives fun _ => True := by
      cases parts with
      | nil => exact gives_pure trivial
      | cons r rs => exact (gives_orLeaveOut _ _ _).bind fun _ _ => gives_pure trivial
    exact hStandalone _

end Build

/-! ## Sources -/

theorem TokenStream.mem_ofTokens_tokens {source : String} {t : Token}
    (h : t ∈ (ofTokens (Token.tokens source)).tokens) : t ∈ Token.tokens source := by
  rw [tokens, body, before_ofTokens_tokens, rest_ofTokens_tokens] at h
  simp only [List.reverse_nil, List.nil_append, List.mem_append, List.mem_singleton] at h
  obtain h | rfl := h
  · exact (Token.mem_words.1 h).1
  · exact List.mem_of_getLast? (last_ofTokens_tokens source)

namespace Ground

/-- The ground of the build of a source. -/
def ofSource (source : String) (options : ParseOptions) (rules : AttributeRules) : Ground where
  rules
  tree := (parse source options).tree
  filled t ht := by
    rw [passed_of_parse source options] at ht
    obtain ⟨hMem, -, hOpen⟩ := Token.mem_words.1 ht
    intro hEmpty
    simp [(Token.lexeme_eq_empty_iff hMem).1 hEmpty] at hOpen

variable {source : String} {options : ParseOptions} {rules : AttributeRules}

theorem tokens_ofSource : (ofSource source options rules).tokens = Token.words source :=
  passed_of_parse source options

end Ground

namespace Parser

variable {stream : TokenStream} {prediction : Prediction} {entry : Entry} {tree : Tree} {q : Parser}

/-- The leaves of a tree that a parser gives stand for tokens of its stream. -/
theorem leafTokens_of_parse (h : (new stream prediction).parse entry = (.ok tree, q)) :
    ∀ l ∈ tree.leaves, ∀ u ∈ l.token?, u ∈ stream.tokens := by
  obtain ⟨parts, rfl, -, hParsed⟩ := parse_eq_ok_iff.1 h
  obtain ⟨-, ls, hLeaves, hAll⟩ := leafTokens_laws.run _ _ _ _ _ _ _ hParsed
  have hNode : (Tree.node entry.rule parts).leaves = ls := hLeaves
  exact hNode ▸ hAll

end Parser

/-- The tree of a source has the rule of the entry at its root, and all in it is part of it. -/
theorem parts_ofSource (source : String) (options : ParseOptions) (rules : AttributeRules) :
    ∃ cs, (parse source options).tree = .node options.entry.rule cs ∧
      ∀ c ∈ cs, c.Part (.ofSource source options rules) := by
  have hWhole := TokenStream.Whole.ofSource source
  have hPart {cs : List Tree} (hTree : (parse source options).tree = .node options.entry.rule cs)
      (hTokens : ∀ l ∈ (parse source options).tree.leaves, ∀ u ∈ l.token?,
        u ∈ (TokenStream.ofTokens (Token.tokens source)).tokens)
      (hWell : ∀ c ∈ cs, c.WellFormed) : ∀ c ∈ cs, c.Part (.ofSource source options rules) := by
    obtain ⟨hMarked, -⟩ := parse_marked (R := AllSkipped) nofun
      (fun ts _ => allSkipped_skippedMarks ts) options
    rw [hTree] at hMarked
    intro c hc
    have hInfix : c.leaves <:+: (parse source options).tree.leaves :=
      hTree ▸ Tree.infix_leaves hc
    obtain ⟨i, hChild⟩ := List.getElem?_of_mem hc
    have hRoot : (parse source options).tree.part? [] = some (.node options.entry.rule cs) :=
      congrArg some hTree
    have hPlace : (parse source options).tree.part? [i] = some c :=
      (Tree.part?_concat hRoot).trans hChild
    refine ⟨⟨[i], hPlace⟩, hWell c hc, hMarked c hc, fun l hl u hu hEnd => ?_⟩
    have hMem := TokenStream.mem_ofTokens_tokens (hTokens l (hInfix.subset hl) u hu)
    exact (Token.lexeme_eq_empty_iff hMem).2 hEnd
  rcases parseStream_cases options hWhole with ⟨prediction, q, hParse, -⟩ | ⟨bail, q, -, hSkipped⟩
  · obtain ⟨cs, hTree, -⟩ := Parser.parse_eq_ok_iff.1 hParse
    have hNode : (parse source options).tree = .node options.entry.rule cs := hTree
    have hWell := Parser.wellFormed_of_parse hWhole hParse
    rw [hTree] at hWell
    exact ⟨cs, hNode, hPart hNode (Parser.leafTokens_of_parse hParse) hWell.child⟩
  · have hNode : (parse source options).tree =
        .node options.entry.rule ((TokenStream.ofTokens (Token.tokens source)).rest.map .skipped ++
          [.token (TokenStream.ofTokens (Token.tokens source)).last]) := congrArg Prod.fst hSkipped
    have hLeaves : ∀ c ∈ (TokenStream.ofTokens (Token.tokens source)).rest.map Tree.skipped ++
        [.token (TokenStream.ofTokens (Token.tokens source)).last], ∃ l, c = .leaf l ∧
          ∀ u ∈ l.token?, u ∈ (TokenStream.ofTokens (Token.tokens source)).tokens := by
      refine List.forall_mem_append.2 ⟨List.forall_mem_map.2 fun u hu => ?_,
        List.forall_mem_singleton.2 ?_⟩
      · exact ⟨.skipped u, rfl, fun _ h => Option.some.inj h ▸ TokenStream.mem_tokens_of_mem_rest hu⟩
      · exact ⟨.matched _, rfl, fun _ h => Option.some.inj h ▸ by simp [TokenStream.tokens]⟩
    refine ⟨_, hNode, hPart hNode (fun l hl => ?_) fun c hc => ?_⟩
    · rw [hNode] at hl
      obtain ⟨c, hc, hMem⟩ := Tree.mem_leavesAll.1 hl
      obtain ⟨l', rfl, hTokens⟩ := hLeaves c hc
      exact List.mem_singleton.1 hMem ▸ hTokens
    · obtain ⟨l, rfl, -⟩ := hLeaves c hc
      exact .leaf l

/-- What the build of a source accounts for: its findings are placed, the texts of what it gives come
from tokens, and if nothing is wrong with the tree and no attribute is given twice, the unknown
attributes that are found are those of what it gives. -/
theorem run_accounts (source : String) (options : ParseOptions) (rules : AttributeRules) :
    ∃ root? ds, Build.run (parse source options).tree rules = (root?, ⟨ds⟩) ∧
      (∀ d ∈ ds, (Ground.ofSource source options rules).Places d) ∧
      (Ground.ofSource source options rules).DrawsAll (statementNodes? root?) ∧
      ((parse source options).tree.hasErrors = false → (∀ d ∈ ds, d.IsPlain) →
        strange ds = (Ground.ofSource source options rules).tally (statementNodes? root?)) := by
  obtain ⟨cs, hTree, hParts⟩ := parts_ofSource source options rules
  have hWhole (hClean : (Ground.ofSource source options rules).Clean) :
      (parse source options).tree.hasErrors = false := by
    rw [Tree.hasErrors_eq_leaves, List.any_eq_false]
    exact fun l hl => by simp [hClean l hl]
  obtain ⟨result, ds, hRun, hPlaces, hOk⟩ := Build.makes_root hParts (hTree ▸ hWhole) .empty
  obtain ⟨root?, log, hGives, -⟩ := Build.gives_root options.entry cs rules .empty
  have hResult : Build.runOn (Build.root (.node options.entry.rule cs)) rules .empty =
      (result, Log.empty.append ds) := hRun
  obtain ⟨rfl, -⟩ := Prod.mk.inj (hResult.symm.trans hGives)
  obtain ⟨hDraws, hCount⟩ := hOk root? rfl
  refine ⟨root?, ds, ?_, hPlaces, hDraws, fun hErrors hPlain => ?_⟩
  · rw [hTree, Build.run, hResult]
    rfl
  · have hClean : (Ground.ofSource source options rules).Clean := by
      rw [Tree.hasErrors_eq_leaves, List.any_eq_false] at hErrors
      exact fun l hl => Bool.eq_false_iff.2 (hErrors l hl)
    simpa using hCount hClean hPlain

end CfScript
