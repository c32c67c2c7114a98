import CfScript.Proofs.Form
import CfScript.Proofs.PlainText
import CfScript.Proofs.Strengths

/-!
# Forms of expressions

For each form of an expression: if its parts are read as trees in their places, then the tokens of the
whole are read as a tree in its own place. Lists of items are read from left to right, up to the token
that closes them.

## Main results

* `leads_paren`, `leads_array`, `leads_struct`, `leads_new`: operands that need no other;
* `leads_call`, `leads_member`, `leads_index`, `leads_postfixed`: what is applied to an operand;
* `complete_unary`, `complete_not`, `leads_binary`: operators;
* `complete_ternary`, `complete_elvis`, `complete_assignment`: what is looser.
-/

namespace CfScript

open Token.Inner Production

variable {ts us vs rest left : List Token.Inner} {T U V : Tree} {trees out : List Tree}
  {o c d t : Token.Inner} {k n : Nat}

theorem Token.Inner.kindAt_ne_arrow (ts : List Token.Inner) (n : Nat) :
    kindAt ts n ≠ .symbol .arrow := by
  induction ts generalizing n with
  | nil => nofun
  | cons t ts ih =>
    cases n with
    | zero => exact t.2.2
    | succ n => exact ih n

/-- A token that is an operand by itself. -/
theorem leads_leaf (h : t.1.kind ∈ Tree.operandKinds) : LeadsApplied [t] (.token t.1) := by
  intro rest out left _ hTail
  have hTake : (Production.take (.again .appliedTail)).Reads [] (t :: rest) out left :=
    .take (.again hTail)
  refine .look ?_
  simp only [Tree.operandKinds, List.mem_cons, List.not_mem_nil, or_false] at h
  rcases h with h | h | h | h | h | h | h <;>
    simp only [window, List.singleton_append, kindAt_zero, h]
  all_goals first | exact hTake | skip
  rw [if_neg (kindAt_ne_arrow _ _)]
  exact hTake

/-- An operand in parentheses. -/
theorem leads_paren (ho : o.1.kind = .symbol .lParen) (hc : c.1.kind = .symbol .rParen)
    (h : Complete .expression Strength.assignment ts T) :
    LeadsApplied (o :: (ts ++ [c])) (.node .parenExpression [.token o.1, T, .token c.1]) := by
  intro rest out left _ hTail
  have hStops : Stops Strength.assignment (c :: rest) := .of_kind hc rfl
  have hParen : (Grammar.parenthesized (.again .appliedTail)).Reads [] (o :: (ts ++ c :: rest)) out
      left :=
    .take (.parse (h _ hStops) (.expect hc (.close (.again hTail))))
  rw [List.cons_append, List.append_assoc, List.singleton_append]
  refine .look ?_
  simp only [window, kindAt_zero, ho]
  unfold Grammar.parenOrArrow
  split
  · rw [if_neg (kindAt_ne_arrow _ _)]
    exact hParen
  split
  · exact .scan (closesBeforeArrow_kinds 0 _) hParen
  · exact hParen

/-! ## Lists -/

/-- The tokens are read as the items of a goal, up to a token that goes on with none of them. -/
def ReadsItems (goal : Goal) (ts : List Token.Inner) (trees : List Tree) : Prop :=
  ∀ ps rest, Stops Strength.assignment rest → kindAt rest 0 ≠ .symbol .comma →
    goal.production.Reads ps (ts ++ rest) (ps ++ trees) rest

/-- The tokens are read as the first item of a goal. -/
def ReadsItem (goal : Goal) (ts : List Token.Inner) (T : Tree) : Prop :=
  ∀ ps rest out left, Stops Strength.assignment rest → kindAt rest 0 ≠ .symbol .assign →
    (Grammar.separated goal).Reads (ps ++ [T]) rest out left →
      goal.production.Reads ps (ts ++ rest) out left

theorem Stops.not_assign (h : Stops Strength.assignment ts) : kindAt ts 0 ≠ .symbol .assign := by
  intro hHere
  have hAssignment := h.assignment
  rw [hHere] at hAssignment
  cases hAssignment

theorem ReadsItem.single {goal : Goal} (h : ReadsItem goal ts T) : ReadsItems goal ts [T] := by
  intro ps rest hStops hComma
  refine h ps rest _ _ hStops hStops.not_assign (.look ?_)
  rw [window, if_neg hComma]
  exact .done

theorem ReadsItem.cons {goal : Goal} (h : ReadsItem goal ts T) (hc : c.1.kind = .symbol .comma)
    (hItems : ReadsItems goal us trees) :
    ReadsItems goal (ts ++ c :: us) (T :: .token c.1 :: trees) := by
  intro ps rest hStops hComma
  have hNext : Stops Strength.assignment (c :: (us ++ rest)) := .of_kind hc rfl
  have hRest := hItems (ps ++ [T] ++ [.token c.1]) rest hStops hComma
  rw [List.append_assoc, List.cons_append]
  refine h ps _ _ _ hNext hNext.not_assign (.look ?_)
  simp only [window, kindAt_zero, hc, if_true]
  simpa using Reads.take (.again hRest)

/-- An element of an array. -/
theorem readsItem_element (h : Complete .expression Strength.assignment ts T) :
    ReadsItem .elements ts T := fun _ _ _ _ hStops _ hNext => .parse (h _ hStops) hNext

/-- An argument without a name, which does not look like one with a name. -/
theorem readsItem_argument (h : Complete .expression Strength.assignment ts T)
    (hStarts : Starts false n ts) (hn : Strength.conditional ≤ n) :
    ReadsItem .arguments ts (.node .argument [T]) := by
  intro ps rest out left hStops hAssign hNext
  have hUnnamed : ¬ ((window (ts ++ rest)).here.isWord = true ∧
      (window (ts ++ rest)).next = .symbol .assign) := by
    have hAppended : Starts false n (ts ++ rest) :=
      hStarts.append (fun hs => ⟨hn, hAssign⟩) hStarts.notHeaded hStarts.signFree
    exact fun ⟨hWord, hNext⟩ => hAppended.second hn hWord hNext
  refine .look ?_
  rw [if_neg hUnnamed]
  exact .node (.parse (h _ hStops) .done) hNext

/-- An argument under a name. -/
theorem readsItem_named (hWord : t.1.kind.isWord = true) (ho : o.1.kind = .symbol .assign)
    (h : Complete .ternary Strength.conditional ts T) :
    ReadsItem .arguments (t :: o :: ts) (.node .argument [.token t.1, .token o.1, T]) := by
  intro ps rest out left hStops _ hNext
  refine .look ?_
  rw [if_pos ⟨hWord, ho⟩]
  exact .node (.take (.take (.parse (h _ (hStops.mono (Nat.zero_le _))) .done))) hNext

/-- An entry of a struct. -/
theorem readsItem_entry
    (hKey : t.1.kind.isWord = true ∨ t.1.kind = .string ∨ t.1.kind = .integer)
    (ho : o.1.kind = .symbol .assign ∨ o.1.kind = .symbol .colon)
    (h : Complete .expression Strength.assignment ts T) :
    ReadsItem .structEntries (t :: o :: ts) (.node .structEntry [.token t.1, .token o.1, T]) := by
  intro ps rest out left hStops _ hNext
  have hEntry : (window (t :: o :: ts ++ rest)).here.isWord = true ∨
      (window (t :: o :: ts ++ rest)).here = .string ∨
        (window (t :: o :: ts ++ rest)).here = .integer := hKey
  have hValue : Grammar.entryValue.Reads [.token t.1] (o :: (ts ++ rest))
      [.token t.1, .token o.1, T] rest := by
    refine .look ?_
    rw [window, kindAt_zero]
    rcases ho with ho | ho
    · rw [if_pos ho]
      exact .take (.parse (h _ hStops) .done)
    · rw [if_neg (by simp [ho])]
      exact .expect ho (.parse (h _ hStops) .done)
  refine .node (.look ?_) hNext
  rw [if_pos hEntry]
  exact .take hValue

/-! ## Operands that need no other -/

/-- What is taken up to a closing token: nothing, or items that do not begin with it. -/
def ReadsClosed (goal : Goal) (close : Symbol) (ts : List Token.Inner) (trees : List Tree) : Prop :=
  ts = [] ∧ trees = [] ∨ (∃ t us, ts = t :: us ∧ t.1.kind ≠ .symbol close) ∧ ReadsItems goal ts trees

/-- Items up to a closing token, where a production asks for them. -/
theorem ReadsClosed.look {goal : Goal} {close : Symbol} {next : Production} {ps : List Tree}
    (h : ReadsClosed goal close ts trees) (hc : c.1.kind = .symbol close)
    (hReach : (TokenKind.symbol close).reach? = none) (hComma : close ≠ .comma)
    (hNext : next.Reads (ps ++ trees ++ [.token c.1]) rest out left) :
    (Production.look fun w => if w.here = .symbol close then .take next
      else .parse goal <| .expect (.symbol close) next).Reads ps (ts ++ c :: rest) out left := by
  refine .look ?_
  rcases h with ⟨rfl, rfl⟩ | ⟨⟨t, us, rfl, hHead⟩, hItems⟩
  · rw [List.nil_append, window, kindAt_zero, if_pos hc]
    exact .take (by simpa using hNext)
  · rw [List.cons_append, window, kindAt_zero, if_neg hHead]
    have hStops : Stops Strength.assignment (c :: rest) := Stops.of_kind hc hReach
    have hRest := hItems [] (c :: rest) hStops (by simpa [hc] using hComma)
    exact .parse hRest (.expect hc hNext)

/-- An array. -/
theorem leads_array (ho : o.1.kind = .symbol .lBracket) (hc : c.1.kind = .symbol .rBracket)
    (h : ReadsClosed .elements .rBracket ts trees) :
    LeadsApplied (o :: (ts ++ [c])) (.node .arrayLiteral ([.token o.1] ++ trees ++ [.token c.1])) := by
  intro rest out left _ hTail
  rw [List.cons_append, List.append_assoc, List.singleton_append]
  refine .look ?_
  simp only [window, kindAt_zero, ho]
  exact .take (h.look hc rfl (by decide) (.close (.again hTail)))

/-- A struct. -/
theorem leads_struct (ho : o.1.kind = .symbol .lBrace) (hc : c.1.kind = .symbol .rBrace)
    (h : ReadsClosed .structEntries .rBrace ts trees) :
    LeadsApplied (o :: (ts ++ [c])) (.node .structLiteral ([.token o.1] ++ trees ++ [.token c.1])) := by
  intro rest out left _ hTail
  rw [List.cons_append, List.append_assoc, List.singleton_append]
  refine .look ?_
  simp only [window, kindAt_zero, ho]
  exact .take (h.look hc rfl (by decide) (.close (.again hTail)))

/-- The node of the arguments between parentheses. -/
def argumentsNode (o c : Token) (trees : List Tree) : Tree :=
  .node .argumentList ([.token o] ++ trees ++ [.token c])

/-- Arguments in parentheses. -/
theorem reads_argumentList {next : Production} {ps : List Tree} (hc : c.1.kind = .symbol .rParen)
    (h : ReadsClosed .arguments .rParen ts trees)
    (hNext : next.Reads (ps ++ [argumentsNode o.1 c.1 trees]) rest out left) :
    (Grammar.argumentList next).Reads ps (o :: (ts ++ c :: rest)) out left :=
  .node (.take (h.look hc rfl (by decide) .done)) hNext

/-- Words with dots between them. -/
inductive Dotted : List Token.Inner → Prop where
  | word {t : Token.Inner} (hWord : t.1.kind.isWord = true) : Dotted [t]
  | cons {t o : Token.Inner} {ts : List Token.Inner} (hWord : t.1.kind.isWord = true)
      (hDot : o.1.kind = .symbol .dot) (h : Dotted ts) : Dotted (t :: o :: ts)

theorem Dotted.tail (h : Dotted ts) (hRest : kindAt rest 0 ≠ .symbol .dot) :
    ∃ t us, ts = t :: us ∧ t.1.kind.isWord = true ∧ ∀ ps,
      Goal.dottedTail.production.Reads ps (us ++ rest) (ps ++ us.map (.token ·.1)) rest := by
  induction h with
  | @word t hWord =>
    refine ⟨t, [], rfl, hWord, fun ps => .look ?_⟩
    rw [List.nil_append, window, if_neg fun h => hRest h.1, List.map_nil, List.append_nil]
    exact .done
  | @cons t o ts hWord hDot _ ih =>
    obtain ⟨u, us, rfl, hNext, hTail⟩ := ih
    refine ⟨t, o :: u :: us, rfl, hWord, fun ps => .look ?_⟩
    have hHere : (window (o :: u :: us ++ rest)).here = .symbol .dot ∧
        (window (o :: u :: us ++ rest)).next.isWord = true := ⟨hDot, hNext⟩
    rw [if_pos hHere]
    have hRest := hTail (ps ++ [.token o.1] ++ [.token u.1])
    exact .take (.take (.again (by simpa using hRest)))

/-- A dotted name. -/
theorem Dotted.reads (h : Dotted ts) (hRest : kindAt rest 0 ≠ .symbol .dot) :
    Goal.dottedName.production.Reads [] (ts ++ rest) (ts.map (.token ·.1)) rest := by
  obtain ⟨t, us, rfl, hWord, hTail⟩ := h.tail hRest
  exact .word hWord (.again (hTail [.token t.1]))

/-- A new object of a class with a dotted name. -/
theorem leads_new (hNew : t.1.kind = .keyword .new) (hPath : Dotted us)
    (ho : o.1.kind = .symbol .lParen) (hc : c.1.kind = .symbol .rParen)
    (h : ReadsClosed .arguments .rParen ts trees) :
    LeadsApplied (t :: (us ++ o :: (ts ++ [c]))) (.node .newExpression
      [.token t.1, .node .typeName (us.map (.token ·.1)), argumentsNode o.1 c.1 trees]) := by
  intro rest out left _ hTail
  have hDot : kindAt (o :: (ts ++ c :: rest)) 0 ≠ .symbol .dot := by simp [ho]
  have hArguments : (Grammar.newArguments (.again .appliedTail)).Reads
      [.token t.1, .node .typeName (us.map (.token ·.1))] (o :: (ts ++ c :: rest)) out left := by
    refine .look ?_
    rw [window, kindAt_zero, if_pos ho]
    exact reads_argumentList hc h (.close (.again hTail))
  have hName : (Production.node .typeName (.parse .dottedName .done)
      (Grammar.newArguments (.again .appliedTail))).Reads [.token t.1]
        (us ++ o :: (ts ++ c :: rest)) out left :=
    .node (.parse (hPath.reads hDot) .done) hArguments
  have hWord : kindAt (us ++ o :: (ts ++ c :: rest)) 0 ≠ .string := by
    obtain ⟨u, vs, rfl, hWord, -⟩ := hPath.tail hDot
    intro hString
    rw [show u.1.kind = .string from hString] at hWord
    cases hWord
  rw [List.cons_append, List.append_assoc, List.cons_append, List.append_assoc,
    List.singleton_append]
  refine .look ?_
  simp only [window, kindAt_zero, hNew]
  refine .take (.look ?_)
  rw [window, if_neg hWord]
  exact hName

/-! ## What is applied to an operand -/

/-- Arguments. -/
theorem leads_call (h : LeadsApplied ts T) (ho : o.1.kind = .symbol .lParen)
    (hc : c.1.kind = .symbol .rParen) (hArgs : ReadsClosed .arguments .rParen us trees) :
    LeadsApplied (ts ++ o :: (us ++ [c])) (.node .callExpression [T, argumentsNode o.1 c.1 trees]) := by
  intro rest out left _ hTail
  rw [List.append_assoc, List.cons_append, List.append_assoc, List.singleton_append]
  refine h _ out left (.primary _) (.look ?_)
  simp only [window, kindAt_zero, ho]
  exact reads_argumentList hc hArgs (.close (.again hTail))

/-- A member. -/
theorem leads_member (h : LeadsApplied ts T)
    (ho : o.1.kind = .symbol .dot ∨ o.1.kind = .symbol .safeDot) (hWord : t.1.kind.isWord = true) :
    LeadsApplied (ts ++ [o, t]) (.node .memberExpression [T, .token o.1, .token t.1]) := by
  intro rest out left _ hTail
  rw [List.append_assoc]
  refine h _ out left (.primary _) (.look ?_)
  rcases ho with ho | ho
  · simp only [window, List.cons_append, kindAt_zero, ho]
    exact .take (.word hWord (.close (.again hTail)))
  · simp only [window, List.cons_append, kindAt_zero, ho]
    exact .take (.word hWord (.close (.again hTail)))

/-- An index. -/
theorem leads_index (h : LeadsApplied ts T) (ho : o.1.kind = .symbol .lBracket)
    (hc : c.1.kind = .symbol .rBracket) (hIndex : Complete .expression Strength.assignment us U) :
    LeadsApplied (ts ++ o :: (us ++ [c]))
      (.node .indexExpression [T, .token o.1, U, .token c.1]) := by
  intro rest out left _ hTail
  rw [List.append_assoc, List.cons_append, List.append_assoc, List.singleton_append]
  refine h _ out left (.primary _) (.look ?_)
  simp only [window, kindAt_zero, ho]
  exact .take (.parse (hIndex _ (Stops.of_kind hc rfl)) (.expect hc (.close (.again hTail))))

/-- A step up or down. -/
theorem leads_postfixed (h : LeadsApplied ts T)
    (ho : o.1.kind = .symbol .plusPlus ∨ o.1.kind = .symbol .minusMinus) :
    LeadsApplied (ts ++ [o]) (.node .postfixExpression [T, .token o.1]) := by
  intro rest out left _ hTail
  rw [List.append_assoc]
  refine h _ out left (.primary _) (.look ?_)
  rcases ho with ho | ho
  · simp only [window, List.cons_append, kindAt_zero, ho]
    exact .take (.close (.again hTail))
  · simp only [window, List.cons_append, kindAt_zero, ho]
    exact .take (.close (.again hTail))

/-! ## Operators -/

/-- An operator before an operand. -/
theorem complete_unary (ho : o.1.kind ∈ Grammar.unaryOperators) (h : CompleteUnary ts T) :
    CompleteUnary (o :: ts) (.node .unaryExpression [.token o.1, T]) := by
  intro rest hRest
  refine .look ?_
  rw [List.cons_append, window, kindAt_zero, if_pos (List.contains_iff_mem.2 ho)]
  exact .take (.parse (h rest hRest) (.close .done))

/-- The word `NOT` before a comparison. -/
theorem complete_not (ho : o.1.kind = .keyword .not) (h : CompleteAt Grammar.notLevel ts T) :
    CompleteAt Grammar.notLevel (o :: ts) (.node .unaryExpression [.token o.1, T]) := by
  intro rest hRest
  refine .look ?_
  rw [List.cons_append, window, kindAt_zero, if_pos ⟨rfl, ho⟩]
  exact .take (.parse (h rest hRest) (.close .done))

/-- The kinds of the tokens of an operator. -/
def BinaryOp.kinds (op : BinaryOp) : List TokenKind := op.lexemes.filterMap Scan.kindOf?

theorem BinaryOp.kinds_eq (op : BinaryOp) :
    op = .is ∧ op.kinds = [.keyword .is] ∨ op.kinds = [.keyword .is, .keyword .not] ∨
      op.kinds = [.keyword .does, .keyword .not, .keyword .contain] ∨
        ∃ kind, op.kinds = [kind] ∧ kind ≠ .keyword .is ∧ kind ≠ .keyword .does := by
  by_cases hIs : op = .is
  · exact .inl ⟨hIs, by rw [hIs]; decide⟩
  by_cases hIsNot : op = .isNot
  · exact .inr (.inl (by rw [hIsNot]; decide))
  by_cases hDoesNot : op = .doesNotContain
  · exact .inr (.inr (.inl (by rw [hDoesNot]; decide)))
  have hOther : op.kinds.length = 1 ∧ op.kinds.head? ≠ some (.keyword .is) ∧
      op.kinds.head? ≠ some (.keyword .does) := by
    cases op <;> first | contradiction | decide
  obtain ⟨hLength, hNotIs, hNotDoes⟩ := hOther
  obtain ⟨kind, hKind⟩ := List.length_eq_one_iff.1 hLength
  rw [hKind] at hNotIs hNotDoes
  exact .inr (.inr (.inr ⟨kind, hKind, by simpa using hNotIs, by simpa using hNotDoes⟩))

/-- The operator starts at its level. -/
theorem BinaryOp.kinds_level (op : BinaryOp) :
    ∃ kind kinds, op.kinds = kind :: kinds ∧ kind ∈ Grammar.binaryLevels.getD op.level [] := by
  have hHead : ∀ kind ∈ op.kinds.head?, kind ∈ Grammar.binaryLevels.getD op.level [] := by
    cases op <;> decide
  have hSome : op.kinds ≠ [] := by cases op <;> decide
  obtain ⟨kind, kinds, hKinds⟩ := List.exists_cons_of_ne_nil hSome
  exact ⟨kind, kinds, hKinds, hHead kind (by rw [hKinds]; rfl)⟩

/-- The tokens of an operator, where no word `NOT` makes another one of it. -/
theorem reads_operator (op : BinaryOp) {ops : List Token.Inner}
    (hOps : ops.map (·.1.kind) = op.kinds) (hNot : op = .is → kindAt ts 0 ≠ .keyword .not)
    {next : Production} {ps : List Tree}
    (h : next.Reads (ps ++ ops.map (.token ·.1)) ts out left) :
    (Grammar.operator next).Reads ps (ops ++ ts) out left := by
  refine .look ?_
  rcases op.kinds_eq with ⟨hIs, hKinds⟩ | hKinds | hKinds | ⟨kind, hKinds, hNotIs, hNotDoes⟩
  · obtain ⟨o, rfl, ho⟩ := List.map_eq_singleton_iff.1 (hOps.trans hKinds)
    rw [List.singleton_append, window, kindAt_zero, if_pos ho]
    refine .take (.look ?_)
    rw [window, if_neg (hNot hIs)]
    exact h
  · obtain ⟨o, us, rfl, ho, hMore⟩ := List.map_eq_cons_iff.1 (hOps.trans hKinds)
    obtain ⟨n, rfl, hn⟩ := List.map_eq_singleton_iff.1 hMore
    rw [List.cons_append, window, kindAt_zero, if_pos ho]
    refine .take (.look ?_)
    rw [List.singleton_append, window, kindAt_zero, if_pos hn]
    exact .take (by simpa using h)
  · obtain ⟨o, us, rfl, ho, hMore⟩ := List.map_eq_cons_iff.1 (hOps.trans hKinds)
    obtain ⟨n, vs, rfl, hn, hMore⟩ := List.map_eq_cons_iff.1 hMore
    obtain ⟨c, rfl, hc⟩ := List.map_eq_singleton_iff.1 hMore
    rw [List.cons_append, window, kindAt_zero, if_neg (by simp [ho]), if_pos ho]
    exact .take (.expect hn (.expect hc (by simpa using h)))
  · obtain ⟨o, rfl, ho⟩ := List.map_eq_singleton_iff.1 (hOps.trans hKinds)
    rw [List.singleton_append, window, kindAt_zero, if_neg (by rwa [ho]), if_neg (by rwa [ho])]
    exact .take h

/-- A binary operator. Behind `IS` no operand starts with the word `NOT`. -/
theorem leads_binary (op : BinaryOp) {ops : List Token.Inner} (hLeft : LeadsAt op.level ts T)
    (hOps : ops.map (·.1.kind) = op.kinds) (hRight : CompleteAt (op.level + 1) us U)
    (hNot : op = .is → NotHeaded us) :
    LeadsAt op.level (ts ++ ops ++ us)
      (.node .binaryExpression ([T] ++ ops.map (.token ·.1) ++ [U])) := by
  intro rest out left hRest hTail
  obtain ⟨kind, kinds, hKinds, hLevel⟩ := op.kinds_level
  obtain ⟨o, more, rfl, ho, -⟩ := List.map_eq_cons_iff.1 (hOps.trans hKinds)
  have hOperator : (Goal.binaryTail op.level).production.Reads [T] (o :: more ++ (us ++ rest)) out
      left := by
    refine .look ?_
    have hContains : (Grammar.binaryLevels.getD op.level []).contains o.1.kind = true :=
      List.contains_iff_mem.2 (ho ▸ hLevel)
    rw [List.cons_append, window, kindAt_zero, if_pos hContains]
    exact reads_operator op hOps (fun hIs => (hNot hIs).kindAt_append)
      (.parse (hRight rest hRest) (.close (.again hTail)))
  have hLt : op.level < 10 := by cases op <;> decide
  have hStops : Stops (Strength.loosestBinary + 2 * (op.level + 1)) (o :: more ++ (us ++ rest)) :=
    .of_reach? (reach?_of_level hLt (ho ▸ hLevel)) fun r hr => by
      cases hr
      omega
  rw [List.append_assoc, List.append_assoc]
  exact hLeft _ out left hStops hOperator

/-! ## What is looser than all operators -/

/-- A choice between two values. -/
theorem complete_ternary (ho : o.1.kind = .symbol .question) (hc : c.1.kind = .symbol .colon)
    (hCondition : CompleteAt 0 ts T) (hThen : Complete .ternary Strength.conditional us U)
    (hElse : Complete .ternary Strength.conditional vs V) :
    Complete .ternary Strength.conditional (ts ++ o :: (us ++ c :: vs))
      (.node .ternaryExpression [T, .token o.1, U, .token c.1, V]) := by
  intro rest hRest
  have hQuestion : Stops (Strength.loosestBinary + 2 * 0) (o :: (us ++ c :: (vs ++ rest))) :=
    .of_reach? ((congrArg _ ho).trans rfl) fun r hr => by
      cases hr
      decide
  rw [List.append_assoc, List.cons_append, List.append_assoc, List.cons_append]
  refine .parse (hCondition _ hQuestion) (.look ?_)
  rw [window, kindAt_zero, if_pos ho]
  exact .take (.parse (hThen _ (.of_kind hc rfl)) (.expect hc (.parse (hElse rest hRest)
    (.close .done))))

/-- A value with a default. -/
theorem complete_elvis (ho : o.1.kind = .symbol .elvis) (hValue : CompleteAt 0 ts T)
    (hDefault : Complete .ternary Strength.conditional us U) :
    Complete .ternary Strength.conditional (ts ++ o :: us)
      (.node .elvisExpression [T, .token o.1, U]) := by
  intro rest hRest
  have hElvis : Stops (Strength.loosestBinary + 2 * 0) (o :: (us ++ rest)) :=
    .of_reach? ((congrArg _ ho).trans rfl) fun r hr => by
      cases hr
      decide
  rw [List.append_assoc, List.cons_append]
  refine .parse (hValue _ hElvis) (.look ?_)
  rw [window, kindAt_zero, if_neg (by simp [ho]), if_pos ho]
  exact .take (.parse (hDefault rest hRest) (.close .done))

/-- An assignment. -/
theorem complete_assignment (ho : o.1.kind.isAssignment = true)
    (hReach : o.1.kind.reach? = some Strength.assignment)
    (hTarget : Complete .ternary Strength.conditional ts T)
    (hValue : Complete .expression Strength.assignment us U) :
    Complete .expression Strength.assignment (ts ++ o :: us)
      (.node .assignmentExpression [T, .token o.1, U]) := by
  intro rest hRest
  have hAssign : Stops Strength.conditional (o :: (us ++ rest)) := .of_reach? hReach fun r hr => by
    cases hr
    decide
  rw [List.append_assoc, List.cons_append]
  refine .parse (hTarget _ hAssign) (.look ?_)
  rw [window, kindAt_zero, if_pos ho]
  exact .take (.parse (hValue rest hRest) (.close .done))

end CfScript
