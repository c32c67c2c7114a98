import CfScript.Proofs.ReadsForms

/-!
# Forms of statements

For each form of control flow: if its parts are read as trees, then the tokens of the whole are read as
a tree. A statement is read in front of anything, with one exception: where it ends with an `if` that
has no `else`, the next token must be none, for that `if` would take it.

Which statements are so open follows from the form: a branch without `else` is; one with an `else`, a
`while` or a `for` is if the statement at its end is; a block, a `do` and a jump never are. `do` ends
with its condition, whatever its body is.

## Main results

* `ReadsStatement`: the tokens of a statement, open or not;
* `readsStatement_if`, `readsStatement_ifElse`: branches;
* `readsStatement_while`, `readsStatement_do`, `readsStatement_for`, `readsStatement_forIn`: loops;
* `readsStatement_block`: statements in braces.
-/

namespace CfScript

open Token.Inner Production

/-- Tokens that may follow a statement and that none starts with. -/
def Grammar.statementEnds : List TokenKind := [.symbol .rBrace, .keyword .else_]

/-- The tokens are read as the tree in the place of a statement. If the statement is open, no `else` may
follow. -/
structure ReadsStatement (isOpen : Bool) (ts : List Token.Inner) (T : Tree) : Prop where
  head : ∃ t us, ts = t :: us ∧ t.1.kind ∉ Grammar.statementEnds
  reads : ∀ rest, (isOpen = true → kindAt rest 0 ≠ .keyword .else_) →
    Goal.statement.production.Reads [] (ts ++ rest) [T] rest

variable {ts us vs ws rest left : List Token.Inner} {T U V W : Tree} {trees ps out : List Tree}
  {c d e k o t v w x : Token.Inner} {isOpen : Bool} {next : Production}

/-- No statement that may be followed by an `else` is open. -/
theorem ReadsStatement.before (h : ReadsStatement isOpen ts T) (ht : t.1.kind ≠ .keyword .else_)
    (rest : List Token.Inner) :
    Goal.statement.production.Reads [] (ts ++ t :: rest) [T] (t :: rest) :=
  h.reads _ fun _ => ht

/-! ## Pieces of statements -/

/-- A condition in parentheses. -/
theorem reads_condition (ho : o.1.kind = .symbol .lParen) (hc : c.1.kind = .symbol .rParen)
    (h : Complete .expression Strength.assignment ts T)
    (hNext : next.Reads (ps ++ [.token o.1, T, .token c.1]) rest out left) :
    (Grammar.condition next).Reads ps (o :: (ts ++ c :: rest)) out left :=
  .expect ho (.parse (h _ (Stops.of_kind hc rfl)) (.expect hc (by simpa using hNext)))

/-- The semicolon at the end of a statement. -/
theorem reads_terminated {rule : Rule} (hd : d.1.kind = .symbol .semicolon) :
    (Grammar.terminated rule).Reads ps (d :: rest) [.node rule (ps ++ [.token d.1])] rest := by
  refine .look ?_
  rw [window, kindAt_zero, if_pos hd]
  exact .take (.close .done)

/-! ## Branches -/

/-- A branch without `else`. -/
theorem readsStatement_if (hk : k.1.kind = .keyword .if_) (ho : o.1.kind = .symbol .lParen)
    (hc : c.1.kind = .symbol .rParen) (hCondition : Complete .expression Strength.assignment ts T)
    (hThen : ReadsStatement isOpen us U) :
    ReadsStatement true (k :: o :: (ts ++ c :: us))
      (.node .ifStatement [.token k.1, .token o.1, T, .token c.1, U]) where
  head := ⟨k, _, rfl, by rw [hk]; decide⟩
  reads rest hRest := by
    have hElse := hRest rfl
    refine .look ?_
    simp only [window, List.cons_append, List.append_assoc, kindAt_zero, hk]
    refine .take (reads_condition ho hc hCondition ?_)
    refine .parse (hThen.reads rest fun _ => hElse) (.look ?_)
    rw [window, if_neg hElse]
    exact .close .done

/-- A branch with an `else`, which belongs to it as the statement before is not open. -/
theorem readsStatement_ifElse (hk : k.1.kind = .keyword .if_) (ho : o.1.kind = .symbol .lParen)
    (hc : c.1.kind = .symbol .rParen) (he : e.1.kind = .keyword .else_)
    (hCondition : Complete .expression Strength.assignment ts T) (hThen : ReadsStatement false us U)
    (hElse : ReadsStatement isOpen vs V) :
    ReadsStatement isOpen (k :: o :: (ts ++ c :: (us ++ e :: vs)))
      (.node .ifStatement [.token k.1, .token o.1, T, .token c.1, U, .token e.1, V]) where
  head := ⟨k, _, rfl, by rw [hk]; decide⟩
  reads rest hRest := by
    refine .look ?_
    simp only [window, List.cons_append, List.append_assoc, kindAt_zero, hk]
    refine .take (reads_condition ho hc hCondition (.parse (hThen.reads _ (by rintro ⟨⟩)) (.look ?_)))
    rw [window, kindAt_zero, if_pos he]
    exact .take (.parse (hElse.reads rest hRest) (.close .done))

/-! ## Loops -/

/-- A `while`. -/
theorem readsStatement_while (hk : k.1.kind = .keyword .while_) (ho : o.1.kind = .symbol .lParen)
    (hc : c.1.kind = .symbol .rParen) (hCondition : Complete .expression Strength.assignment ts T)
    (hBody : ReadsStatement isOpen us U) :
    ReadsStatement isOpen (k :: o :: (ts ++ c :: us))
      (.node .whileStatement [.token k.1, .token o.1, T, .token c.1, U]) where
  head := ⟨k, _, rfl, by rw [hk]; decide⟩
  reads rest hRest := by
    refine .look ?_
    simp only [window, List.cons_append, List.append_assoc, kindAt_zero, hk]
    exact .take (reads_condition ho hc hCondition (.parse (hBody.reads rest hRest) (.close .done)))

/-- A `do` with its `while`. -/
theorem readsStatement_do (hk : k.1.kind = .keyword .do_) (hw : w.1.kind = .keyword .while_)
    (ho : o.1.kind = .symbol .lParen) (hc : c.1.kind = .symbol .rParen)
    (hd : d.1.kind = .symbol .semicolon) (hBody : ReadsStatement isOpen us U)
    (hCondition : Complete .expression Strength.assignment ts T) :
    ReadsStatement false (k :: (us ++ w :: o :: (ts ++ [c, d])))
      (.node .doWhileStatement [.token k.1, U, .token w.1, .token o.1, T, .token c.1, .token d.1]) where
  head := ⟨k, _, rfl, by rw [hk]; decide⟩
  reads rest _ := by
    refine .look ?_
    simp only [window, List.cons_append, List.append_assoc, List.nil_append, kindAt_zero, hk]
    exact .take (.parse (hBody.before (by rw [hw]; decide) _) (.expect hw
      (reads_condition ho hc hCondition (reads_terminated hd))))

/-- A clause of a loop header: an expression that does not start with the mark behind it, or none. -/
def ReadsClause (ts : List Token.Inner) (T? : Option Tree) : Prop :=
  ts = [] ∧ T? = none ∨ ∃ T t us, T? = some T ∧ ts = t :: us ∧ t.1.kind ∉ Grammar.nonStarters ∧
    Complete .expression Strength.assignment ts T

theorem ReadsClause.reads {T? : Option Tree} (h : ReadsClause ts T?) {s : Symbol}
    (hMark : .symbol s ∈ Grammar.nonStarters) (hReach : (TokenKind.symbol s).reach? = none)
    (ht : t.1.kind = .symbol s)
    (hNext : next.Reads (ps ++ T?.toList ++ [.token t.1]) rest out left) :
    (Grammar.loopClause (.symbol s) next).Reads ps (ts ++ t :: rest) out left := by
  refine .look ?_
  rcases h with ⟨rfl, rfl⟩ | ⟨T, u, us, rfl, rfl, hHead, hComplete⟩
  · rw [List.nil_append, window, kindAt_zero, if_pos ht]
    exact .take (by simpa using hNext)
  · have hNe : u.1.kind ≠ .symbol s := fun hSame => hHead (hSame ▸ hMark)
    rw [List.cons_append, window, kindAt_zero, if_neg hNe]
    exact .parse (hComplete _ (Stops.of_kind ht hReach)) (.expect ht hNext)

/-- What a loop starts with, up to the semicolon behind it. -/
def ReadsStart (ts : List Token.Inner) (T? : Option Tree) : Prop :=
  ∀ k o d rest out left, o.1.kind = .symbol .lParen → d.1.kind = .symbol .semicolon →
    Grammar.loopRest.Reads ([.token k.1, .token o.1] ++ T?.toList ++ [.token d.1]) rest out left →
      Grammar.forStatement.Reads [] (k :: o :: (ts ++ d :: rest)) out left

/-- A loop may start with nothing. -/
theorem readsStart_none : ReadsStart [] none := by
  intro k o d rest out left ho hd hNext
  have hClauses : Grammar.forClauses.Reads [.token k.1, .token o.1] (d :: rest) out left := by
    refine .look ?_
    rw [window, kindAt_zero, if_neg (by simp [hd])]
    exact .look (by rw [window, kindAt_zero, if_pos hd]; exact .take hNext)
  refine .take (.expect ho (.look ?_))
  simp only [window, List.nil_append, kindAt_zero, hd]
  exact hClauses

/-- A declaration at the start of a loop, which neither `in` nor a longer target follows. -/
theorem reads_forVar (ho : o.1.kind = .symbol .lParen) (hv : v.1.kind = .keyword .var)
    (hx : x.1.kind.isWord = true)
    (hIn : kindAt ts 0 ∉ .keyword .in_ :: Grammar.targetTails)
    (hName : (Grammar.declaration .done).Reads [] (v :: x :: ts) trees us)
    (hNext : (Production.expect (.symbol .semicolon) Grammar.loopRest).Reads
      [.token k.1, .token o.1, .node .varStatement trees] us out left) :
    Grammar.forStatement.Reads [] (k :: o :: v :: x :: ts) out left := by
  have hClauses : Grammar.forClauses.Reads [.token k.1, .token o.1] (v :: x :: ts) out left := by
    refine .look ?_
    rw [window, kindAt_zero, if_pos hv]
    exact .node hName hNext
  have hTails : Grammar.targetTails.contains (kindAt ts 0) = false := by
    simpa using fun h => hIn (List.mem_cons_of_mem _ h)
  refine .take (.expect ho (.look ?_))
  have hNotIn : kindAt ts 0 ≠ .keyword .in_ := fun h => hIn (by simp [h])
  simp only [window, kindAt_zero, kindAt_succ, hv, if_true, hx, Bool.true_eq_false, if_false, hTails,
    Bool.false_eq_true, if_neg hNotIn]
  exact hClauses

/-- A declaration without a value. -/
theorem readsStart_declare (hv : v.1.kind = .keyword .var) (hx : x.1.kind.isWord = true) :
    ReadsStart [v, x] (some (.node .varStatement [.token v.1, .token x.1])) := by
  intro k o d rest out left ho hd hNext
  rw [List.cons_append, List.cons_append, List.nil_append]
  refine reads_forVar ho hv hx (by rw [kindAt_zero, hd]; decide) ?_ (.expect hd hNext)
  refine .take (.word hx (.look ?_))
  rw [window, kindAt_zero, if_neg (by simp [hd])]
  exact .done

/-- A declaration with a value. -/
theorem readsStart_assign (hv : v.1.kind = .keyword .var) (hx : x.1.kind.isWord = true)
    (he : e.1.kind = .symbol .assign) (h : Complete .expression Strength.assignment ts T) :
    ReadsStart (v :: x :: e :: ts)
      (some (.node .varStatement [.token v.1, .token x.1, .token e.1, T])) := by
  intro k o d rest out left ho hd hNext
  rw [List.cons_append, List.cons_append, List.cons_append]
  refine reads_forVar ho hv hx (by rw [kindAt_zero, he]; decide) ?_ (.expect hd hNext)
  refine .take (.word hx (.look ?_))
  rw [window, kindAt_zero, if_pos he]
  exact .take (.parse (h _ (Stops.of_kind hd rfl)) .done)

/-- A `for` with three clauses. -/
theorem readsStatement_for {T? U? V? : Option Tree} (hk : k.1.kind = .keyword .for_)
    (ho : o.1.kind = .symbol .lParen) (hd : d.1.kind = .symbol .semicolon)
    (he : e.1.kind = .symbol .semicolon) (hc : c.1.kind = .symbol .rParen) (hStart : ReadsStart ts T?)
    (hTest : ReadsClause us U?) (hUpdate : ReadsClause vs V?) (hBody : ReadsStatement isOpen ws W) :
    ReadsStatement isOpen (k :: o :: (ts ++ d :: (us ++ e :: (vs ++ c :: ws))))
      (.node .forStatement (.token k.1 :: .token o.1 :: (T?.toList ++ .token d.1 ::
        (U?.toList ++ .token e.1 :: (V?.toList ++ [.token c.1, W]))))) where
  head := ⟨k, _, rfl, by rw [hk]; decide⟩
  reads rest hRest := by
    have hFor : Grammar.forStatement.Reads [] (k :: o :: (ts ++ d :: (us ++ e :: (vs ++ c ::
        (ws ++ rest))))) [.node .forStatement ([.token k.1, .token o.1] ++ T?.toList ++ [.token d.1] ++
          U?.toList ++ [.token e.1] ++ V?.toList ++ [.token c.1] ++ [W])] rest := by
      refine hStart k o d _ _ _ ho hd (hTest.reads (by decide) rfl he ?_)
      refine hUpdate.reads (by decide) rfl hc ?_
      exact .parse (hBody.reads rest hRest) (.close .done)
    refine .look ?_
    simp only [window, List.cons_append, List.append_assoc, kindAt_zero, hk]
    simpa using hFor

/-- The collection of a `for` and its body. -/
theorem reads_collection (hw : w.1.kind = .keyword .in_) (hc : c.1.kind = .symbol .rParen)
    (hCollection : Complete .expression Strength.assignment ts T)
    (hBody : Goal.statement.production.Reads [] us [U] rest) :
    (Production.expect (.keyword .in_) <| .parse .expression <| .expect (.symbol .rParen) <|
      .parse .statement <| .close .forInStatement .done).Reads ps (w :: (ts ++ c :: us))
        [.node .forInStatement (ps ++ [.token w.1, T, .token c.1, U])] rest := by
  have hClose : (Production.close .forInStatement .done).Reads (ps ++ [.token w.1, T, .token c.1, U])
      rest [.node .forInStatement (ps ++ [.token w.1, T, .token c.1, U])] rest := .close .done
  refine .expect hw (.parse (hCollection _ (Stops.of_kind hc rfl)) (.expect hc (.parse hBody ?_)))
  simpa using hClose

/-- The name that a loop over a collection has for its target. -/
theorem reads_target (hx : x.1.kind = .identifier) (hw : w.1.kind = .keyword .in_)
    (ts : List Token.Inner) :
    Goal.applied.production.Reads [] (x :: w :: ts) [.token x.1] (w :: ts) :=
  leads_leaf (by rw [hx]; decide) _ _ _ (.primary _) (Stops.of_kind hw rfl).appliedTail

/-- A `for` over a collection. -/
theorem readsStatement_forIn (hk : k.1.kind = .keyword .for_) (ho : o.1.kind = .symbol .lParen)
    (hx : x.1.kind = .identifier) (hw : w.1.kind = .keyword .in_) (hc : c.1.kind = .symbol .rParen)
    (hCollection : Complete .expression Strength.assignment ts T)
    (hBody : ReadsStatement isOpen us U) :
    ReadsStatement isOpen (k :: o :: x :: w :: (ts ++ c :: us))
      (.node .forInStatement [.token k.1, .token o.1, .token x.1, .token w.1, T, .token c.1, U]) where
  head := ⟨k, _, rfl, by rw [hk]; decide⟩
  reads rest hRest := by
    refine .look ?_
    simp only [window, List.cons_append, List.append_assoc, kindAt_zero, hk]
    refine .take (.expect ho (.look ?_))
    simp only [window, kindAt_zero, kindAt_succ, hx, hw]
    refine .look ?_
    rw [window, kindAt_zero, if_neg (by simp [hx])]
    exact .parse (reads_target hx hw _)
      (reads_collection hw hc hCollection (hBody.reads rest hRest))

/-- A `for` over a collection that declares its target. -/
theorem readsStatement_forVarIn (hk : k.1.kind = .keyword .for_) (ho : o.1.kind = .symbol .lParen)
    (hv : v.1.kind = .keyword .var) (hx : x.1.kind = .identifier) (hw : w.1.kind = .keyword .in_)
    (hc : c.1.kind = .symbol .rParen) (hCollection : Complete .expression Strength.assignment ts T)
    (hBody : ReadsStatement isOpen us U) :
    ReadsStatement isOpen (k :: o :: v :: x :: w :: (ts ++ c :: us)) (.node .forInStatement
      [.token k.1, .token o.1, .token v.1, .token x.1, .token w.1, T, .token c.1, U]) where
  head := ⟨k, _, rfl, by rw [hk]; decide⟩
  reads rest hRest := by
    refine .look ?_
    simp only [window, List.cons_append, List.append_assoc, kindAt_zero, hk]
    refine .take (.expect ho (.look ?_))
    simp only [window, kindAt_zero, kindAt_succ, hv, hx, hw]
    refine .look ?_
    rw [window, kindAt_zero, if_pos hv]
    exact .take (.parse (reads_target hx hw _)
      (reads_collection hw hc hCollection (hBody.reads rest hRest)))

/-! ## Blocks and jumps -/

/-- The tokens are read as the trees of statements, one after the other, up to a closing brace. -/
structure ReadsStatements (ts : List Token.Inner) (trees : List Tree) : Prop where
  head : ∀ t us, ts = t :: us → t.1.kind ∉ Grammar.statementEnds
  reads : ∀ ps c rest, c.1.kind = .symbol .rBrace →
    (Goal.statements [.symbol .rBrace]).production.Reads ps (ts ++ c :: rest) (ps ++ trees) (c :: rest)

theorem readsStatements_nil : ReadsStatements [] [] where
  head := nofun
  reads ps c rest hc := by
    refine .look ?_
    rw [List.nil_append, window, kindAt_zero, hc, if_pos (.inr rfl), List.append_nil]
    exact .done

/-- No `else` is the next token behind a statement of a block. -/
theorem ReadsStatements.kindAt_ne_else (h : ReadsStatements ts trees)
    (hc : c.1.kind = .symbol .rBrace) : kindAt (ts ++ c :: rest) 0 ≠ .keyword .else_ := by
  cases ts with
  | nil =>
    rw [List.nil_append, kindAt_zero, hc]
    decide
  | cons t us => exact fun hElse => h.head t us rfl (by rw [show t.1.kind = _ from hElse]; decide)

theorem readsStatements_cons (hHead : ReadsStatement isOpen ts T) (hTail : ReadsStatements us trees) :
    ReadsStatements (ts ++ us) (T :: trees) := by
  obtain ⟨t, more, rfl, ht⟩ := hHead.head
  refine ⟨?_, fun ps c rest hc => ?_⟩
  · rintro _ _ ⟨⟩
    exact ht
  have hEnd : t.1.kind ≠ .endOfInput := by simpa [Token.isEnd] using t.2.1
  have hStop : [TokenKind.symbol .rBrace].contains t.1.kind = false := by
    have hNe : t.1.kind ≠ .symbol .rBrace := fun h => ht (by rw [h]; decide)
    simpa using hNe
  rw [List.append_assoc]
  refine .look ?_
  rw [List.cons_append, window, kindAt_zero, hStop, if_neg (by simp [hEnd])]
  have hShorter : (us ++ c :: rest).length < (t :: (more ++ (us ++ c :: rest))).length := by
    simp only [List.length_cons, List.length_append]
    omega
  refine .progress (hHead.reads _ fun _ => hTail.kindAt_ne_else hc) hShorter (.again ?_)
  simpa using hTail.reads (ps ++ [T]) c rest hc

/-- Statements in braces. -/
theorem readsStatement_block (ho : o.1.kind = .symbol .lBrace) (hc : c.1.kind = .symbol .rBrace)
    (h : ReadsStatements ts trees) :
    ReadsStatement false (o :: (ts ++ [c]))
      (.node .block ([.token o.1] ++ trees ++ [.token c.1])) where
  head := ⟨o, _, rfl, by rw [ho]; decide⟩
  reads rest _ := by
    refine .look ?_
    simp only [window, List.cons_append, List.append_assoc, List.nil_append, kindAt_zero, ho]
    exact .node (.expect ho (.parse (h.reads [] c rest hc) (.expect hc .done))) .done

/-- A `break`, a `continue` or a `return` without a value. -/
theorem readsStatement_jump {rule : Rule} (hd : d.1.kind = .symbol .semicolon)
    (hk : k.1.kind = .keyword .break_ ∧ rule = .breakStatement ∨
      k.1.kind = .keyword .continue_ ∧ rule = .continueStatement ∨
        k.1.kind = .keyword .return_ ∧ rule = .returnStatement) :
    ReadsStatement false [k, d] (.node rule [.token k.1, .token d.1]) := by
  have hWord (rule : Rule) (rest : List Token.Inner) :
      (Grammar.wordStatement rule).Reads [] (k :: d :: rest) [.node rule [.token k.1, .token d.1]]
        rest := .take (reads_terminated hd)
  refine ⟨⟨k, _, rfl, ?_⟩, fun rest _ => .look ?_⟩
  · rcases hk with ⟨hk, -⟩ | ⟨hk, -⟩ | ⟨hk, -⟩ <;> rw [hk] <;> decide
  · simp only [window, List.cons_append, List.nil_append, kindAt_zero]
    rcases hk with ⟨hk, rfl⟩ | ⟨hk, rfl⟩ | ⟨hk, rfl⟩
    · rw [hk]
      exact hWord _ rest
    · rw [hk]
      exact hWord _ rest
    · rw [hk]
      refine .take (.look ?_)
      rw [window, kindAt_zero, if_pos (.inl hd)]
      exact reads_terminated hd

end CfScript
