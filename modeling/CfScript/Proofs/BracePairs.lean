import CfScript.Proofs.GrammarMarks
import CfScript.Proofs.Seats

/-!
# Trees that keep pairs of braces

A syntax error may change where a block ends. A node that lacks its closing brace is closed by an
assumed one, and what follows is skipped up to the end of the statement. The skipping keeps track of
the groups that it enters, but not of the group that the node itself has entered: it stops in front of
the brace that closes this group, and the brace is then taken by the block around the statement. In the
same way a `switch` may skip a brace that opens and take the one that pairs with it, and a brace may be
taken for the arrow of a function.

These are all the ways. A node is *balanced* if a brace is assumed in it only together with the other
one, if it is no `switch` that skips a brace that opens, and if it takes no brace for an arrow. In the
tree of a source whose delimiters are nested, the braces of each pair stand together exactly if all
nodes are balanced.

That they do if all nodes are balanced is shown along the tree: the walk over the leaves of such a part
leaves open what was open. That they do only then is a matter of counting at each node.

## Main results

* `skippedPairs_of_suffix`: braces are skipped in pairs;
* `Tree.Marked.settles`: the walk over a part that is balanced throughout;
* `Tree.countP_part`: the braces at a node, counted among all leaves of the tree;
* `parse_keepsPairs_iff`: trees of sources keep pairs if and only if their nodes are balanced.
-/

namespace CfScript

open Delimiter (nest nestAll nestAll_cons opened? closed?)

/-! ## Braces of one node -/

namespace Mark

variable {parent : List Nat} {homes homes' : List (List Nat × Standing)} {ms ns : List Mark}

/-- The homes of the braces that are open after a part of the node at the path. -/
def enter (parent : List Nat) (homes : List (List Nat × Standing)) :
    Mark → Option (List (List Nat × Standing))
  | nameless | brace _ .assumed => some homes
  | brace .opening standing => some ((parent, standing) :: homes)
  | brace .closing standing =>
    if homes.head? = some (parent, standing) then some homes.tail else none

/-- The homes of the braces that are open after parts of the node at the path. -/
def settle (parent : List Nat) (homes : List (List Nat × Standing)) (ms : List Mark) :
    Option (List (List Nat × Standing)) := ms.foldlM (enter parent) homes

theorem settle_append (h : settle parent homes ms = some homes') :
    settle parent homes (ms ++ ns) = settle parent homes' ns := by
  rw [settle] at h
  rw [settle, List.foldlM_append, h]
  rfl

end Mark

/-- The marks of a rest that is skipped, if its braces open and close in pairs. -/
structure SkippedPairs (ms : List Mark) : Prop where
  skipped : AllSkipped ms
  settle : ∀ parent homes, Mark.settle parent homes ms = some homes

/-! ## Skipped rests -/

/-- The homes of skipped braces of the node at the path, one for each brace that is open. -/
def skippedHomes (parent : List Nat) (own : List Delimiter) : List (List Nat × Standing) :=
  List.replicate (own.count .brace) (parent, .skipped)

/-- A token that is skipped leaves open what its kind leaves open. The groups `own` were entered while
skipping, and `outer` before. -/
theorem skip_step {own outer next : List Delimiter} {k : TokenKind}
    (hStep : nest (own ++ outer) k = some next)
    (hGoes : k = .symbol .rBrace → DelimiterStack.inside ⟨own⟩ .brace = true) :
    ∃ own' outer', (DelimiterStack.update ⟨own⟩ k).1 = ⟨own'⟩ ∧ next = own' ++ outer' ∧
      ∀ parent homes, Mark.settle parent (skippedHomes parent own ++ homes)
        (k.side?.map (.brace · .skipped)).toList = some (skippedHomes parent own' ++ homes) := by
  rcases Delimiter.nest_cases hStep with
    ⟨d, hOpened, rfl⟩ | ⟨hOpened, hClosed, rfl⟩ | ⟨d, hOpened, hClosed, hOwn⟩
  · refine ⟨d :: own, outer, by simp [DelimiterStack.update, hOpened], rfl, fun parent homes => ?_⟩
    by_cases hBrace : d = .brace
    · subst hBrace
      simp [TokenKind.side?_of_opened hOpened, Mark.settle, Mark.enter, skippedHomes,
        List.replicate_succ]
    · have hSide := TokenKind.side?_of_not (k := k) (by simpa [hOpened] using hBrace)
        (by simp [TokenKind.closed?_of_opened hOpened])
      simp [hSide, Mark.settle, skippedHomes, List.count_cons_of_ne hBrace]
  · have hSide := TokenKind.side?_of_not (k := k) (by simp [hOpened]) (by simp [hClosed])
    exact ⟨own, outer, by simp [DelimiterStack.update, hOpened, hClosed], rfl,
      by simp [hSide, Mark.settle]⟩
  cases own with
  | nil =>
    -- What closes a group around the statement is no brace, since the skipping goes on.
    have hBrace : d ≠ .brace := by
      rintro rfl
      have hKind : k = .symbol .rBrace := by
        unfold closed? at hClosed
        split at hClosed <;> cases hClosed
        rfl
      cases hGoes hKind
    have hSide := TokenKind.side?_of_not (k := k) (by simp [hOpened]) (by simpa [hClosed] using hBrace)
    exact ⟨[], next, by simp [DelimiterStack.update, hOpened, hClosed, DelimiterStack.closing], rfl,
      by simp [hSide, Mark.settle]⟩
  | cons e own =>
    obtain ⟨rfl, rfl⟩ := List.cons.inj hOwn
    refine ⟨own, outer, by simp [DelimiterStack.update, hOpened, hClosed, DelimiterStack.closing],
      rfl, fun parent homes => ?_⟩
    by_cases hBrace : e = .brace
    · subst hBrace
      simp [TokenKind.side?_of_closed hClosed, Mark.settle, Mark.enter, skippedHomes,
        List.replicate_succ]
    · have hSide := TokenKind.side?_of_not (k := k) (by simp [hOpened])
        (by simpa [hClosed] using hBrace)
      simp [hSide, Mark.settle, skippedHomes, List.count_cons_of_ne hBrace]

/-- What is skipped ends where all braces that were entered are closed, if delimiters are nested. -/
theorem settle_skipStatement (own : List Delimiter) {outer : List Delimiter} {ts : List Token}
    (hOpen : ∀ t ∈ ts, t.isEnd = false)
    (hNest : nestAll (own ++ outer) (ts.map (·.kind)) = some []) (parent : List Nat)
    (homes : List (List Nat × Standing)) :
    Mark.settle parent (skippedHomes parent own ++ homes)
      ((Token.skipStatement ⟨own⟩ ts).1.filterMap fun t => (Leaf.skipped t).mark?) = some homes := by
  induction ts generalizing own outer with
  | nil =>
    obtain ⟨rfl, -⟩ := List.append_eq_nil_iff.1 (Option.some.inj hNest)
    rfl
  | cons t ts ih =>
    obtain ⟨hHead, hRest⟩ := List.forall_mem_cons.1 hOpen
    rw [List.map_cons, nestAll_cons] at hNest
    obtain ⟨next, hStep, hNest⟩ := Option.bind_eq_some_iff.1 hNest
    unfold Token.skipStatement
    simp only [hHead, Bool.false_eq_true, if_false]
    split
    next hStray =>
      have hNone : own.count .brace = 0 := by
        simpa [DelimiterStack.inside, List.count_eq_zero] using hStray.2
      simp [skippedHomes, hNone, Mark.settle]
    next hGoes =>
    split
    next hEnd =>
      obtain rfl : own = [] := List.isEmpty_iff.1 hEnd.1
      rfl
    split
    next hStart =>
      obtain rfl : own = [] := List.isEmpty_iff.1 hStart.1
      rfl
    obtain ⟨own', outer', hUpdate, rfl, hEnter⟩ :=
      skip_step hStep fun hBrace => by simpa [hBrace] using hGoes
    have hMark : [t].filterMap (fun t => (Leaf.skipped t).mark?) =
        (t.kind.side?.map (.brace · .skipped)).toList := by
      cases hSide : t.kind.side? <;> simp [Leaf.mark?, hSide]
    rw [hUpdate, ← List.singleton_append, List.filterMap_append, hMark,
      Mark.settle_append (hEnter parent homes)]
    exact ih own' hRest hNest

/-- Where the delimiters of a source are nested, the braces of a rest that is skipped come in pairs. -/
theorem skippedPairs_of_suffix {us ts : List Token} (hOpen : ∀ t ∈ us, t.isEnd = false)
    (hNest : nestAll [] (us.map (·.kind)) = some []) (hSuffix : ts <:+ us) :
    SkippedPairs (Token.skippedMarks ts) := by
  obtain ⟨front, rfl⟩ := hSuffix
  rw [List.map_append] at hNest
  obtain ⟨outer, -, hNest⟩ := Delimiter.nestAll_append_eq_some hNest
  refine ⟨allSkipped_skippedMarks ts, fun parent homes => ?_⟩
  have hOpen := (List.forall_mem_append.1 hOpen).2
  exact settle_skipStatement [] hOpen hNest parent homes

/-! ## Balanced nodes -/

/-- Whether braces with the marks, at a node of the rule, come in pairs: a brace is assumed only if the
one that pairs with it is, too, a `switch` skips none that opens, and none is taken for an arrow. -/
structure Rule.Balances (rule : Rule) (ms : List Mark) : Prop where
  assumed : .brace .opening .assumed ∈ ms ↔ .brace .closing .assumed ∈ ms
  select : rule = .switchStatement → .brace .opening .skipped ∉ ms
  arrow : rule = .arrowFunction → ms = []

/-- Whether the braces among the parts of a node come in pairs. -/
def Tree.Balanced : Tree → Prop
  | node rule cs => rule.Balances (marks cs)
  | leaf _ => True

theorem AllSkipped.assumed_notMem {ms : List Mark} (h : AllSkipped ms) (side : Side) :
    .brace side .assumed ∉ ms := by
  intro hMem
  obtain ⟨other, hIs⟩ := h _ hMem
  cases hIs

/-- Nodes of most rules assume no brace, and then theirs come in pairs. -/
theorem Rule.balances_of_notMem {rule : Rule} {ms : List Mark}
    (h : ∀ side, .brace side .assumed ∉ ms) (hSelect : rule ≠ .switchStatement)
    (hArrow : rule ≠ .arrowFunction) : rule.Balances ms :=
  ⟨iff_of_false (h _) (h _), fun hIs => absurd hIs hSelect, fun hIs => absurd hIs hArrow⟩

/-- Braces that come in pairs leave open what was open. -/
theorem settle_of_balances {rule : Rule} {ms : List Mark} (hAdmits : rule.Admits SkippedPairs ms)
    (hBalances : rule.Balances ms) (parent : List Nat) (homes : List (List Nat × Standing)) :
    Mark.settle parent homes ms = some homes := by
  have hPair (a b : Standing) (ha : a ≠ .skipped) (hb : b ≠ .skipped)
      (hMs : ms = [.brace .opening a, .brace .closing b]) :
      Mark.settle parent homes ms = some homes := by
    have hBoth := hBalances.assumed
    subst hMs
    cases a <;> cases b <;> simp [Mark.settle, Mark.enter] at hBoth ha hb ⊢
  cases rule with
  | block =>
    obtain ⟨a, b, rfl, ha, hb⟩ := hAdmits
    exact hPair a b ha hb rfl
  | structLiteral =>
    obtain ⟨b, rfl, hb⟩ := hAdmits
    exact hPair .matched b nofun hb rfl
  | switchStatement =>
    obtain ⟨a, n, b, rfl, ha, hb⟩ := hAdmits
    have hNone : n = 0 := by
      have hSkips := hBalances.select rfl
      simp only [List.mem_cons, List.mem_append, List.mem_replicate, not_or] at hSkips
      simpa using hSkips.2.1
    exact hPair a b ha hb (by rw [hNone]; rfl)
  | arrowFunction => rw [hBalances.arrow rfl]; rfl
  | newExpression => obtain rfl | rfl := hAdmits <;> rfl
  | importStatement =>
    obtain ⟨us, vs, rfl, rfl | rfl, hRest⟩ := hAdmits
    · exact hRest.settle parent homes
    · exact hRest.settle parent homes
  | scriptBlock | standaloneExpression => exact hAdmits.elim
  | _ => exact hAdmits.settle parent homes

/-- The braces of a node come in pairs, if as many open as close. -/
theorem balances_of_count {rule : Rule} {ms : List Mark} (hAdmits : rule.Admits SkippedPairs ms)
    (hCount : ∀ standing, standing ≠ .assumed →
      ms.count (.brace .opening standing) = ms.count (.brace .closing standing)) :
    rule.Balances ms := by
  have hPair (a b : Standing) (n : Nat) (ha : a ≠ .skipped) (hb : b ≠ .skipped)
      (hArrow : rule ≠ .arrowFunction)
      (hMs : ms = .brace .opening a :: (List.replicate n (.brace .opening .skipped) ++
        [.brace .closing b])) : rule.Balances ms := by
    have hMatched := hCount .matched nofun
    have hSkipped := hCount .skipped nofun
    subst hMs
    obtain rfl : n = 0 := by
      simpa [List.count_cons, List.count_replicate, ha, hb] using hSkipped
    refine ⟨?_, fun _ => by simp [Ne.symm ha], fun hIs => absurd hIs hArrow⟩
    cases a <;> cases b <;> simp at hMatched ha hb ⊢
  have hRest (us : List Mark) (hus : us = [] ∨ us = [.nameless]) {vs : List Mark}
      (hvs : AllSkipped vs) (side : Side) : .brace side .assumed ∉ us ++ vs := by
    obtain rfl | rfl := hus <;> simpa using hvs.assumed_notMem side
  cases rule with
  | block =>
    obtain ⟨a, b, rfl, ha, hb⟩ := hAdmits
    exact hPair a b 0 ha hb nofun rfl
  | structLiteral =>
    obtain ⟨b, rfl, hb⟩ := hAdmits
    exact hPair .matched b 0 nofun hb nofun rfl
  | switchStatement =>
    obtain ⟨a, n, b, rfl, ha, hb⟩ := hAdmits
    exact hPair a b n ha hb nofun rfl
  | arrowFunction =>
    obtain rfl | ⟨side, rfl⟩ := hAdmits
    · exact ⟨by simp, nofun, fun _ => rfl⟩
    · have := hCount .matched nofun
      cases side <;> simp at this
  | newExpression =>
    refine Rule.balances_of_notMem (fun side => ?_) nofun nofun
    simpa using hRest ms hAdmits (nofun : AllSkipped []) side
  | importStatement =>
    obtain ⟨us, vs, rfl, hus, hvs⟩ := hAdmits
    exact Rule.balances_of_notMem (hRest us hus hvs.skipped) nofun nofun
  | scriptBlock | standaloneExpression => exact hAdmits.elim
  | _ => exact Rule.balances_of_notMem hAdmits.skipped.assumed_notMem nofun nofun

/-! ## Walks over a tree -/

theorem Leaf.mark?_eq_brace_iff {l : Leaf} {side : Side} {standing : Standing}
    (h : standing ≠ .assumed) : l.mark? = some (.brace side standing) ↔
      (l.token?.map (·.kind)).bind (·.side?) = some side ∧ l.standing = standing := by
  cases l with
  | matched t | skipped t => simp [mark?, token?, Leaf.standing]
  | assumed what =>
    rw [mark?]
    split
    · simp [token?, Ne.symm h]
    · split <;> simp [token?, Ne.symm h]

namespace Seat

theorem enter_leaf (parent : List Nat) (l : Leaf) (homes : List (List Nat × Standing)) :
    enter homes ⟨parent, l⟩ = Mark.settle parent homes (Tree.marks [.leaf l]) := by
  rw [Tree.marks_singleton]
  cases l with
  | assumed what =>
    rw [Tree.mark?, Leaf.mark?]
    split
    · rfl
    · split <;> rfl
  | matched t | skipped t =>
    cases hSide : t.kind.side? with
    | none => simp [enter, kind?, Leaf.token?, Tree.mark?, Leaf.mark?, hSide, Mark.settle]
    | some side =>
      cases side with
      | opening =>
        simp [enter, kind?, Leaf.token?, Tree.mark?, Leaf.mark?, hSide, Mark.settle, Mark.enter, home,
          Leaf.standing]
      | closing =>
        simp only [enter, kind?, Leaf.token?, Tree.mark?, Leaf.mark?, hSide, Mark.settle,
          Option.map_some, Option.bind_some, Option.toList_some, List.foldlM_cons, List.foldlM_nil, bind_pure]
        exact if_congr .rfl rfl rfl

end Seat

namespace Tree

variable {parent : List Nat} {i : Nat} {homes : List (List Nat × Standing)} {t : Tree} {cs : List Tree}

/-- Whether a walk over the leaves of a part leaves open what its mark leaves open. -/
def Settles (t : Tree) : Prop := ∀ parent i homes,
  Seat.settle homes (t.seatsAt parent i) = Mark.settle parent homes (marks [t])

theorem settle_seatsAll (h : ∀ c ∈ cs, c.Settles) :
    Seat.settle homes (seatsAll parent i cs) = Mark.settle parent homes (marks cs) := by
  induction cs generalizing i homes with
  | nil => rfl
  | cons c cs ih =>
    obtain ⟨hHead, hRest⟩ := List.forall_mem_cons.1 h
    rw [seatsAll, Seat.settle, List.foldlM_append, ← List.singleton_append, marks_append, Mark.settle,
      List.foldlM_append]
    have hc : (c.seatsAt parent i).foldlM Seat.enter homes =
        (marks [c]).foldlM (Mark.enter parent) homes := hHead parent i homes
    rw [hc]
    congr 1
    funext homes'
    exact ih hRest

theorem settle_marks_node (rule : Rule) (cs : List Tree) :
    Mark.settle parent homes (marks [node rule cs]) = some homes := by
  rw [marks_singleton, mark?]
  split <;> rfl

/-- A walk over a part all of whose nodes are balanced leaves open what was open. -/
theorem Marked.settles (h : t.Marked SkippedPairs)
    (hBalanced : ∀ path part, t.part? path = some part → part.Balanced) : t.Settles := by
  induction h with
  | leaf l =>
    intro parent i homes
    rw [seatsAt, ← Seat.enter_leaf]
    simp [Seat.settle]
  | @node rule cs hAdmits _ ih =>
    intro parent i homes
    have hChildren : ∀ c ∈ cs, c.Settles := by
      intro c hc
      obtain ⟨j, hj⟩ := List.getElem?_of_mem hc
      exact ih c hc fun path part hPart =>
        hBalanced (j :: path) part (by simp [part?, children, hj, hPart])
    rw [settle_marks_node, seatsAt, settle_seatsAll hChildren]
    exact settle_of_balances hAdmits (hBalanced [] _ rfl) _ _

/-- A walk over the parts of the root comes to its end, if the braces that are parts of the root itself
were skipped: they pair with each other. -/
theorem settle_root (own : List Delimiter) (hSettles : ∀ c ∈ cs, c.Settles)
    (hSkipped : AllSkipped (marks cs))
    (hNest : nestAll own (Seat.kinds (seatsAll parent i cs)) = some []) :
    Seat.settle (skippedHomes parent own) (seatsAll parent i cs) = some [] := by
  induction cs generalizing own i with
  | nil =>
    cases hNest
    rfl
  | cons c cs ih =>
    obtain ⟨hc, hRest⟩ := List.forall_mem_cons.1 hSettles
    rw [← List.singleton_append, marks_append] at hSkipped
    obtain ⟨hMark, hMarks⟩ := List.forall_mem_append.1 hSkipped
    rw [seatsAll, Seat.kinds_append] at hNest
    obtain ⟨mid, hHead, hNest⟩ := Delimiter.nestAll_append_eq_some hNest
    -- Whatever the part is, only skipped braces of the root are open behind it, and how many they
    -- are is known from the kinds.
    have hSome : ∃ n, Seat.settle (skippedHomes parent own) (c.seatsAt parent i) =
        some (List.replicate n (parent, .skipped)) := by
      rw [hc]
      cases c with
      | node rule ds => exact ⟨_, settle_marks_node rule ds⟩
      | leaf l =>
        rw [marks_singleton] at hMark ⊢
        cases hIs : (leaf l).mark? with
        | none => exact ⟨_, rfl⟩
        | some m =>
          obtain ⟨side, rfl⟩ := hMark m (by simp [hIs])
          cases side with
          | opening => exact ⟨own.count .brace + 1, rfl⟩
          | closing =>
            obtain ⟨hSide, -⟩ := (Leaf.mark?_eq_brace_iff (by decide)).1 hIs
            obtain ⟨k, hKind, hSide⟩ := Option.bind_eq_some_iff.1 hSide
            have hKinds : Seat.kinds ((leaf l).seatsAt parent i) = [k] := by
              simp [Seat.kinds, seatsAt, Seat.kind?, hKind]
            rw [hKinds, Delimiter.nestAll_singleton] at hHead
            have hOwn : own = .brace :: mid := by
              rcases Delimiter.nest_brace hHead with ⟨hNone, -⟩ | ⟨hOpening, -⟩ | ⟨-, rfl⟩
              · cases hNone.symm.trans hSide
              · cases hOpening.symm.trans hSide
              · rfl
            exact ⟨mid.count .brace, by
              simp [hOwn, skippedHomes, List.replicate_succ, Mark.settle, Mark.enter]⟩
    obtain ⟨n, hSettled⟩ := hSome
    have hFrame : Seat.settle (skippedHomes parent own ++ []) (c.seatsAt parent i) =
        some (List.replicate n (parent, .skipped)) := by rw [List.append_nil, hSettled]
    obtain ⟨hs, hHomes, hLength⟩ := Seat.settle_frame hHead (by simp [skippedHomes]) hFrame
    have hMid : List.replicate n (parent, Standing.skipped) = skippedHomes parent mid := by
      rw [List.append_nil] at hHomes
      rw [← hHomes, List.length_replicate] at hLength
      rw [hLength, skippedHomes]
    rw [seatsAll, Seat.settle_append (hSettled.trans (congrArg some hMid))]
    exact ih mid hRest hMarks hNest

end Tree

/-! ## Braces counted at their nodes -/

namespace Seat

variable {homes homes' : List (List Nat × Standing)} {ss : List Seat}

/-- Whether a brace of the side sits there, at home in `home`. -/
def isBrace (side : Side) (home : List Nat × Standing) (s : Seat) : Bool :=
  s.kind?.bind (·.side?) == some side && s.home == home

/-- In a walk as many braces of a home open as close, but for those that are open before or after. -/
theorem count_settle (home : List Nat × Standing) (h : settle homes ss = some homes') :
    homes.count home + ss.countP (isBrace .opening home) =
      homes'.count home + ss.countP (isBrace .closing home) := by
  induction ss generalizing homes with
  | nil =>
    cases h
    rfl
  | cons s ss ih =>
    obtain ⟨mid, hEnter, hRest⟩ := settle_cons_eq_some h
    have hMid := ih hRest
    rw [List.countP_cons, List.countP_cons]
    unfold enter at hEnter
    split at hEnter
    next hSide =>
      cases hEnter
      simpa [isBrace, hSide] using hMid
    next hSide =>
      cases hEnter
      have hOpens : isBrace .opening home s = (s.home == home) := by simp [isBrace, hSide]
      have hCloses : isBrace .closing home s = false := by simp [isBrace, hSide]
      rw [List.count_cons] at hMid
      rw [hOpens, hCloses]
      simp only [Bool.false_eq_true, if_false]
      omega
    next hSide =>
      obtain ⟨hHead, hTail⟩ := Option.ite_none_right_eq_some.1 hEnter
      cases hTail
      obtain ⟨rest, rfl⟩ := List.head?_eq_some_iff.1 hHead
      have hOpens : isBrace .opening home s = false := by simp [isBrace, hSide]
      have hCloses : isBrace .closing home s = (s.home == home) := by simp [isBrace, hSide]
      rw [List.tail_cons] at hMid
      rw [List.count_cons, hOpens, hCloses]
      simp only [Bool.false_eq_true, if_false]
      omega

end Seat

namespace Tree

variable {path : List Nat} {rule : Rule} {cs : List Tree} {side : Side} {standing : Standing}

mutual

/-- The leaves of a part have their seats at the node that it is a part of, or below the part. -/
theorem parent_of_mem_seatsAt {parent : List Nat} {i : Nat} {s : Seat} : (t : Tree) →
    s ∈ t.seatsAt parent i → s.parent = parent ∨ parent ++ [i] <+: s.parent
  | leaf l, h => by
    rw [seatsAt, List.mem_singleton] at h
    exact .inl (h ▸ rfl)
  | node rule cs, h => .inr (prefix_of_mem_seatsAll cs h)

theorem prefix_of_mem_seatsAll {parent : List Nat} {i : Nat} {s : Seat} : (ts : List Tree) →
    s ∈ seatsAll parent i ts → parent <+: s.parent
  | [], h => by simp [seatsAll] at h
  | t :: ts, h => by
    rw [seatsAll, List.mem_append] at h
    obtain h | h := h
    · rcases parent_of_mem_seatsAt t h with hParent | hPrefix
      · rw [hParent]
      · exact (List.prefix_append _ _).trans hPrefix
    · exact prefix_of_mem_seatsAll ts h

end

theorem prefix_of_mem_node {parent : List Nat} {i : Nat} {s : Seat}
    (h : s ∈ (node rule cs).seatsAt parent i) : parent ++ [i] <+: s.parent :=
  prefix_of_mem_seatsAll cs h

/-- Parts from `i` on have their seats at the node, or below one of these parts. -/
theorem parent_of_mem_seatsAll {parent : List Nat} {i : Nat} {s : Seat}
    (h : s ∈ seatsAll parent i cs) :
    s.parent = parent ∨ ∃ j, i ≤ j ∧ parent ++ [j] <+: s.parent := by
  induction cs generalizing i with
  | nil => simp [seatsAll] at h
  | cons c cs ih =>
    rw [seatsAll, List.mem_append] at h
    obtain h | h := h
    · exact (parent_of_mem_seatsAt c h).imp id fun hPrefix => ⟨i, le_rfl, hPrefix⟩
    · exact (ih h).imp id fun ⟨j, hj, hPrefix⟩ => ⟨j, by omega, hPrefix⟩

theorem countP_eq_zero {ss : List Seat} {path : List Nat} (h : ∀ s ∈ ss, s.parent ≠ path) :
    ss.countP (Seat.isBrace side (path, standing)) = 0 := by
  rw [List.countP_eq_zero]
  intro s hs hIs
  have hHome : s.home = (path, standing) := beq_iff_eq.1 (Bool.and_eq_true_iff.1 hIs).2
  exact h s hs (congrArg Prod.fst hHome)

/-- At the node itself the braces are those among its marks. -/
theorem countP_seatsAll {parent : List Nat} {i : Nat} (h : standing ≠ .assumed) :
    (seatsAll parent i cs).countP (Seat.isBrace side (parent, standing)) =
      (marks cs).count (.brace side standing) := by
  induction cs generalizing i with
  | nil => rfl
  | cons c cs ih =>
    rw [seatsAll, List.countP_append, ih, ← List.singleton_append, marks_append, List.count_append]
    congr 1
    cases c with
    | leaf l =>
      have hIff : Seat.isBrace side (parent, standing) ⟨parent, l⟩ = true ↔
          l.mark? = some (.brace side standing) := by
        rw [Leaf.mark?_eq_brace_iff h]
        simp [Seat.isBrace, Seat.kind?, Seat.home]
      rw [seatsAt, marks_singleton, mark?]
      by_cases hIs : l.mark? = some (.brace side standing)
      · simp [hIff.2 hIs, hIs]
      · have hNot : Mark.brace side standing ∉ l.mark?.toList := by simpa using hIs
        rw [List.count_eq_zero.2 hNot]
        simpa using mt hIff.1 hIs
    | node rule ds =>
      have hBelow : ∀ s ∈ (node rule ds).seatsAt parent i, s.parent ≠ parent := by
        intro s hs hParent
        have hLength := (prefix_of_mem_node hs).length_le
        rw [hParent, List.length_append, List.length_singleton] at hLength
        omega
      rw [countP_eq_zero hBelow, marks_singleton, mark?]
      split <;> simp

theorem ne_of_prefix {parent path path' : List Nat} {i j : Nat} (h : parent ++ [i] <+: path')
    (hNe : i ≠ j) : path' ≠ parent ++ j :: path := by
  rintro rfl
  rw [List.prefix_append_right_inj, List.cons_prefix_cons] at h
  exact hNe h.1

/-- Below part `j` the braces are those of this part. -/
theorem countP_seatsAt {parent path : List Nat} {i j k : Nat} {c : Tree} (hc : cs[j]? = some c)
    (hk : k = i + j) :
    (seatsAll parent i cs).countP (Seat.isBrace side (parent ++ k :: path, standing)) =
      (c.seatsAt parent k).countP (Seat.isBrace side (parent ++ k :: path, standing)) := by
  have hParent : parent ≠ parent ++ k :: path := by simp
  induction cs generalizing i j with
  | nil => simp at hc
  | cons d cs ih =>
    rw [seatsAll, List.countP_append]
    cases j with
    | zero =>
      obtain rfl : d = c := by simpa using hc
      obtain rfl : k = i := hk
      have hBehind : ∀ s ∈ seatsAll parent (k + 1) cs, s.parent ≠ parent ++ k :: path := by
        intro s hs
        rcases parent_of_mem_seatsAll hs with hHere | ⟨l, hl, hPrefix⟩
        · rw [hHere]
          exact hParent
        · exact ne_of_prefix hPrefix (by omega)
      rw [countP_eq_zero hBehind, Nat.add_zero]
    | succ j =>
      have hBefore : ∀ s ∈ d.seatsAt parent i, s.parent ≠ parent ++ k :: path := by
        intro s hs
        rcases parent_of_mem_seatsAt d hs with hHere | hPrefix
        · rw [hHere]
          exact hParent
        · exact ne_of_prefix hPrefix (by omega)
      have hRest := ih (i := i + 1) (j := j) (by simpa using hc) (by omega)
      rw [hRest, countP_eq_zero hBefore, Nat.zero_add]

/-- The braces at a node below are those among its marks. -/
theorem countP_part (parent : List Nat) {other : Rule} {ds : List Tree} (h : standing ≠ .assumed)
    (hPart : (node rule cs).part? path = some (node other ds)) :
    (seatsAll parent 0 cs).countP (Seat.isBrace side (parent ++ path, standing)) =
      (marks ds).count (.brace side standing) := by
  induction path generalizing parent rule cs with
  | nil =>
    cases hPart
    rw [List.append_nil, countP_seatsAll h]
  | cons j path ih =>
    obtain ⟨c, hc, hPart⟩ := Option.bind_eq_some_iff.1 hPart
    change cs[j]? = some c at hc
    rw [countP_seatsAt hc (Nat.zero_add j).symm]
    cases c with
    | leaf l => cases path <;> simp [part?, children] at hPart
    | node inner es =>
      have hBelow := ih (parent ++ [j]) hPart
      rwa [List.append_assoc] at hBelow

end Tree

/-! ## Trees of sources -/

namespace Tree

mutual

theorem leaves_seatsAt (parent : List Nat) (i : Nat) : (t : Tree) →
    (t.seatsAt parent i).map (·.leaf) = t.leaves
  | leaf _ => rfl
  | node _ cs => leaves_seatsAll (parent ++ [i]) 0 cs

theorem leaves_seatsAll (parent : List Nat) (i : Nat) : (ts : List Tree) →
    (seatsAll parent i ts).map (·.leaf) = leavesAll ts
  | [] => rfl
  | t :: ts => by
    rw [seatsAll, List.map_append, leaves_seatsAt, leaves_seatsAll, leavesAll]

end

/-- The leaves at the seats of a tree are those of the tree. -/
theorem leaves_seats (rule : Rule) (cs : List Tree) :
    (node rule cs).seats.map (·.leaf) = (node rule cs).leaves := leaves_seatsAll [] 0 cs

end Tree

namespace Seat

/-- The end of the input is no delimiter. -/
theorem nestAll_kinds (own : List Delimiter) (ss : List Seat) :
    nestAll own (kinds ss) = nestAll own ((Leaf.passed (ss.map (·.leaf))).map (·.kind)) := by
  induction ss generalizing own with
  | nil => rfl
  | cons s ss ih =>
    have hHead : nestAll own (kinds [s]) =
        nestAll own ((Leaf.passed [s.leaf]).map (·.kind)) := by
      cases hToken : s.leaf.token? with
      | none => simp [kinds, kind?, hToken, Leaf.passed]
      | some t =>
        by_cases hEnd : t.isEnd = true
        · have hKind : t.kind = .endOfInput := by simpa [Token.isEnd] using hEnd
          simp [kinds, kind?, hToken, Leaf.passed, hEnd, hKind, nestAll, nest, opened?, closed?]
        · simp [kinds, kind?, hToken, Leaf.passed, hEnd]
    rw [← List.singleton_append, kinds_append, List.map_append, Leaf.passed_append, List.map_append]
    simp only [nestAll, List.foldlM_append] at ih hHead ⊢
    rw [hHead]
    congr 1
    funext mid
    exact ih mid

end Seat

/-- Where the delimiters of a source are nested, its tree keeps pairs exactly if all nodes are
balanced. -/
theorem parse_keepsPairs_iff {source : String} {options : ParseOptions}
    (hNested : nestAll [] ((Token.words source).map (·.kind)) = some []) :
    (parse source options).tree.KeepsPairs ↔
      ∀ path part, (parse source options).tree.part? path = some part → part.Balanced := by
  have hOpen : ∀ t ∈ Token.words source, t.isEnd = false := fun t ht => (Token.mem_words.1 ht).2.2
  obtain ⟨hMarked, hRoot⟩ := parse_marked (R := SkippedPairs) ⟨nofun, fun _ _ => rfl⟩
    (fun ts hts => skippedPairs_of_suffix hOpen hNested hts) options
  have hWords : Leaf.passed (parse source options).tree.leaves = Token.words source :=
    passed_of_parse source options
  obtain ⟨front, hTree⟩ := root_of_parse source options
  generalize front ++ [_] = cs at hTree
  rw [hTree] at hMarked hRoot hWords ⊢
  have hKinds : Seat.Nested (Tree.node options.entry.rule cs).seats := by
    rw [Seat.Nested, Seat.nestAll_kinds, Tree.leaves_seats, hWords, hNested]
  rw [Tree.KeepsPairs, Seat.meet_iff_settle hKinds]
  constructor
  · intro hSettle path part hPart
    cases part with
    | leaf l => trivial
    | node rule ds =>
    have hCount (standing : Standing) (h : standing ≠ .assumed) :
        (Tree.marks ds).count (.brace .opening standing) =
          (Tree.marks ds).count (.brace .closing standing) := by
      have hSides (side : Side) : (Tree.seatsAll [] 0 cs).countP (Seat.isBrace side (path, standing)) =
          (Tree.marks ds).count (.brace side standing) := Tree.countP_part [] h hPart
      rw [← hSides .opening, ← hSides .closing]
      simpa [Tree.seats, Tree.children] using Seat.count_settle (path, standing) hSettle
    cases path with
    | nil =>
      cases hPart
      exact Rule.balances_of_notMem hRoot.assumed_notMem (by cases options.entry <;> rintro ⟨⟩)
        (by cases options.entry <;> rintro ⟨⟩)
    | cons j path =>
      obtain ⟨c, hc, hPart⟩ := Option.bind_eq_some_iff.1 hPart
      have hPartMarked := Tree.part?_of_child (P := (·.Marked SkippedPairs))
        (fun _ _ h => h.child) (hMarked c (List.mem_of_getElem? hc)) hPart
      cases hPartMarked with
      | node hAdmits _ => exact balances_of_count hAdmits hCount
  · intro hBalanced
    refine Tree.settle_root [] (fun c hc => ?_) hRoot hKinds
    obtain ⟨j, hj⟩ := List.getElem?_of_mem hc
    refine (hMarked c hc).settles fun path part hPart => hBalanced (j :: path) part ?_
    rw [Tree.part?, hj, Option.bind_some, hPart]

/-- A broken statement in a block. -/
theorem parse_keepsPairs_broken :
    let source := "{ a b; } c();"
    nestAll [] ((Token.words source).map (·.kind)) = some [] ∧
      (parse source {}).hasErrors = true ∧
      ∀ path part, (parse source {}).tree.part? path = some part → part.Balanced := by
  intro source
  have hNested : nestAll [] ((Token.words source).map (·.kind)) = some [] := by decide +kernel
  have hPairs : (parse source {}).tree.KeepsPairs :=
    Seat.meet_of_settle (by decide +kernel)
  exact ⟨hNested, by decide +kernel, (parse_keepsPairs_iff hNested).1 hPairs⟩

/-- A struct that is given up at its second entry: what stands behind it is skipped up to the brace
that closes the struct, and this brace closes the block around the statement. -/
theorem not_parse_keepsPairs :
    ¬ ∀ source, nestAll [] ((Token.words source).map (·.kind)) = some [] →
      (parse source { strategy := .generalOnly }).tree.KeepsPairs := by
  intro h
  have hNested : nestAll [] ((Token.words "{ x = {a: 1 b: 2}; y(); } z();").map (·.kind)) =
      some [] := by decide +kernel
  have hSeats : nestAll [] (Seat.kinds (parse "{ x = {a: 1 b: 2}; y(); } z();"
      { strategy := .generalOnly }).tree.seats) = some [] := by decide +kernel
  have hSettle := (Seat.meet_iff_settle hSeats).1 (h _ hNested)
  revert hSettle
  decide +kernel

end CfScript
