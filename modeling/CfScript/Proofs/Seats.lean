import CfScript.Proofs.Marks
import CfScript.Proofs.Nesting

/-!
# Pairs of braces in a tree

Where the delimiters of a source are nested, each brace that opens is closed by one that pairs with it.
The seat of a leaf is the node that it is a part of. A tree keeps pairs if the two braces of each pair
have seats at one node, and both were matched or both skipped: then the tree groups the source as its
braces do.

This is a statement about any two positions in the tree. It is decided by going once over its leaves,
where the seats of the open braces are kept on a stack.

## Main results

* `Tree.KeepsPairs`: the braces of each pair stand together;
* `Seat.settle`: one walk over the seats, which fails where a brace closes one of another seat;
* `meet_iff_settle`: the walk decides whether pairs stand together.
-/

namespace CfScript

/-! ## Seats -/

/-- How a leaf came into a tree. -/
def Leaf.standing : Leaf → Standing
  | matched _ => .matched
  | skipped _ => .skipped
  | assumed _ => .assumed

/-- A leaf and the path to the node that it is a part of. -/
structure Seat where
  parent : List Nat
  leaf : Leaf

namespace Seat

/-- The kind of the token that sits there, if there is one. -/
def kind? (s : Seat) : Option TokenKind := s.leaf.token?.map (·.kind)

/-- The kinds of the tokens that sit there. -/
def kinds (ss : List Seat) : List TokenKind := ss.filterMap (·.kind?)

/-- The node that a leaf is a part of, and how the leaf came there. -/
def home (s : Seat) : List Nat × Standing := (s.parent, s.leaf.standing)

/-- Whether delimiters that sit there are nested. -/
def Nested (ss : List Seat) : Prop := Delimiter.nestAll [] (kinds ss) = some []

/-- Whether the braces of each pair have one home. Between them delimiters are nested. -/
def Meet (ss : List Seat) : Prop :=
  ∀ front o inner c back, ss = front ++ o :: (inner ++ c :: back) →
    o.kind? = some (.symbol .lBrace) → c.kind? = some (.symbol .rBrace) → Nested inner →
      o.home = c.home

/-- The homes of the braces that are open after a leaf, if no brace closes one of another home. -/
def enter (homes : List (List Nat × Standing)) (s : Seat) : Option (List (List Nat × Standing)) :=
  match s.kind?.bind (·.side?) with
  | none => some homes
  | some .opening => some (s.home :: homes)
  | some .closing => if homes.head? = some s.home then some homes.tail else none

/-- The homes of the braces that are open after leaves. -/
def settle (homes : List (List Nat × Standing)) (ss : List Seat) :
    Option (List (List Nat × Standing)) := ss.foldlM enter homes

end Seat

namespace Tree

mutual

/-- The seats of the leaves of a tree that is part `i` of the node at the path. -/
def seatsAt (parent : List Nat) (i : Nat) : Tree → List Seat
  | node _ cs => seatsAll (parent ++ [i]) 0 cs
  | leaf l => [⟨parent, l⟩]

/-- The seats of the leaves of the parts of the node at the path, from part `i` on. -/
def seatsAll (parent : List Nat) (i : Nat) : List Tree → List Seat
  | [] => []
  | t :: ts => t.seatsAt parent i ++ seatsAll parent (i + 1) ts

end

/-- The seats of the leaves of a tree. -/
def seats (t : Tree) : List Seat := seatsAll [] 0 t.children

/-- Whether the braces of each pair are parts of one node, and both matched or both skipped. -/
def KeepsPairs (t : Tree) : Prop := Seat.Meet t.seats

end Tree

/-! ## Kinds -/

namespace TokenKind

open Delimiter (opened? closed?)

variable {k : TokenKind}

theorem side?_of_opened (h : opened? k = some .brace) : k.side? = some .opening := by
  unfold opened? at h
  split at h <;> cases h
  rfl

theorem side?_of_closed (h : closed? k = some .brace) : k.side? = some .closing := by
  unfold closed? at h
  split at h <;> cases h
  rfl

theorem closed?_of_opened {d : Delimiter} (h : opened? k = some d) : closed? k = none := by
  unfold opened? at h
  split at h <;> cases h <;> rfl

theorem side?_of_not (hOpened : opened? k ≠ some .brace) (hClosed : closed? k ≠ some .brace) :
    k.side? = none := by
  unfold side?
  split
  · exact absurd rfl hOpened
  · exact absurd rfl hClosed
  · rfl

end TokenKind

namespace Delimiter

variable {own own' : List Delimiter} {k : TokenKind} {ks ls : List TokenKind}

/-- A token opens a brace, closes the innermost delimiter, which is one, or leaves the number of open
braces as it is. -/
theorem nest_brace (h : nest own k = some own') :
    k.side? = none ∧ own'.count .brace = own.count .brace ∨
      k.side? = some .opening ∧ own' = .brace :: own ∨
      k.side? = some .closing ∧ own = .brace :: own' := by
  rcases nest_cases h with ⟨d, hOpened, rfl⟩ | ⟨hOpened, hClosed, rfl⟩ | ⟨d, hOpened, hClosed, rfl⟩
  · by_cases hBrace : d = .brace
    · subst hBrace
      exact .inr (.inl ⟨TokenKind.side?_of_opened hOpened, rfl⟩)
    · have hSide := TokenKind.side?_of_not (k := k) (by simpa [hOpened] using hBrace)
        (by simp [TokenKind.closed?_of_opened hOpened])
      exact .inl ⟨hSide, List.count_cons_of_ne hBrace⟩
  · exact .inl ⟨TokenKind.side?_of_not (by simp [hOpened]) (by simp [hClosed]), rfl⟩
  · by_cases hBrace : d = .brace
    · subst hBrace
      exact .inr (.inr ⟨TokenKind.side?_of_closed hClosed, rfl⟩)
    · have hSide := TokenKind.side?_of_not (k := k) (by simp [hOpened])
        (by simpa [hClosed] using hBrace)
      exact .inl ⟨hSide, (List.count_cons_of_ne hBrace).symm⟩

theorem nestAll_append_eq_some (h : nestAll own (ks ++ ls) = some own') :
    ∃ mid, nestAll own ks = some mid ∧ nestAll mid ls = some own' := by
  rw [nestAll, List.foldlM_append] at h
  exact Option.bind_eq_some_iff.1 h

end Delimiter

/-! ## Walks -/

namespace Seat

/-- Leaves, the open delimiters among them and their pairs: between two of these all is nested. -/
inductive Stacked : List Seat → List Seat → List Delimiter → Prop
  | nil {done : List Seat} : Nested done → Stacked done [] []
  | cons {done rest os : List Seat} {o : Seat} {own : List Delimiter} {d : Delimiter} :
    Stacked done os own → o.kind?.bind Delimiter.opened? = some d → Nested rest →
      Stacked (done ++ o :: rest) (o :: os) (d :: own)

open Delimiter (nest nestAll nestAll_cons nestAll_append nestAll_frame)

variable {s o c : Seat} {ss ts done rest : List Seat} {own own' : List Delimiter} {k : TokenKind}
  {homes homes' hs : List (List Nat × Standing)}

theorem settle_append (h : settle homes ss = some homes') :
    settle homes (ss ++ ts) = settle homes' ts := by
  rw [settle] at h
  rw [settle, List.foldlM_append, h]
  rfl

theorem settle_append_eq_some (h : settle homes (ss ++ ts) = some homes') :
    ∃ mid, settle homes ss = some mid ∧ settle mid ts = some homes' := by
  rw [settle, List.foldlM_append] at h
  exact Option.bind_eq_some_iff.1 h

theorem settle_cons_eq_some (h : settle homes (s :: ss) = some homes') :
    ∃ mid, enter homes s = some mid ∧ settle mid ss = some homes' :=
  Option.bind_eq_some_iff.1 h

theorem kinds_append : kinds (ss ++ ts) = kinds ss ++ kinds ts := List.filterMap_append

/-- Delimiters that are nested leave open what was open around them, and one home for each brace that
stays open among them. -/
theorem settle_frame (hNest : nestAll own (kinds ss) = some own')
    (hCount : hs.length = own.count .brace) (h : settle (hs ++ homes) ss = some homes') :
    ∃ hs', homes' = hs' ++ homes ∧ hs'.length = own'.count .brace := by
  induction ss generalizing own hs with
  | nil =>
    cases hNest
    cases h
    exact ⟨hs, rfl, hCount⟩
  | cons s ss ih =>
    obtain ⟨mid, hEnter, hRest⟩ := settle_cons_eq_some h
    cases hKind : s.kind? with
    | none =>
      rw [kinds, List.filterMap_cons_none hKind] at hNest
      simp only [enter, hKind, Option.bind_none, Option.some.injEq] at hEnter
      exact ih hNest hCount (hEnter ▸ hRest)
    | some k =>
      rw [kinds, List.filterMap_cons_some hKind, nestAll_cons] at hNest
      obtain ⟨own₁, hNest₁, hNest₂⟩ := Option.bind_eq_some_iff.1 hNest
      simp only [enter, hKind, Option.bind_some] at hEnter
      rcases Delimiter.nest_brace hNest₁ with ⟨hSide, hSame⟩ | ⟨hSide, rfl⟩ | ⟨hSide, rfl⟩
      · simp only [hSide, Option.some.injEq] at hEnter
        exact ih hNest₂ (hCount.trans hSame.symm) (hEnter ▸ hRest)
      · simp only [hSide, Option.some.injEq] at hEnter
        subst hEnter
        have hMore : (s.home :: hs).length = (Delimiter.brace :: own).count .brace := by
          rw [List.length_cons, hCount, List.count_cons_self]
        exact ih hNest₂ hMore hRest
      · cases hs with
        | nil => simp at hCount
        | cons first hs =>
          simp only [hSide, List.cons_append, List.tail_cons, Option.ite_none_right_eq_some,
            Option.some.injEq] at hEnter
          refine ih hNest₂ ?_ (hEnter.2 ▸ hRest)
          simpa using hCount

/-- Where the walk comes to its end, the braces of each pair have one home. -/
theorem meet_of_settle (h : settle [] ss = some []) : Meet ss := by
  rintro front o inner c back rfl hOpening hClosing hInner
  obtain ⟨homes, -, h⟩ := settle_append_eq_some h
  obtain ⟨mid, hEnter, h⟩ := settle_cons_eq_some h
  obtain ⟨homes', hInside, h⟩ := settle_append_eq_some h
  obtain ⟨_, hLeave, -⟩ := settle_cons_eq_some h
  have hMid : mid = o.home :: homes := by
    simpa [enter, hOpening, TokenKind.side?] using hEnter.symm
  have hNone : ([] : List (List Nat × Standing)).length = [].count Delimiter.brace := rfl
  obtain ⟨hs, rfl, hLength⟩ := settle_frame hInner hNone hInside
  obtain rfl : hs = [] := List.length_eq_zero_iff.1 hLength
  rw [List.nil_append, hMid] at hLeave
  simp only [enter, hClosing, TokenKind.side?, Option.bind_some, List.head?_cons,
    Option.ite_none_right_eq_some, Option.some.injEq] at hLeave
  exact hLeave.1

theorem Nested.append (h : Nested ss) (h' : Nested ts) : Nested (ss ++ ts) := by
  rw [Nested, kinds_append, nestAll_append h]
  exact h'

theorem Stacked.append {os : List Seat} (h : Stacked done os own) (hNested : Nested ts) :
    Stacked (done ++ ts) os own := by
  cases h with
  | nil hDone => exact .nil (hDone.append hNested)
  | cons hOuter hOpened hRest =>
    rw [List.append_assoc]
    exact .cons hOuter hOpened (hRest.append hNested)

/-- A pair of delimiters around what is nested is nested. -/
theorem nested_pair {d : Delimiter} (hOpened : o.kind?.bind Delimiter.opened? = some d)
    (hInner : Nested ts) (hOpen : c.kind?.bind Delimiter.opened? = none)
    (hClosed : c.kind?.bind Delimiter.closed? = some d) : Nested (o :: (ts ++ [c])) := by
  obtain ⟨k, hk, hOpened⟩ := Option.bind_eq_some_iff.1 hOpened
  obtain ⟨l, hl, hClosed⟩ := Option.bind_eq_some_iff.1 hClosed
  rw [hl, Option.bind_some] at hOpen
  have hLast : kinds [c] = [l] := by simp [kinds, hl]
  have hInside : nestAll [d] (kinds ts) = some [d] := nestAll_frame hInner [d]
  rw [Nested, kinds, List.filterMap_cons_some hk, ← kinds, kinds_append, nestAll_cons, nest, hOpened,
    Option.bind_some, nestAll_append hInside, hLast, Delimiter.nestAll_singleton]
  simp [nest, hOpen, hClosed]

/-- The homes of the braces among open delimiters. -/
def braceHomes (os : List Seat) : List (List Nat × Standing) :=
  (os.filter fun o => o.kind?.bind Delimiter.opened? = some .brace).map (·.home)

theorem eq_lBrace_of_opened (h : s.kind?.bind Delimiter.opened? = some .brace) :
    s.kind? = some (.symbol .lBrace) := by
  obtain ⟨k, hk, hOpened⟩ := Option.bind_eq_some_iff.1 h
  rw [hk]
  unfold Delimiter.opened? at hOpened
  split at hOpened <;> cases hOpened
  rfl

theorem eq_rBrace_of_closed (h : s.kind?.bind Delimiter.closed? = some .brace) :
    s.kind? = some (.symbol .rBrace) := by
  obtain ⟨k, hk, hClosed⟩ := Option.bind_eq_some_iff.1 h
  rw [hk]
  unfold Delimiter.closed? at hClosed
  split at hClosed <;> cases hClosed
  rfl

/-- Where the braces of each pair have one home, the walk comes to its end. -/
theorem settle_of_meet {os : List Seat} (hStacked : Stacked done os own) (hMeet : Meet (done ++ rest))
    (hNest : nestAll own (kinds rest) = some []) : settle (braceHomes os) rest = some [] := by
  induction rest generalizing done os own with
  | nil =>
    cases hNest
    cases hStacked
    rfl
  | cons s rest ih =>
    have hMoved : Meet ((done ++ [s]) ++ rest) := by rwa [List.append_assoc]
    have hStep {homes} (hEnter : enter (braceHomes os) s = some homes)
        (hRest : settle homes rest = some []) : settle (braceHomes os) (s :: rest) = some [] := by
      rw [settle, List.foldlM_cons, hEnter]
      exact hRest
    cases hKind : s.kind? with
    | none =>
      rw [kinds, List.filterMap_cons_none hKind] at hNest
      have hNested : Nested [s] := by simp [Nested, kinds, hKind, nestAll]
      exact hStep (by simp [enter, hKind]) (ih (hStacked.append hNested) hMoved hNest)
    | some k =>
      rw [kinds, List.filterMap_cons_some hKind, nestAll_cons] at hNest
      obtain ⟨own', hNest₁, hNest₂⟩ := Option.bind_eq_some_iff.1 hNest
      rcases Delimiter.nest_cases hNest₁ with
        ⟨d, hOpened, rfl⟩ | ⟨hOpened, hClosed, rfl⟩ | ⟨d, hOpened, hClosed, rfl⟩
      · have hOpens : s.kind?.bind Delimiter.opened? = some d := by rw [hKind]; exact hOpened
        have hNone : Nested [] := rfl
        have hRest := ih (.cons hStacked hOpens hNone) hMoved hNest₂
        refine hStep ?_ hRest
        by_cases hBrace : d = .brace
        · subst hBrace
          simp [enter, hKind, TokenKind.side?_of_opened hOpened, braceHomes, hOpened]
        · have hSide := TokenKind.side?_of_not (k := k) (by simpa [hOpened] using hBrace)
            (by simp [TokenKind.closed?_of_opened hOpened])
          simp [enter, hKind, hSide, braceHomes, hOpened, hBrace]
      · have hSide := TokenKind.side?_of_not (k := k) (by simp [hOpened]) (by simp [hClosed])
        have hNested : Nested [s] := by
          simp [Nested, kinds, hKind, Delimiter.nestAll_singleton, nest, hOpened, hClosed]
        exact hStep (by simp [enter, hKind, hSide]) (ih (hStacked.append hNested) hMoved hNest₂)
      · have hOpen : s.kind?.bind Delimiter.opened? = none := by rw [hKind]; exact hOpened
        have hCloses : s.kind?.bind Delimiter.closed? = some d := by rw [hKind]; exact hClosed
        cases hStacked with
        | @cons outer inner os o _ _ hOuter hOpens hInner =>
        have hStacked : Stacked ((outer ++ o :: inner) ++ [s]) os own' := by
          rw [List.append_assoc]
          exact hOuter.append (nested_pair hOpens hInner hOpen hCloses)
        refine hStep ?_ (ih hStacked hMoved hNest₂)
        by_cases hBrace : d = .brace
        · subst hBrace
          have hHome : o.home = s.home := hMeet outer o inner s rest (by simp)
            (eq_lBrace_of_opened hOpens) (eq_rBrace_of_closed hCloses) hInner
          simp [enter, hKind, TokenKind.side?_of_closed hClosed, braceHomes, hOpens, hHome]
        · have hSide := TokenKind.side?_of_not (k := k) (by simp [hOpened])
            (by simpa [hClosed] using hBrace)
          simp [enter, hKind, hSide, braceHomes, hOpens, hBrace]

/-- The walk decides whether the braces of each pair have one home. -/
theorem meet_iff_settle (h : Nested ss) : Meet ss ↔ settle [] ss = some [] :=
  have hNone : Stacked [] [] [] := .nil rfl
  ⟨fun hMeet => settle_of_meet hNone hMeet h, meet_of_settle⟩

end Seat

end CfScript
