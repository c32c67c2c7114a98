import CfScript.Proofs.SourceAccount

/-!
# Where the parts of a tree stand

The span of a node is put together from those of its children, which leave out what stands nowhere.
What it comes to is the smallest span around the tokens below, since the smallest span around smallest
spans is one around all. The tokens of a source stand in order and none but its end is empty, so this
is the span from the first to the last of them, and the parts of a node stand in order as well.

A span around something is not the one of what stands nowhere, and so no node is taken for empty that
holds a token.

## Main results

* `Span.hull?_flatten`: a span around spans;
* `Span.hull?_ends`: in order, it goes from the first to the last of them;
* `Tree.span?_eq_hull?`: the span of a tree is that around its tokens;
* `spanned_of_parse`: where the nodes of the tree of a source stand.
-/

namespace CfScript

namespace Span

variable {a b c s : Span} {ss ts : List Span}

/-! ## Spans in one another -/

/-- Whether something stands in the span. -/
def IsFilled (s : Span) : Prop := s.start.toNat < s.stop.toNat

/-- Whether a span in which something stands lies in another one. -/
structure Inside (a b : Span) : Prop where
  filled : a.IsFilled
  start : b.start.toNat ≤ a.start.toNat
  stop : a.stop.toNat ≤ b.stop.toNat

/-- Whether all that stands in a span stands in another one. The span of what stands nowhere is so in
every span. -/
def Within (a b : Span) : Prop := ∀ s : Span, s.Inside a → s.Inside b

/-- Whether a span ends where another one begins, or before. -/
def Before (a b : Span) : Prop := a.stop.toNat ≤ b.start.toNat

theorem IsFilled.ne_dummy (h : s.IsFilled) : s ≠ .dummy := by
  rintro rfl
  exact absurd h (Nat.lt_irrefl _)

theorem IsFilled.inside (h : s.IsFilled) : s.Inside s := ⟨h, Nat.le_refl _, Nat.le_refl _⟩

/-- A span with another one inside is filled. -/
theorem Inside.outer (h : a.Inside b) : b.IsFilled :=
  Nat.lt_of_le_of_lt h.start (Nat.lt_of_lt_of_le h.filled h.stop)

theorem inside_merge_left (h : a.Inside b) (c : Span) : a.Inside (b.merge c) :=
  ⟨h.filled, Nat.le_trans (Nat.min_le_left ..) h.start, Nat.le_trans h.stop (Nat.le_max_left ..)⟩

theorem inside_merge_right (h : a.Inside b) (c : Span) : a.Inside (c.merge b) :=
  merge_comm b c ▸ inside_merge_left h c

/-! ## The smallest span around others -/

/-- The smallest span around all of them, if there are any. -/
def hull? (ss : List Span) : Option Span := ss.foldr (fun s h? => Option.merge merge (some s) h?) none

@[simp] theorem hull?_nil : hull? [] = none := rfl

@[simp] theorem hull?_cons (s : Span) (ss : List Span) :
    hull? (s :: ss) = some ((hull? ss).elim s s.merge) := by
  rw [hull?, List.foldr_cons, ← hull?]
  cases hull? ss <;> rfl

theorem hull?_eq_none_iff : hull? ss = none ↔ ss = [] := by
  cases ss <;> simp

theorem foldl_merge (s : Span) (ss : List Span) : ss.foldl merge s = (hull? ss).elim s s.merge := by
  induction ss generalizing s with
  | nil => rfl
  | cons t ss ih =>
    rw [List.foldl_cons, ih, hull?_cons]
    cases hull? ss with
    | none => rfl
    | some h => exact merge_assoc s t h

theorem hull?_append (ss ts : List Span) :
    hull? (ss ++ ts) = Option.merge merge (hull? ss) (hull? ts) := by
  induction ss with
  | nil => cases h : hull? ts <;> simp [h]
  | cons s ss ih =>
    rw [List.cons_append, hull?_cons, hull?_cons, ih]
    cases hull? ss <;> cases hull? ts <;> simp [merge_assoc]

/-- The smallest span around the smallest ones around each of some lists is that around all. -/
theorem hull?_flatten (sss : List (List Span)) : hull? (sss.filterMap hull?) = hull? sss.flatten := by
  induction sss with
  | nil => rfl
  | cons ss sss ih =>
    rw [List.flatten_cons, hull?_append, ← ih]
    cases hHead : hull? ss with
    | none => simp [List.filterMap_cons_none hHead]
    | some h =>
      rw [List.filterMap_cons_some hHead, hull?_cons]
      cases hull? (sss.filterMap hull?) <;> rfl

/-- What stands in one of the spans stands in the span around them. -/
theorem inside_hull? (hMem : s ∈ ss) (h : a.Inside s) : ∀ b ∈ hull? ss, a.Inside b := by
  induction ss with
  | nil => cases hMem
  | cons t ss ih =>
    intro b hb
    obtain rfl : (hull? ss).elim t t.merge = b := by simpa using hb
    obtain rfl | hMem := List.mem_cons.1 hMem
    · cases hull? ss with
      | none => exact h
      | some c => exact inside_merge_left h c
    · cases hHull : hull? ss with
      | none =>
        rw [hull?_eq_none_iff.1 hHull] at hMem
        cases hMem
      | some c => exact inside_merge_right (ih hMem c hHull) t

/-- A span around filled spans is filled. -/
theorem isFilled_hull? (h : ∀ s ∈ ss, s.IsFilled) : ∀ b ∈ hull? ss, b.IsFilled := by
  intro b hb
  cases ss with
  | nil => cases hb
  | cons s ss => exact (inside_hull? List.mem_cons_self (h s List.mem_cons_self).inside b hb).outer

/-- The span around spans in order goes from the first to the last of them. -/
theorem hull?_ends (h : ss.Pairwise Before) (hHull : hull? ss = some b) :
    (∃ first ∈ ss.head?, b.start = first.start) ∧ ∃ last ∈ ss.getLast?, b.stop = last.stop := by
  induction ss generalizing b with
  | nil => cases hHull
  | cons s ss ih =>
    obtain ⟨hBefore, hRest⟩ := List.pairwise_cons.1 h
    obtain rfl : (hull? ss).elim s s.merge = b := by simpa using hHull
    cases hTail : hull? ss with
    | none =>
      obtain rfl := hull?_eq_none_iff.1 hTail
      exact ⟨⟨s, rfl, rfl⟩, s, rfl, rfl⟩
    | some c =>
      obtain ⟨⟨first, hFirst, hStart⟩, last, hLast, hStop⟩ := ih hRest hTail
      have hFirst := hBefore first (List.mem_of_mem_head? hFirst)
      have hStop' := hBefore last (List.mem_of_getLast? hLast)
      refine ⟨⟨s, rfl, BytePos.ext ?_⟩, last, ?_, BytePos.ext ?_⟩
      · have hLe : s.start.toNat ≤ c.start.toNat :=
          hStart ▸ Nat.le_trans s.start_le_stop hFirst
        exact Nat.min_eq_left hLe
      · rw [List.getLast?_cons, hLast]
        rfl
      · have hLe : s.stop.toNat ≤ c.stop.toNat :=
          hStop ▸ Nat.le_trans hStop' last.start_le_stop
        exact (Nat.max_eq_right hLe).trans (congrArg BytePos.toNat hStop)

/-- Where spans stand in order, so do the spans around lists of them. -/
theorem pairwise_hull? {sss : List (List Span)} (h : sss.flatten.Pairwise Before) :
    (sss.filterMap hull?).Pairwise Before := by
  obtain ⟨hEach, hAcross⟩ := List.pairwise_flatten.1 h
  rw [List.pairwise_filterMap]
  refine hAcross.imp_of_mem fun {ss ts} hss hts hBefore b hb c hc => ?_
  obtain ⟨-, last, hLast, hStop⟩ := hull?_ends (hEach ss hss) hb
  obtain ⟨⟨first, hFirst, hStart⟩, -⟩ := hull?_ends (hEach ts hts) hc
  rw [Before, hStop, hStart]
  exact hBefore last (List.mem_of_getLast? hLast) first (List.mem_of_mem_head? hFirst)

end Span

/-! ## The span of a tree -/

namespace Tree

open CfScript.Span

theorem mergeSpans_eq (spans : List (Option Span)) :
    mergeSpans spans = (hull? (spans.filterMap id)).getD .dummy := by
  induction spans with
  | nil => rfl
  | cons s? spans ih =>
    cases s? with
    | none => exact ih
    | some s =>
      rw [mergeSpans, foldl_merge]
      exact congrArg (Option.getD · .dummy) (hull?_cons s (spans.filterMap id)).symm

theorem spans_eq (ts : List Tree) : spans ts = ts.map (·.span?) := by
  induction ts with
  | nil => rfl
  | cons t ts ih => rw [spans, ih, List.map_cons]

/-- The span of a tree is that around those of its children that stand somewhere. -/
theorem span_eq (t : Tree) : t.span = (hull? (t.children.filterMap (·.span?))).getD .dummy := by
  rw [span, mergeSpans_eq, spans_eq, List.filterMap_map]
  rfl

theorem span?_node (rule : Rule) (cs : List Tree) :
    (node rule cs).span? = if (node rule cs).span = .dummy then none else some (node rule cs).span :=
  rfl

/-- The tokens in the tree, without the end of the input. -/
def passed (t : Tree) : List Token := Leaf.passed t.leaves

theorem passed_node (rule : Rule) (cs : List Tree) :
    (node rule cs).passed = cs.flatMap passed := by
  induction cs with
  | nil => rfl
  | cons c cs ih =>
    rw [List.flatMap_cons, ← ih]
    exact Leaf.passed_append c.leaves (leavesAll cs)

/-- Where the tokens in the tree stand. -/
def places (t : Tree) : List Span := t.passed.map (·.span)

theorem places_node (rule : Rule) (cs : List Tree) :
    (node rule cs).places = (cs.map places).flatten := by
  rw [places, passed_node, List.map_flatMap, List.flatMap_def]
  rfl

theorem span?_leaf (l : Leaf) : (leaf l).span? = hull? (leaf l).places := by
  cases hToken : l.token? with
  | none => simp [span?, Leaf.span?, places, passed, leaves, Leaf.passed, hToken]
  | some u =>
    by_cases hEnd : u.isEnd = true <;>
      simp [span?, Leaf.span?, places, passed, leaves, Leaf.passed, hToken, hEnd]

theorem forall_places {P : Span → Prop} {rule : Rule} {cs : List Tree} {c : Tree}
    (h : ∀ s ∈ (node rule cs).places, P s) (hc : c ∈ cs) : ∀ s ∈ c.places, P s := fun s hs => by
  refine h s ?_
  rw [places_node]
  exact List.mem_flatten_of_mem (List.mem_map_of_mem hc) hs

theorem span_of_span? {rule : Rule} {cs : List Tree}
    (h : ∀ c ∈ cs, c.span? = hull? c.places) :
    (node rule cs).span = (hull? (node rule cs).places).getD .dummy := by
  rw [span_eq, places_node, ← hull?_flatten, List.filterMap_map]
  exact congrArg (fun ss => (hull? ss).getD .dummy) (List.filterMap_congr h)

/-- The span of a tree is that around its tokens if none of them is empty: so a node that holds a token
is not taken for one that stands nowhere. -/
theorem span?_eq_hull? (t : Tree) (h : ∀ s ∈ t.places, s.IsFilled) : t.span? = hull? t.places := by
  match t, h with
  | leaf l, _ => exact span?_leaf l
  | node rule cs, h =>
    have hChild : ∀ c ∈ cs, c.span? = hull? c.places := fun c hc =>
      span?_eq_hull? c (forall_places h hc)
    rw [span?_node, span_of_span? hChild]
    cases hHull : hull? (node rule cs).places with
    | none => rfl
    | some b => exact if_neg (isFilled_hull? h b hHull).ne_dummy

/-- What the span of a node says: it goes from its first to its last token, and the children that
hold one have spans, which stand in order. The end of the input does not count, and an assumed part is
no token. -/
structure Spanned (t : Tree) : Prop where
  empty : t.passed = [] → t.span = .dummy
  start : ∀ first ∈ t.passed.head?, t.span.start = first.span.start
  stop : ∀ last ∈ t.passed.getLast?, t.span.stop = last.span.stop
  absent : ∀ c ∈ t.children, c.span? = none ↔ c.passed = []
  filled : ∀ s ∈ t.children.filterMap (·.span?), s.IsFilled
  ordered : (t.children.filterMap (·.span?)).Pairwise Before

section

variable {rule : Rule} {cs : List Tree} (hFilled : ∀ s ∈ (node rule cs).places, s.IsFilled)
  (hOrdered : (node rule cs).places.Pairwise Before)
include hFilled

theorem span_eq_hull? : (node rule cs).span = (hull? (node rule cs).places).getD .dummy :=
  span_of_span? fun c hc => span?_eq_hull? c (forall_places hFilled hc)

/-- The spans of children are those around their tokens. -/
theorem spans_eq_hull? :
    (node rule cs).children.filterMap (·.span?) = (cs.map places).filterMap hull? := by
  rw [List.filterMap_map]
  exact List.filterMap_congr fun c hc => span?_eq_hull? c (forall_places hFilled hc)

include hOrdered

/-- A node with a token stands from the first to the last one. -/
theorem span_ends {u : Token} (hMem : u ∈ (node rule cs).passed) :
    (∃ first ∈ (node rule cs).places.head?, (node rule cs).span.start = first.start) ∧
      ∃ last ∈ (node rule cs).places.getLast?, (node rule cs).span.stop = last.stop := by
  cases hHull : hull? (node rule cs).places with
  | none =>
    have hNil : (node rule cs).passed = [] := List.map_eq_nil_iff.1 (hull?_eq_none_iff.1 hHull)
    rw [hNil] at hMem
    cases hMem
  | some b =>
    rw [span_eq_hull? hFilled, hHull]
    exact hull?_ends hOrdered hHull

/-- The span of a node is as it should be if its tokens are not empty and stand in order. -/
theorem spanned_node : (node rule cs).Spanned where
  empty hEmpty := by
    rw [span_eq_hull? hFilled, places, hEmpty]
    rfl
  start first hFirst := by
    obtain ⟨⟨s, hs, hStart⟩, -⟩ := span_ends hFilled hOrdered (List.mem_of_mem_head? hFirst)
    rw [places, List.head?_map, hFirst] at hs
    rw [hStart, ← Option.some.inj hs]
  stop last hLast := by
    obtain ⟨-, s, hs, hStop⟩ := span_ends hFilled hOrdered (List.mem_of_getLast? hLast)
    rw [places, List.getLast?_map, hLast] at hs
    rw [hStop, ← Option.some.inj hs]
  absent c hc := by
    rw [span?_eq_hull? c (forall_places hFilled hc), hull?_eq_none_iff, places, List.map_eq_nil_iff]
  filled := by
    rw [spans_eq_hull? hFilled]
    intro b hb
    obtain ⟨ss, hss, hHull⟩ := List.mem_filterMap.1 hb
    obtain ⟨c, hc, rfl⟩ := List.mem_map.1 hss
    exact isFilled_hull? (forall_places hFilled hc) b hHull
  ordered := by
    rw [spans_eq_hull? hFilled]
    exact pairwise_hull? (places_node rule cs ▸ hOrdered)

end

/-! ## The span of a part in that of the whole -/

/-- Where the tree stands, as a part of another one. -/
def extent (t : Tree) : Span := t.span?.getD .dummy

@[simp] theorem extent_node (rule : Rule) (cs : List Tree) :
    (node rule cs).extent = (node rule cs).span := by
  rw [extent, span?_node]
  split
  next h => rw [h]; rfl
  next => rfl

theorem extent_token {u : Token} (h : u.isEnd = false) : (token u).extent = u.span := by
  simp [extent, token, span?, Leaf.span?, Leaf.token?, h]

theorem extent_of_rule? {t : Tree} {rule : Rule} (h : t.rule? = some rule) : t.extent = t.span := by
  cases t with
  | leaf l => cases h
  | node other cs => exact extent_node other cs

/-- What stands in a part of a tree stands in the tree. -/
theorem extent_within {t c : Tree} (hc : c ∈ t.children) : c.extent.Within t.span := by
  intro s h
  cases hSpan : c.span? with
  | none =>
    rw [extent, hSpan] at h
    exact absurd rfl h.outer.ne_dummy
  | some b =>
    rw [extent, hSpan] at h
    have hMem : b ∈ t.children.filterMap (·.span?) := List.mem_filterMap.2 ⟨c, hc, hSpan⟩
    rw [span_eq]
    cases hHull : hull? (t.children.filterMap (·.span?)) with
    | none =>
      rw [hull?_eq_none_iff.1 hHull] at hMem
      cases hMem
    | some d => exact inside_hull? hMem h d hHull

end Tree

/-! ## Sources -/

/-- The tokens in the tree of a source that is not too long are not empty, and stand in order. -/
theorem places_of_parse {source : String} (h : Text.byteLength source.toList < 2 ^ 32)
    (options : ParseOptions) :
    (∀ s ∈ (parse source options).tree.places, s.IsFilled) ∧
      (parse source options).tree.places.Pairwise Span.Before := by
  have hLossless := Token.lossless_tokens h
  have hPassed : (parse source options).tree.passed = Token.words source :=
    passed_of_parse source options
  rw [Tree.places, hPassed]
  constructor
  · obtain ⟨body, last, hTokens, hLast, -, -, hBody⟩ := hLossless.ends
    refine List.forall_mem_map.2 fun t ht => ?_
    obtain ⟨hMem, -, hOpen⟩ := Token.mem_words.1 ht
    rw [hTokens, List.mem_append, List.mem_singleton] at hMem
    obtain hMem | rfl := hMem
    · exact (hBody t hMem).2
    · simp [Token.isEnd, hLast] at hOpen
  · exact List.pairwise_map.2 (hLossless.ordered.filter _)

theorem Tree.places_of_part? {root t : Tree} {path : List Nat} (h : root.part? path = some t) :
    t.places <:+: root.places :=
  (infix_passed (infix_leaves_of_part? h)).map _

/-- Where the nodes of the tree of a source stand. -/
theorem spanned_of_parse {source : String} (h : Text.byteLength source.toList < 2 ^ 32)
    (options : ParseOptions) {path : List Nat} {rule : Rule} {cs : List Tree}
    (hPart : (parse source options).tree.part? path = some (.node rule cs)) :
    (Tree.node rule cs).Spanned := by
  obtain ⟨hFilled, hOrdered⟩ := places_of_parse h options
  have hInfix := Tree.places_of_part? hPart
  exact Tree.spanned_node (fun s hs => hFilled s (hInfix.subset hs))
    (hOrdered.sublist hInfix.sublist)

end CfScript
