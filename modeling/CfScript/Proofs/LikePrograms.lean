import CfScript.Ast.Equality
import CfScript.Proofs.Likeness

/-!
# Program trees that are alike

Program trees are alike in a view if they are the same as far as the view sees it: a view that sees
spelling tells program trees apart as `==` does, and one that does not sees no difference at all. What
is the same in every view are the names of attributes up to letter case, since they decide what an
attribute replaces.

A map of attributes is the same as another one only because no two of its names agree. So maps that are
alike are told to be free of repeated names, which inserting keeps up.

## Main results

* `AttributeMap.Like.insert`: inserting into maps that are alike;
* `AttributeMap.Like.same`: maps that are alike are the same, if spelling is seen.
-/

namespace CfScript

variable {v : View}

/-! ## Single nodes -/

/-- Names that are alike. -/
def Identifier.Like (v : View) (a b : Identifier) : Prop := v.SameText a.name b.name

/-- Expressions that are the same, as far as the view sees it. -/
def Expression.Like (v : View) (e f : Expression) : Prop := v.spelling = true → e.same f = true

/-- Statements that are the same, as far as the view sees it. -/
def Statement.Like (v : View) (s t : Statement) : Prop := v.spelling = true → s.same t = true

theorem Identifier.Like.eq {a b : Identifier} (h : a.Like v b) (hSeen : v.spelling = true) :
    (a == b) = true := by
  show (a.name == b.name) = true
  exact beq_iff_eq.2 (h.spelling hSeen)

theorem sameName?_of_like {a b : Option Identifier} (h : Option.Rel (Identifier.Like v) a b)
    (hSeen : v.spelling = true) : sameName? a b = true := by
  cases h with
  | none => rfl
  | some h => exact h.eq hSeen

theorem sameExpression?_of_like {a b : Option Expression}
    (h : Option.Rel (Expression.Like v) a b) (hSeen : v.spelling = true) :
    sameExpression? a b = true := by
  cases h with
  | none => rfl
  | some h => exact h hSeen

theorem sameStatement?_of_like {a b : Option Statement}
    (h : Option.Rel (Statement.Like v) a b) (hSeen : v.spelling = true) :
    sameStatement? a b = true := by
  cases h with
  | none => rfl
  | some h => exact h hSeen

/-! ## Attributes -/

/-- Attributes that are alike. -/
structure Attribute.Like (v : View) (a b : Attribute Expression) : Prop where
  name : a.name.Like v b.name
  value : a.value.Like v b.value

/-- Maps whose attributes are alike in turn, and of which no two agree in their names. -/
structure AttributeMap.Like (v : View) (m n : AttributeMap Expression) : Prop where
  entries : List.Forall₂ (Attribute.Like v) m.entries n.entries
  nodup : n.keys.Nodup

namespace AttributeMap

/-- Of a map without repeated names every attribute is found under its name. -/
theorem find?_of_mem {α : Type} {map : AttributeMap α} (h : map.keys.Nodup) {a : Attribute α}
    (ha : a ∈ map.entries) : map.find? a.name.name = some a := by
  obtain ⟨entries⟩ := map
  simp only [keys, find?] at h ha ⊢
  induction entries with
  | nil => cases ha
  | cons b bs ih =>
    rw [List.map_cons, List.nodup_cons] at h
    rcases List.mem_cons.1 ha with rfl | ha
    · rw [List.find?_cons, show a.name.isNamed a.name.name = true from Text.sameName_refl _]
    · have hOther : b.name.isNamed a.name.name = false := by
        rw [Bool.eq_false_iff, ne_eq, isNamed_iff]
        intro hFold
        exact h.1 (List.mem_map.2 ⟨a, ha, hFold.symm⟩)
      rw [List.find?_cons, hOther]
      exact ih h.2 ha

theorem replaceIn_like {as bs : List (Attribute Expression)}
    (h : List.Forall₂ (Attribute.Like v) as bs) {a b : String} (hName : v.SameText a b)
    {e f : Expression} (hValue : e.Like v f) :
    List.Forall₂ (Attribute.Like v) (replaceIn a e as) (replaceIn b f bs) := by
  induction h with
  | nil => exact .nil
  | @cons x y xs ys hHead hTail ih =>
    have hNamed : x.name.isNamed a = y.name.isNamed b := by
      rw [Identifier.isNamed, Identifier.isNamed, Text.sameName, Text.sameName, hHead.name.fold,
        hName.fold]
    simp only [replaceIn, hNamed]
    split
    · exact .cons ⟨hHead.name, hValue⟩ hTail
    · exact .cons hHead ih

namespace Like

variable {m n : AttributeMap Expression}

theorem empty : AttributeMap.Like v .empty .empty := ⟨.nil, .nil⟩

theorem keys (h : m.Like v n) : m.keys = n.keys := by
  refine List.forall₂_eq_eq_eq ▸ List.rel_map (fun _ _ h => ?_) h.entries
  exact h.name.fold

theorem contains (h : m.Like v n) {a b : String} (hName : v.SameText a b) :
    m.contains a = n.contains b := by
  rw [Bool.eq_iff_iff, contains_iff, contains_iff, h.keys, hName.fold]

/-- Inserting into maps that are alike replaces a value in both or in neither, and the maps stay
alike. -/
theorem insert (h : m.Like v n) {a b : Identifier} (hName : a.Like v b) {e f : Expression}
    (hValue : e.Like v f) :
    (m.insert a e).1.isSome = (n.insert b f).1.isSome ∧
      (m.insert a e).2.Like v (n.insert b f).2 := by
  have hContains := h.contains hName
  rw [old_insert, old_insert, get?_isSome, get?_isSome]
  refine ⟨hContains, ?_, ?_⟩
  · rw [← get?_isSome, ← get?_isSome] at hContains
    unfold AttributeMap.insert
    cases hOld : m.get? a.name <;> cases hOther : n.get? b.name <;> simp [hOld, hOther] at hContains
    · exact List.rel_append h.entries (.cons ⟨hName, hValue⟩ .nil)
    · exact replaceIn_like h.entries hName hValue
  · cases hHas : n.contains b.name with
    | true => rw [keys_insert_of_contains n b f hHas]; exact h.nodup
    | false =>
      rw [keys_insert_of_not_contains n b f hHas]
      have hNew : Text.fold b.name ∉ n.keys := by simp [← contains_iff, hHas]
      refine List.nodup_append.2 ⟨h.nodup, List.pairwise_singleton _ _, ?_⟩
      rintro x hx y hy rfl
      exact hNew (List.mem_singleton.1 hy ▸ hx)

theorem attributesIn (h : m.Like v n) (hSeen : v.spelling = true) {as bs : List (Attribute Expression)}
    (hAll : List.Forall₂ (Attribute.Like v) as bs) (hIn : ∀ b ∈ bs, b ∈ n.entries) :
    CfScript.attributesIn as n = true := by
  induction hAll with
  | nil => rfl
  | @cons a b as bs hHead _ ih =>
    have hFound : n.get? a.name.name = some b.value := by
      rw [hHead.name.spelling hSeen, get?, find?_of_mem h.nodup (hIn b (by simp))]
      rfl
    simp only [CfScript.attributesIn, hFound, hHead.value hSeen, Bool.true_and]
    exact ih fun b hb => hIn b (by simp [hb])

/-- Maps that are alike are the same, if spelling is seen. -/
theorem same (h : m.Like v n) (hSeen : v.spelling = true) : m.same n = true := by
  have hIn := h.attributesIn hSeen h.entries fun _ hb => hb
  have hLength := h.entries.length_eq
  obtain ⟨entries⟩ := m
  simp only [AttributeMap.same, size, hLength, beq_self_eq_true, Bool.true_and]
  exact hIn

end Like

end AttributeMap

/-! ## Parts of nodes -/

/-- Arguments that are alike. -/
structure Argument.Like (v : View) (a b : Argument Expression) : Prop where
  name? : Option.Rel (Identifier.Like v) a.name? b.name?
  value : a.value.Like v b.value

/-- Struct entries that are alike. -/
structure StructEntry.Like (v : View) (a b : StructEntry Expression) : Prop where
  key : a.key.Like v b.key
  separator : a.separator = b.separator
  value : a.value.Like v b.value

/-- Parameters that are alike. -/
structure Parameter.Like (v : View) (p q : Parameter Expression) : Prop where
  required : p.required = q.required
  type? : Option.Rel (Identifier.Like v) p.type? q.type?
  name : p.name.Like v q.name
  default? : Option.Rel (Expression.Like v) p.default? q.default?
  attributes : p.attributes.Like v q.attributes

/-- Cases of a `switch` that are alike. -/
structure SwitchCase.Like (v : View) (c d : SwitchCase Expression Statement) : Prop where
  value : c.value.Like v d.value
  body : List.Forall₂ (Statement.Like v) c.body d.body

/-- `catch` clauses that are alike. -/
structure CatchClause.Like (v : View) (c d : CatchClause Statement) : Prop where
  type? : Option.Rel v.SameText c.type? d.type?
  name : c.name.Like v d.name
  body : List.Forall₂ (Statement.Like v) c.body d.body

section Lists

variable (hSeen : v.spelling = true)

include hSeen

theorem sameExpressions_of_like {es fs : List Expression}
    (h : List.Forall₂ (Expression.Like v) es fs) : sameExpressions es fs = true := by
  induction h with
  | nil => rfl
  | cons h _ ih => simp only [sameExpressions, h hSeen, ih, Bool.and_self]

theorem sameArguments_of_like {as bs : List (Argument Expression)}
    (h : List.Forall₂ (Argument.Like v) as bs) : sameArguments as bs = true := by
  induction h with
  | nil => rfl
  | cons h _ ih =>
    simp only [sameArguments, sameName?_of_like h.name? hSeen, h.value hSeen, ih, Bool.and_self]

theorem sameEntries_of_like {as bs : List (StructEntry Expression)}
    (h : List.Forall₂ (StructEntry.Like v) as bs) : sameEntries as bs = true := by
  induction h with
  | nil => rfl
  | cons h _ ih =>
    simp only [sameEntries, h.key hSeen, h.separator, beq_self_eq_true, h.value hSeen, ih,
      Bool.and_self]

theorem sameParameters_of_like {ps qs : List (Parameter Expression)}
    (h : List.Forall₂ (Parameter.Like v) ps qs) : sameParameters ps qs = true := by
  induction h with
  | nil => rfl
  | cons h _ ih =>
    simp only [sameParameters, h.required, beq_self_eq_true, sameName?_of_like h.type? hSeen,
      h.name.eq hSeen, sameExpression?_of_like h.default? hSeen, h.attributes.same hSeen, ih,
      Bool.and_self]

theorem sameStatements_of_like {ss ts : List Statement}
    (h : List.Forall₂ (Statement.Like v) ss ts) : sameStatements ss ts = true := by
  induction h with
  | nil => rfl
  | cons h _ ih => simp only [sameStatements, h hSeen, ih, Bool.and_self]

theorem sameBody?_of_like {a b : Option (List Statement)}
    (h : Option.Rel (List.Forall₂ (Statement.Like v)) a b) : sameBody? a b = true := by
  cases h with
  | none => rfl
  | some h => exact sameStatements_of_like hSeen h

theorem sameCases_of_like {cs ds : List (SwitchCase Expression Statement)}
    (h : List.Forall₂ (SwitchCase.Like v) cs ds) : sameCases cs ds = true := by
  induction h with
  | nil => rfl
  | cons h _ ih =>
    simp only [sameCases, h.value hSeen, sameStatements_of_like hSeen h.body, ih, Bool.and_self]

theorem sameCatches_of_like {cs ds : List (CatchClause Statement)}
    (h : List.Forall₂ (CatchClause.Like v) cs ds) : sameCatches cs ds = true := by
  induction h with
  | nil => rfl
  | @cons c d cs ds h _ ih =>
    have hType : (c.type? == d.type?) = true := by
      obtain ⟨type?, name, body⟩ := c
      obtain ⟨other?, other, rest⟩ := d
      cases h.type? with
      | none => rfl
      | some hType => exact beq_iff_eq.2 (congrArg some (hType.spelling hSeen))
    simp only [sameCatches, hType, h.name.eq hSeen, sameStatements_of_like hSeen h.body, ih,
      Bool.and_self]

end Lists

/-- Properties whose forms, names, types and attributes are alike. -/
theorem Statement.like_property {p q : Property Expression} (hShort : p.isShort = q.isShort)
    (hName : Option.Rel (Identifier.Like v) p.name? q.name?)
    (hType : Option.Rel (Identifier.Like v) p.type? q.type?)
    (hAttributes : p.attributes.Like v q.attributes) (here there : Span) :
    (Statement.property p here).Like v (.property q there) := by
  intro hSeen
  simp only [Statement.same, Property.same_iff]
  exact ⟨hShort, sameName?_of_like hName hSeen, sameName?_of_like hType hSeen,
    hAttributes.same hSeen⟩

end CfScript
