import CfScript.Ast.Property
import CfScript.Proofs.Dictionary

/-!
# Editing properties in place

The type of properties has no short form without a name. A property that is edited in place is a
record with a flag for its form, a name and a type that may be missing, and its attributes: here only
the edits keep the short form and the name together. An edit that ends in an error does so before it
has written anything.

A record that edits have reached stands for a property, and editing the record is editing that
property. So what holds of properties holds of the record after any edits: its form may change, what
it means stays.

## Main results

* `Property.get?_expanded`: the attributes of an expanded property;
* `PropertyRecord.edited_ofProperty`: editing the parts of a property is editing the property;
* `PropertyRecord.Reached.keeps_meaning`: what holds of each record that edits reach.
-/

namespace CfScript

/-! ## What the expanded form says -/

/-- Attributes that are inserted win over those that are there. -/
theorem AttributeMap.get?_insertAll (map : AttributeMap Expression)
    {entries : List (Attribute Expression)} (h : (AttributeMap.mk entries).keys.Nodup) (name : String) :
    (map.insertAll entries).get? name = ((AttributeMap.mk entries).get? name).or (map.get? name) := by
  induction entries generalizing map with
  | nil => rfl
  | cons a rest ih =>
    rw [keys, List.map_cons, List.nodup_cons] at h
    rw [insertAll, List.foldl_cons, ← insertAll, ih _ h.2]
    by_cases hName : Text.fold name = Text.fold a.name.name
    · have hRest : (AttributeMap.mk rest).get? name = none := by
        rw [← Option.isNone_iff_eq_none, ← Option.isSome_eq_false_iff, get?_isSome, Bool.eq_false_iff,
          ne_eq, contains_iff, hName]
        exact h.1
      have hNamed : a.name.isNamed name = true := isNamed_iff.2 hName.symm
      rw [hRest, get?_congr hName, get?_insert_self]
      simp [get?, find?, hNamed]
    · have hNamed : a.name.isNamed name = false := by
        rw [Bool.eq_false_iff, ne_eq, isNamed_iff]
        exact Ne.symm hName
      rw [get?_insert_of_ne _ _ _ hName]
      simp [get?, find?, hNamed]

namespace Property

/-- An identifier that is folded is found under its name. -/
theorem get?_folded {α : Type} (ofText : String → α) (name other : String) (id? : Option Identifier) :
    (AttributeMap.mk (folded ofText name id?)).get? other =
      if Text.sameName name other then id?.map (ofText ·.name) else none := by
  cases id? with
  | none => simp [folded, AttributeMap.get?, AttributeMap.find?]
  | some id =>
    cases hName : Text.sameName name other <;>
      simp [folded, AttributeMap.get?, AttributeMap.find?, Identifier.isNamed, hName]

theorem nodup_folded {α : Type} (ofText : String → α) (name : String) (id? : Option Identifier) :
    (AttributeMap.mk (folded ofText name id?)).keys.Nodup := by
  cases id? with
  | none => exact .nil
  | some id => exact List.pairwise_singleton _ _

/-- An expanded property has the attributes that were written out, and its name and its type under
their names where nothing was written out. -/
theorem get?_expanded {p : Property Expression} (h : p.attributes.keys.Nodup) (name : String) :
    p.expanded.attributes.get? name = (p.attributes.get? name).or
      ((if Text.sameName "type" name then p.type?.map (.quoted ·.name) else none).or
        (if Text.sameName "name" name then p.name?.map (.quoted ·.name) else none)) := by
  rw [← get?_folded, ← get?_folded]
  unfold expanded expandedWith
  split
  · next hNone =>
    rw [Bool.and_eq_true, Option.isNone_iff_eq_none, Option.isNone_iff_eq_none] at hNone
    rw [hNone.1, hNone.2]
    exact (Option.or_none).symm
  · have hTyped := nodup_folded Expression.quoted "type" p.type?
    have hNamed := nodup_folded Expression.quoted "name" p.name?
    simp only [ofAttributes, AttributeMap.ofList, AttributeMap.insertAll, List.foldl_append]
    rw [← AttributeMap.insertAll, ← AttributeMap.insertAll, ← AttributeMap.insertAll,
      AttributeMap.get?_insertAll _ h, AttributeMap.get?_insertAll _ hTyped,
      AttributeMap.get?_insertAll _ hNamed]
    exact congrArg _ (congrArg _ Option.or_none)

theorem get?_expanded_name {p : Property Expression} (h : p.attributes.keys.Nodup) :
    p.expanded.attributes.get? "NAME" =
      (p.attributes.get? "NAME").or (p.name?.map (.quoted ·.name)) := by
  rw [get?_expanded h, if_neg (by decide), if_pos (by decide), Option.none_or]

theorem get?_expanded_type {p : Property Expression} (h : p.attributes.keys.Nodup) :
    p.expanded.attributes.get? "TYPE" =
      (p.attributes.get? "TYPE").or (p.type?.map (.quoted ·.name)) := by
  rw [get?_expanded h, if_pos (by decide), if_neg (by decide), Option.or_none]

theorem made_expanded {p : Property Expression} (h : p.attributes.Made) :
    p.expanded.attributes.Made := by
  unfold expanded expandedWith
  split
  · exact h
  · exact AttributeMap.made_ofList _

theorem form_expanded (p : Property Expression) : p.expanded.form = .long none none := by
  unfold expanded expandedWith
  split <;> rfl

end Property

/-! ## Records -/

/-- An edit of a property. -/
inductive PropertyEdit where
  | setShort (short : Bool)
  | setName (name? : Option Identifier)
  | setType (type? : Option Identifier)
  | attributes (e : AttributeEdit Expression)

/-- The property after an edit. -/
def Property.edit (p : Property Expression) : PropertyEdit → Except EditError (Property Expression)
  | .setShort short => p.setShort short
  | .setName name? => p.setName name?
  | .setType type? => .ok (p.setType type?)
  | .attributes e => .ok { p with attributes := (p.attributes.edit e).2 }

theorem Property.made_edit {p q : Property Expression} {e : PropertyEdit} (h : p.attributes.Made)
    (hEdit : p.edit e = .ok q) : q.attributes.Made := by
  -- Only leaving the short form touches the attributes, and it expands the property.
  obtain ⟨form, attributes⟩ := p
  cases e with
  | setShort short =>
    cases form with
    | long name? type? =>
      cases short <;> cases name? <;> cases hEdit <;> exact h
    | short name type? =>
      cases short with
      | true => cases hEdit; exact h
      | false => cases hEdit; exact made_expanded h
  | setName name? =>
    cases form with
    | long => cases hEdit; exact h
    | short =>
      cases name? with
      | none => cases hEdit
      | some name => cases hEdit; exact h
  | setType type? =>
    cases form with
    | long => cases hEdit; exact h
    | short => cases hEdit; exact h
  | attributes e => cases hEdit; exact h.edit e

/-- The parts of a property. The short form may have no name. -/
structure PropertyRecord where
  attributes : AttributeMap Expression
  short : Bool
  name? : Option Identifier
  type? : Option Identifier

namespace PropertyRecord

/-- A record in the long form. -/
def long (attributes : AttributeMap Expression) : PropertyRecord := ⟨attributes, false, none, none⟩

/-- A record in the short form. -/
def shorthand (type? : Option Identifier) (name : Identifier) (attributes : AttributeMap Expression) :
    PropertyRecord :=
  ⟨attributes, true, some name, type?⟩

/-- The parts of a property. -/
def ofProperty (p : Property Expression) : PropertyRecord :=
  ⟨p.attributes, p.isShort, p.name?, p.type?⟩

/-- The property that the record stands for. -/
def property (r : PropertyRecord) : Property Expression :=
  ⟨match r.short, r.name? with
    | true, some name => .short name r.type?
    | _, name? => .long name? r.type?, r.attributes⟩

/-- The record with the same meaning in which everything is an attribute. -/
def expanded (r : PropertyRecord) : PropertyRecord := ofProperty r.property.expanded

/-- What is done to a record in place. What was written before an error stays written. -/
abbrev Editing := ExceptT Property.EditError (StateM PropertyRecord)

def setShort (short : Bool) : Editing Unit := do
  let r ← get
  if short && r.name?.isNone then throw .missingName
  if r.short && !short then set r.expanded
  else set { r with short }

def setName (name? : Option Identifier) : Editing Unit := do
  let r ← get
  if r.short && name?.isNone then throw .missingName
  set { r with name? }

def setType (type? : Option Identifier) : Editing Unit :=
  modify fun r => { r with type? }

def editing : PropertyEdit → Editing Unit
  | .setShort short => setShort short
  | .setName name? => setName name?
  | .setType type? => setType type?
  | .attributes e => modify fun r => { r with attributes := (r.attributes.edit e).2 }

/-- How an edit of the record ends, and the record afterwards. -/
def edited (r : PropertyRecord) (e : PropertyEdit) : Except Property.EditError Unit × PropertyRecord :=
  (editing e).run.run r

/-- The records that edits reach from a new one. -/
inductive Reached : PropertyRecord → Prop where
  | long {attributes : AttributeMap Expression} (h : attributes.Made) : Reached (.long attributes)
  | shorthand (type? : Option Identifier) (name : Identifier) {attributes : AttributeMap Expression}
    (h : attributes.Made) : Reached (.shorthand type? name attributes)
  | edited {r : PropertyRecord} (h : r.Reached) (e : PropertyEdit) : Reached (r.edited e).2

theorem property_ofProperty (p : Property Expression) : (ofProperty p).property = p := by
  obtain ⟨form, attributes⟩ := p
  cases form <;> rfl

/-- An edit of the parts of a property is the edit of the property. An error leaves all parts alone. -/
theorem edited_ofProperty (p : Property Expression) (e : PropertyEdit) :
    (ofProperty p).edited e = match p.edit e with
      | .ok q => (.ok (), ofProperty q)
      | .error error => (.error error, ofProperty p) := by
  obtain ⟨form, attributes⟩ := p
  cases form with
  | long name? type? =>
    cases e with
    | setShort short => cases short <;> cases name? <;> rfl
    | _ => rfl
  | short name type? =>
    cases e with
    | setShort short => cases short <;> rfl
    | setName name? => cases name? <;> rfl
    | _ => rfl

/-- Edits never reach more than the parts of a property. -/
theorem Reached.isProperty {r : PropertyRecord} (h : r.Reached) :
    ∃ p : Property Expression, p.attributes.Made ∧ r = ofProperty p := by
  induction h with
  | long h => exact ⟨.ofAttributes _, h, rfl⟩
  | shorthand type? name h => exact ⟨⟨.short name type?, _⟩, h, rfl⟩
  | edited _ e ih =>
    obtain ⟨p, hMade, rfl⟩ := ih
    rw [edited_ofProperty]
    cases hEdit : p.edit e with
    | ok q => exact ⟨q, Property.made_edit hMade hEdit, rfl⟩
    | error error => exact ⟨p, hMade, rfl⟩

/-- A record that edits have reached is edited as the property that it stands for. In the short form it
has a name, an error leaves it alone, and a change of form that succeeds leaves its meaning alone. The
expanded record is in the long form without a name and a type, and expanding it again changes nothing.
Its `NAME` and `TYPE` are the attributes that were written out, and else the name and the type. -/
theorem Reached.keeps_meaning {r : PropertyRecord} (h : r.Reached) :
    (∀ e, r.edited e = match r.property.edit e with
      | .ok p => (.ok (), ofProperty p)
      | .error error => (.error error, r)) ∧
    (r.short = true → r.name?.isSome = true) ∧
    (∀ e error, (r.edited e).1 = .error error → (r.edited e).2 = r) ∧
    (∀ short, (r.edited (.setShort short)).1 = .ok () →
      (r.edited (.setShort short)).2.expanded = r.expanded) ∧
    r.expanded.expanded = r.expanded ∧
    (r.expanded.short = false ∧ r.expanded.name? = none ∧ r.expanded.type? = none) ∧
    r.expanded.attributes.get? "NAME" =
      (r.attributes.get? "NAME").or (r.name?.map (.quoted ·.name)) ∧
    r.expanded.attributes.get? "TYPE" =
      (r.attributes.get? "TYPE").or (r.type?.map (.quoted ·.name)) := by
  obtain ⟨p, hMade, rfl⟩ := h.isProperty
  have hForm := p.form_expanded
  simp only [property_ofProperty, expanded]
  refine ⟨edited_ofProperty p, Property.name?_of_isShort, fun e error hError => ?_,
    fun short hOk => ?_, by rw [Property.expanded_expanded], ?_,
    Property.get?_expanded_name hMade.nodup_keys, Property.get?_expanded_type hMade.nodup_keys⟩
  · rw [edited_ofProperty] at hError ⊢
    cases hEdit : p.edit e with
    | ok q => simp [hEdit] at hError
    | error _ => rfl
  · rw [edited_ofProperty] at hOk ⊢
    cases hEdit : p.edit (.setShort short) with
    | ok q => simp only [property_ofProperty, Property.expanded_setShort hEdit]
    | error error => simp [hEdit] at hOk
  · simp [ofProperty, Property.isShort, Property.name?, Property.type?, hForm]

/-- An attribute that is written out wins over the name of the short form, whose type is kept. -/
theorem keeps_meaning_given :
    let r := ((shorthand (some ⟨"string", .dummy⟩) ⟨"foo", .dummy⟩ .empty).edited
      (.attributes (.insert ⟨"Name", .dummy⟩ (.quoted "bar")))).2
    r.Reached ∧ r.expanded.attributes.get? "NAME" = some (.quoted "bar") ∧
      r.expanded.attributes.get? "TYPE" = some (.quoted "string") := by
  intro r
  have hReached : r.Reached := .edited (.shorthand _ _ .empty) _
  obtain ⟨-, -, -, -, -, -, hName, hType⟩ := hReached.keeps_meaning
  have hAttributes : r.attributes = (AttributeMap.empty.insert ⟨"Name", .dummy⟩ (.quoted "bar")).2 := rfl
  have hSpelling : Text.fold "NAME" = Text.fold "Name" := by decide
  have hGiven : r.attributes.get? "NAME" = some (.quoted "bar") := by
    rw [AttributeMap.get?_congr hSpelling, hAttributes, AttributeMap.get?_insert_self]
  have hOther : r.attributes.get? "TYPE" = none := by
    rw [hAttributes, AttributeMap.get?_insert_of_ne _ _ _ (by decide)]
    rfl
  rw [hGiven] at hName
  rw [hOther] at hType
  exact ⟨hReached, hName, hType⟩

end PropertyRecord

end CfScript
