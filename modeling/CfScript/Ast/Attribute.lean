import CfScript.Source.Span
import CfScript.Text.Fold

/-!
# Names and attribute maps

Declarations and tag statements carry attributes: names with values, in the order in which they were
given. Two names agree when they differ in letter case only. Giving a name again replaces its value
and keeps both its place and its first spelling, so no two entries of a map that was built by
`insert` agree in their names.

## Main results

* `get?_insert_self`, `get?_insert_of_ne`: `insert` changes what is found under one name only;
* `old_insert`: `insert` hands out the value that it replaces;
* `keys_insert_of_contains`, `keys_insert_of_not_contains`: a name that is there keeps its place, a
  new one goes to the end.
-/

namespace CfScript

/-- A name as written, and where it stands. The place takes no part in comparisons. -/
structure Identifier where
  name : String
  span : Span := .dummy
deriving Inhabited

namespace Identifier

instance : BEq Identifier := ⟨fun a b => a.name == b.name⟩

/-- Whether the identifier spells `name` in some letter case. -/
def isNamed (id : Identifier) (name : String) : Bool := Text.sameName id.name name

end Identifier

/-- A name with a value. -/
structure Attribute (α : Type) where
  name : Identifier
  value : α
deriving Inhabited

/-- Attributes in the order in which their names were first given. -/
structure AttributeMap (α : Type) where
  entries : List (Attribute α) := []
deriving Inhabited

namespace AttributeMap

variable {α : Type}

/-- The map without attributes. -/
def empty : AttributeMap α := {}

/-- The number of attributes. -/
def size (map : AttributeMap α) : Nat := map.entries.length

/-- Whether there is no attribute. -/
def isEmpty (map : AttributeMap α) : Bool := map.entries.isEmpty

/-- The values, in order. -/
def values (map : AttributeMap α) : List α := map.entries.map (·.value)

/-- The names in small letters, in order. -/
def keys (map : AttributeMap α) : List String := map.entries.map (Text.fold ·.name.name)

/-- The entry of a name. -/
def find? (map : AttributeMap α) (name : String) : Option (Attribute α) :=
  map.entries.find? (·.name.isNamed name)

/-- The value of a name. -/
def get? (map : AttributeMap α) (name : String) : Option α := (map.find? name).map (·.value)

/-- Whether a name has a value. -/
def contains (map : AttributeMap α) (name : String) : Bool :=
  map.entries.any (·.name.isNamed name)

/-- The entries with the first value of `name` replaced. -/
def replaceIn (name : String) (value : α) : List (Attribute α) → List (Attribute α)
  | [] => []
  | a :: rest =>
    if a.name.isNamed name then { a with value } :: rest else a :: replaceIn name value rest

/-- The map with another value for a name that has one. -/
def set (map : AttributeMap α) (name : String) (value : α) : AttributeMap α :=
  ⟨replaceIn name value map.entries⟩

/-- The map with a value for a name, and the value that the name had before. -/
def insert (map : AttributeMap α) (name : Identifier) (value : α) : Option α × AttributeMap α :=
  match map.get? name.name with
  | some old => (some old, map.set name.name value)
  | none => (none, ⟨map.entries ++ [⟨name, value⟩]⟩)

/-- The map without a name, and the value that the name had. -/
def remove (map : AttributeMap α) (name : String) : Option α × AttributeMap α :=
  (map.get? name, ⟨map.entries.eraseP (·.name.isNamed name)⟩)

/-- The map with more attributes inserted in turn. -/
def insertAll (map : AttributeMap α) (attributes : List (Attribute α)) : AttributeMap α :=
  attributes.foldl (fun map a => (map.insert a.name a.value).2) map

/-- The map of the attributes, inserted in turn. -/
def ofList (attributes : List (Attribute α)) : AttributeMap α := empty.insertAll attributes

/-- The attributes whose names are not among `known`. -/
def unknown (map : AttributeMap α) (known : List String) : List (Attribute α) :=
  map.entries.filter fun a => !known.any (a.name.isNamed ·)

/-- The attributes whose names are among `known`, in the order of `known`, then the others. -/
def ordered (map : AttributeMap α) (known : List String) : List (Attribute α) :=
  known.filterMap map.find? ++ map.unknown known

/-! ## What the operations do to the entries -/

theorem isNamed_iff {id : Identifier} {name : String} :
    id.isNamed name = true ↔ Text.fold id.name = Text.fold name :=
  Text.sameName_iff

theorem contains_eq_isSome_find? (map : AttributeMap α) (name : String) :
    map.contains name = (map.find? name).isSome := by
  rw [contains, find?, Bool.eq_iff_iff]
  simp

theorem contains_iff (map : AttributeMap α) (name : String) :
    map.contains name = true ↔ Text.fold name ∈ map.keys := by
  simp [contains, keys, isNamed_iff]

theorem get?_isSome (map : AttributeMap α) (name : String) :
    (map.get? name).isSome = map.contains name := by
  simp [get?, contains_eq_isSome_find?]

theorem map_key_replaceIn (name : String) (value : α) (entries : List (Attribute α)) :
    (replaceIn name value entries).map (·.name) = entries.map (·.name) := by
  induction entries with
  | nil => rfl
  | cons a rest ih =>
    by_cases h : a.name.isNamed name = true
    · simp [replaceIn, h]
    · simp [replaceIn, h, ih]

theorem forall_replaceIn {P : Attribute α → Prop} {entries : List (Attribute α)}
    (h : ∀ a ∈ entries, P a) (name : String) {value : α}
    (hValue : ∀ a ∈ entries, P { a with value }) : ∀ a ∈ replaceIn name value entries, P a := by
  induction entries with
  | nil => exact h
  | cons a rest ih =>
    obtain ⟨hHead, hRest⟩ := List.forall_mem_cons.1 h
    obtain ⟨hValueHead, hValueRest⟩ := List.forall_mem_cons.1 hValue
    unfold replaceIn
    split
    · exact List.forall_mem_cons.2 ⟨hValueHead, hRest⟩
    · exact List.forall_mem_cons.2 ⟨hHead, ih hRest hValueRest⟩

/-- What holds of all entries holds of all entries after an insertion, if it holds of a new entry and
of the old ones with the new value. -/
theorem forall_insert {P : Attribute α → Prop} {map : AttributeMap α} (h : ∀ a ∈ map.entries, P a)
    {name : Identifier} {value : α} (hValue : ∀ a ∈ map.entries, P { a with value })
    (hNew : P ⟨name, value⟩) : ∀ a ∈ (map.insert name value).2.entries, P a := by
  unfold insert
  split
  · exact forall_replaceIn h name.name hValue
  · exact List.forall_mem_append.2 ⟨h, List.forall_mem_singleton.2 hNew⟩

theorem keys_set (map : AttributeMap α) (name : String) (value : α) :
    (map.set name value).keys = map.keys := by
  have h := congrArg (List.map fun id : Identifier => Text.fold id.name)
    (map_key_replaceIn name value map.entries)
  simpa [keys, set, Function.comp_def] using h

theorem find?_replaceIn_self {name other : String} (value : α) (entries : List (Attribute α))
    (hSame : Text.fold other = Text.fold name) :
    (replaceIn name value entries).find? (·.name.isNamed other) =
      (entries.find? (·.name.isNamed name)).map fun a => { a with value } := by
  have hAll (id : Identifier) : id.isNamed other = id.isNamed name := by
    simp [Identifier.isNamed, Text.sameName, hSame]
  induction entries with
  | nil => rfl
  | cons a rest ih =>
    by_cases h : a.name.isNamed name = true
    · simp [replaceIn, h, hAll]
    · simp only [hAll] at ih
      simp [replaceIn, h, hAll, ih]

theorem find?_replaceIn_of_ne {name other : String} (value : α) (entries : List (Attribute α))
    (hOther : Text.fold other ≠ Text.fold name) :
    (replaceIn name value entries).find? (·.name.isNamed other) =
      entries.find? (·.name.isNamed other) := by
  induction entries with
  | nil => rfl
  | cons a rest ih =>
    by_cases h : a.name.isNamed name = true
    · have hNot : a.name.isNamed other = false := by
        rw [Bool.eq_false_iff, ne_eq, isNamed_iff]
        exact fun hSame => hOther (hSame.symm.trans (isNamed_iff.1 h))
      simp [replaceIn, h, hNot]
    · by_cases hHere : a.name.isNamed other = true
      · simp [replaceIn, h, hHere]
      · simp [replaceIn, h, hHere, ih]

theorem get?_set_self (map : AttributeMap α) (name : String) (value : α)
    (h : map.contains name = true) : (map.set name value).get? name = some value := by
  rw [contains_eq_isSome_find?, find?] at h
  obtain ⟨a, ha⟩ := Option.isSome_iff_exists.1 h
  simp [get?, find?, set, find?_replaceIn_self value map.entries rfl, ha]

theorem get?_set_of_ne (map : AttributeMap α) {name other : String} (value : α)
    (h : Text.fold other ≠ Text.fold name) : (map.set name value).get? other = map.get? other := by
  simp [get?, find?, set, find?_replaceIn_of_ne value map.entries h]

theorem old_insert (map : AttributeMap α) (name : Identifier) (value : α) :
    (map.insert name value).1 = map.get? name.name := by
  unfold insert
  split
  · next h => exact h.symm
  · next h => exact h.symm

theorem get?_insert_self (map : AttributeMap α) (name : Identifier) (value : α) :
    (map.insert name value).2.get? name.name = some value := by
  unfold insert
  split
  · next old h =>
    exact get?_set_self map name.name value (by rw [← get?_isSome, h]; rfl)
  · next h =>
    have hNone : map.entries.find? (·.name.isNamed name.name) = none := by
      simpa [get?, find?] using h
    have hSelf : name.isNamed name.name = true := Text.sameName_refl _
    simp [get?, find?, hNone, hSelf]

theorem get?_insert_of_ne (map : AttributeMap α) (name : Identifier) (value : α) {other : String}
    (h : Text.fold other ≠ Text.fold name.name) :
    (map.insert name value).2.get? other = map.get? other := by
  unfold insert
  split
  · exact get?_set_of_ne map value h
  · have hNot : name.isNamed other = false := by
      rw [Bool.eq_false_iff, ne_eq, isNamed_iff]
      exact fun hSame => h hSame.symm
    simp [get?, find?, hNot]

theorem keys_insert_of_contains (map : AttributeMap α) (name : Identifier) (value : α)
    (h : map.contains name.name = true) : (map.insert name value).2.keys = map.keys := by
  rw [← get?_isSome] at h
  obtain ⟨old, hOld⟩ := Option.isSome_iff_exists.1 h
  simp [insert, hOld, keys_set]

theorem keys_insert_of_not_contains (map : AttributeMap α) (name : Identifier) (value : α)
    (h : map.contains name.name = false) :
    (map.insert name value).2.keys = map.keys ++ [Text.fold name.name] := by
  rw [← get?_isSome, Option.isSome_eq_false_iff, Option.isNone_iff_eq_none] at h
  simp [insert, h, keys]

end AttributeMap

end CfScript
