import CfScript.Proofs.MadeMaps
import Mathlib.Logic.Function.Basic

/-!
# Attribute maps as dictionaries

In an attribute map a name is looked up from the front, in any letter case. A dictionary says what is
found without a search: it has its keys, which are names in small letters, in the order in which they
were first given, and what each of them stands for. An edit of a map is the same edit of its
dictionary as long as the names of the map are distinct, and every edit keeps them distinct.

## Main results

* `AttributeMap.dictionary_edit`: an edit of a map is the edit of its dictionary;
* `AttributeMap.edited_agrees`: a map agrees with a dictionary after any edits.
-/

namespace CfScript

variable {α : Type}

/-- An edit of attributes. -/
inductive AttributeEdit (α : Type) where
  | insert (name : Identifier) (value : α)
  | remove (name : String)
  /-- Writes to the value of a name that has one. -/
  | assign (name : String) (value : α)
  /-- Starts again from attributes that are inserted in turn. -/
  | collect (attributes : List (Attribute α))

/-! ## Dictionaries -/

/-- Keys in the order in which they were first given, and what each key stands for. -/
structure Dictionary (α : Type) where
  order : List String
  lookup? : String → Option (Attribute α)

namespace Dictionary

/-- The dictionary without keys. -/
def empty : Dictionary α := ⟨[], fun _ => none⟩

/-- The value of a key. -/
def value? (d : Dictionary α) (key : String) : Option α := (d.lookup? key).map (·.value)

/-- What the keys stand for, in order. -/
def entries (d : Dictionary α) : List (Attribute α) := d.order.filterMap d.lookup?

/-- The dictionary with another value for a key that is there. The spelling of its name stays. -/
def write (d : Dictionary α) (key : String) (value : α) : Dictionary α :=
  { d with lookup? := Function.update d.lookup? key ((d.lookup? key).map fun a => { a with value }) }

/-- The dictionary with a new key behind the others. -/
def append (d : Dictionary α) (key : String) (a : Attribute α) : Dictionary α :=
  ⟨d.order ++ [key], Function.update d.lookup? key (some a)⟩

/-- The dictionary without a key. -/
def erase (d : Dictionary α) (key : String) : Dictionary α :=
  ⟨d.order.filter (· != key), Function.update d.lookup? key none⟩

section

variable (d : Dictionary α) {key other : String} (value : α) (a : Attribute α)

@[simp] theorem lookup?_write_self :
    (d.write key value).lookup? key = (d.lookup? key).map fun a => { a with value } :=
  Function.update_self ..

theorem lookup?_write_of_ne (h : other ≠ key) : (d.write key value).lookup? other = d.lookup? other :=
  Function.update_of_ne h ..

@[simp] theorem lookup?_append_self : (d.append key a).lookup? key = some a := Function.update_self ..

theorem lookup?_append_of_ne (h : other ≠ key) : (d.append key a).lookup? other = d.lookup? other :=
  Function.update_of_ne h ..

@[simp] theorem lookup?_erase_self : (d.erase key).lookup? key = none := Function.update_self ..

theorem lookup?_erase_of_ne (h : other ≠ key) : (d.erase key).lookup? other = d.lookup? other :=
  Function.update_of_ne h ..

end

/-- Writes to a key that is there, and appends a new one. -/
def insert (d : Dictionary α) (name : Identifier) (value : α) : Dictionary α :=
  if Text.fold name.name ∈ d.order then d.write (Text.fold name.name) value
  else d.append (Text.fold name.name) ⟨name, value⟩

/-- The dictionary after an edit, and the value that the edit found under its key. -/
def edit (d : Dictionary α) : AttributeEdit α → Option α × Dictionary α
  | .insert name value => (d.value? (Text.fold name.name), d.insert name value)
  | .remove name => (d.value? (Text.fold name), d.erase (Text.fold name))
  | .assign name value => (d.value? (Text.fold name), d.write (Text.fold name) value)
  | .collect attributes => (none, attributes.foldl (fun d a => d.insert a.name a.value) empty)

/-- The dictionary after edits that are made in turn. -/
def edited (d : Dictionary α) (edits : List (AttributeEdit α)) : Dictionary α :=
  edits.foldl (fun d e => (d.edit e).2) d

end Dictionary

/-! ## The dictionary of a map -/

namespace AttributeMap

variable {map : AttributeMap α}

/-- The map after an edit, and the value that the edit found. -/
def edit (map : AttributeMap α) : AttributeEdit α → Option α × AttributeMap α
  | .insert name value => map.insert name value
  | .remove name => map.remove name
  | .assign name value => (map.get? name, map.set name value)
  | .collect attributes => (none, ofList attributes)

/-- The map after edits that are made in turn. -/
def edited (map : AttributeMap α) (edits : List (AttributeEdit α)) : AttributeMap α :=
  edits.foldl (fun map e => (map.edit e).2) map

/-- The keys of a map, and the first entry under each. -/
def dictionary (map : AttributeMap α) : Dictionary α where
  order := map.keys
  lookup? key := map.entries.find? (Text.fold ·.name.name == key)

theorem lookup?_dictionary (map : AttributeMap α) (key : String) :
    map.dictionary.lookup? key = map.entries.find? (Text.fold ·.name.name == key) := rfl

theorem get?_eq_value? (map : AttributeMap α) (name : String) :
    map.get? name = map.dictionary.value? (Text.fold name) := rfl

theorem mem_order_iff (map : AttributeMap α) (name : String) :
    Text.fold name ∈ map.dictionary.order ↔ map.contains name = true :=
  (map.contains_iff name).symm

/-- A value that is written under another key does not show. The key is any text, while
`find?_replaceIn_of_ne` is about the keys of names. -/
theorem find?_replaceIn_of_key {name key : String} (value : α) (entries : List (Attribute α))
    (hKey : key ≠ Text.fold name) :
    (replaceIn name value entries).find? (Text.fold ·.name.name == key) =
      entries.find? (Text.fold ·.name.name == key) := by
  induction entries with
  | nil => rfl
  | cons a rest ih =>
    by_cases hName : a.name.isNamed name = true
    · have hOther : (Text.fold a.name.name == key) = false := by
        simpa [isNamed_iff.1 hName] using hKey.symm
      simp [replaceIn, hName, hOther]
    · simp only [replaceIn, hName, Bool.false_eq_true, if_false, List.find?_cons, ih]

theorem dictionary_set (map : AttributeMap α) (name : String) (value : α) :
    (map.set name value).dictionary = map.dictionary.write (Text.fold name) value := by
  have hEntry : (map.set name value).dictionary.lookup? =
      (map.dictionary.write (Text.fold name) value).lookup? := by
    funext key
    by_cases hKey : key = Text.fold name
    · subst hKey
      rw [Dictionary.lookup?_write_self]
      exact find?_replaceIn_self value map.entries rfl
    · rw [Dictionary.lookup?_write_of_ne _ _ hKey]
      exact find?_replaceIn_of_key value map.entries hKey
  exact congrArg₂ Dictionary.mk (keys_set map name value) hEntry

theorem dictionary_append (map : AttributeMap α) (a : Attribute α)
    (hNew : map.contains a.name.name = false) :
    (AttributeMap.mk (map.entries ++ [a])).dictionary =
      map.dictionary.append (Text.fold a.name.name) a := by
  have hNone : map.entries.find? (Text.fold ·.name.name == Text.fold a.name.name) = none := by
    rw [contains_eq_isSome_find?, Option.isSome_eq_false_iff, Option.isNone_iff_eq_none] at hNew
    exact hNew
  have hEntry : (AttributeMap.mk (map.entries ++ [a])).dictionary.lookup? =
      (map.dictionary.append (Text.fold a.name.name) a).lookup? := by
    funext key
    by_cases hKey : key = Text.fold a.name.name
    · subst hKey
      simp [dictionary, List.find?_append, hNone]
    · rw [Dictionary.lookup?_append_of_ne _ _ hKey]
      simp [dictionary, List.find?_append, Ne.symm hKey]
  exact congrArg₂ Dictionary.mk (by simp [keys, dictionary]) hEntry

theorem dictionary_insert (map : AttributeMap α) (name : Identifier) (value : α) :
    (map.insert name value).2.dictionary = map.dictionary.insert name value := by
  have hOrder := map.mem_order_iff name.name
  cases hHas : map.contains name.name with
  | true =>
    obtain ⟨old, hOld⟩ := Option.isSome_iff_exists.1 ((map.get?_isSome name.name).trans hHas)
    rw [insert, hOld, Dictionary.insert, if_pos (hOrder.2 hHas)]
    exact dictionary_set map name.name value
  | false =>
    have hNone : map.get? name.name = none := by
      rw [← get?_isSome] at hHas
      simpa using hHas
    rw [insert, hNone, Dictionary.insert, if_neg (by simp [hOrder, hHas])]
    exact dictionary_append map ⟨name, value⟩ hHas

/-- If names are distinct, removing the first entry of a name removes all entries of the name. -/
theorem eraseP_eq_filter {entries : List (Attribute α)} (name : String)
    (h : (entries.map (Text.fold ·.name.name)).Nodup) :
    entries.eraseP (·.name.isNamed name) = entries.filter (!·.name.isNamed name) := by
  induction entries with
  | nil => rfl
  | cons a rest ih =>
    rw [List.map_cons, List.nodup_cons] at h
    by_cases hName : a.name.isNamed name = true
    · have hRest : ∀ b ∈ rest, (!b.name.isNamed name) = true := by
        intro b hb
        rw [Bool.not_eq_true', Bool.eq_false_iff, ne_eq, isNamed_iff]
        intro hSame
        exact h.1 (List.mem_map.2 ⟨b, hb, hSame.trans (isNamed_iff.1 hName).symm⟩)
      simp [hName, List.filter_eq_self.2 hRest]
    · simp [hName, ih h.2]

theorem dictionary_remove (h : map.keys.Nodup) (name : String) :
    (map.remove name).2.dictionary = map.dictionary.erase (Text.fold name) := by
  have hEntries : (map.remove name).2.entries = map.entries.filter (!·.name.isNamed name) :=
    eraseP_eq_filter name h
  have hKeys : (map.remove name).2.keys = map.keys.filter (· != Text.fold name) := by
    rw [keys, hEntries, keys, List.filter_map]
    rfl
  have hEntry : (map.remove name).2.dictionary.lookup? =
      (map.dictionary.erase (Text.fold name)).lookup? := by
    funext key
    by_cases hKey : key = Text.fold name
    · subst hKey
      rw [Dictionary.lookup?_erase_self, lookup?_dictionary, hEntries, List.find?_filter,
        List.find?_eq_none]
      simp [Identifier.isNamed, Text.sameName]
    · rw [Dictionary.lookup?_erase_of_ne _ hKey, lookup?_dictionary, lookup?_dictionary, hEntries,
        List.find?_filter]
      congr 1
      funext a
      by_cases hName : Text.fold a.name.name = key
      · simp [Identifier.isNamed, Text.sameName, hName, hKey]
      · simp [hName]
  exact congrArg₂ Dictionary.mk hKeys hEntry

theorem dictionary_insertAll (map : AttributeMap α) (attributes : List (Attribute α)) :
    (map.insertAll attributes).dictionary =
      attributes.foldl (fun d a => d.insert a.name a.value) map.dictionary := by
  induction attributes generalizing map with
  | nil => rfl
  | cons a rest ih =>
    rw [List.foldl_cons, ← dictionary_insert, ← ih]
    rfl

/-! ## Edits -/

theorem Made.edit (h : map.Made) (e : AttributeEdit α) : (map.edit e).2.Made := by
  cases e with
  | insert name value => exact h.insert name value
  | remove name => exact h.remove name
  | assign name value => exact h.set name value
  | collect attributes => exact made_ofList attributes

/-- An edit of a map is the edit of its dictionary. -/
theorem dictionary_edit (h : map.Made) (e : AttributeEdit α) :
    map.dictionary.edit e = ((map.edit e).1, (map.edit e).2.dictionary) := by
  cases e with
  | insert name value =>
    exact Prod.ext (old_insert map name value).symm (dictionary_insert map name value).symm
  | remove name => exact Prod.ext rfl (dictionary_remove h.nodup_keys name).symm
  | assign name value => exact Prod.ext rfl (dictionary_set map name value).symm
  | collect attributes => exact Prod.ext rfl (dictionary_insertAll empty attributes).symm

theorem Made.edited (h : map.Made) (edits : List (AttributeEdit α)) : (map.edited edits).Made := by
  induction edits generalizing map with
  | nil => exact h
  | cons e edits ih => exact ih (h.edit e)

theorem dictionary_edited (h : map.Made) (edits : List (AttributeEdit α)) :
    (map.edited edits).dictionary = map.dictionary.edited edits := by
  -- On the edits, for every map: distinct names are what an edit needs and leaves to the next.
  induction edits generalizing map with
  | nil => rfl
  | cons e edits ih =>
    have hStep : (map.dictionary.edit e).2 = (map.edit e).2.dictionary := by rw [dictionary_edit h]
    rw [Dictionary.edited, List.foldl_cons, hStep, ← Dictionary.edited, ← ih (h.edit e)]
    rfl

/-- The entries of a map are what its keys stand for, in their order. -/
theorem entries_dictionary (h : map.keys.Nodup) : map.dictionary.entries = map.entries := by
  have hFound : ∀ a ∈ map.entries,
      map.dictionary.lookup? (Text.fold a.name.name) = some a := fun a ha => find?_of_mem h ha
  rw [Dictionary.entries, dictionary, keys, List.filterMap_map]
  exact (List.filterMap_congr hFound).trans List.filterMap_some

/-- After any edits of the empty map its names are distinct in small letters, and it has the keys of
the dictionary that was edited in the same way, in the same order, with the same spellings and values.
It is looked up and measured as the dictionary is, and whatever is edited next finds the same. -/
theorem edited_agrees (edits : List (AttributeEdit α)) :
    let map : AttributeMap α := empty.edited edits
    let d : Dictionary α := Dictionary.empty.edited edits
    map.keys.Nodup ∧ map.keys = d.order ∧ map.entries = d.entries ∧
      (∀ name, map.get? name = d.value? (Text.fold name)) ∧
      (∀ name, map.contains name = true ↔ Text.fold name ∈ d.order) ∧
      map.size = d.order.length ∧ ∀ e, (map.edit e).1 = (d.edit e).1 := by
  intro map d
  have hMade : map.Made := Made.empty.edited edits
  have hSame : map.dictionary = d := dictionary_edited Made.empty edits
  rw [← hSame]
  refine ⟨hMade.nodup_keys, rfl, (entries_dictionary hMade.nodup_keys).symm, map.get?_eq_value?,
    fun name => (mem_order_iff map name).symm, by simp [dictionary, keys, size], fun e => ?_⟩
  rw [dictionary_edit hMade e]

example : (edited (.ofList [⟨⟨"a", .dummy⟩, 1⟩, ⟨⟨"b", .dummy⟩, 2⟩])
    [.insert ⟨"A", .dummy⟩ 3, .insert ⟨"c", .dummy⟩ 4, .remove "B"]).entries.map
      (fun a => (a.name.name, a.value)) = [("a", 3), ("c", 4)] := by
  decide

end AttributeMap

end CfScript
