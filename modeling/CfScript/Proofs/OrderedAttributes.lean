import CfScript.Proofs.Kept
import CfScript.Proofs.Sameness
import Mathlib.Data.List.Nodup

/-!
# Attributes in the order of their element

Attributes are written in the order of their element: those whose names it knows first, in its order,
then the others as they were given. Two searches make this order. Each known name is looked up in the
map, and each entry of the map is looked up among the known names. They neither lose nor repeat an
attribute, since both sides have distinct names: a known name finds no entry but its own, and no two
known names find the same.

## Main results

* `Element.distinct_known`: no element knows two names that differ in letter case only;
* `AttributeMap.perm_ordered`: the attributes in order are the entries of the map;
* `AttributeMap.ordered_rebuilds`: a map can be put together again from its attributes in order.
-/

namespace CfScript

/-- The names of an element are distinct in small letters, too. -/
theorem Element.distinct_known (element : Element) : (element.known.map Text.fold).Nodup := by
  cases element with
  | component kind => cases kind <;> decide +kernel
  | tag kind => cases kind <;> decide +kernel
  | _ => decide +kernel

namespace AttributeMap

variable {α : Type} {map other : AttributeMap α} {known : List String}

/-- The attributes with known names, in the order of the names. -/
def recognized (map : AttributeMap α) (known : List String) : List (Attribute α) :=
  known.filterMap map.find?

theorem ordered_eq (map : AttributeMap α) (known : List String) :
    map.ordered known = map.recognized known ++ map.unknown known := rfl

theorem any_isNamed_iff {id : Identifier} :
    known.any (id.isNamed ·) = true ↔ Text.fold id.name ∈ known.map Text.fold := by
  simp only [List.any_eq_true, isNamed_iff, List.mem_map]
  exact exists_congr fun name => and_congr_right fun _ => eq_comm

theorem fold_of_find? {name : String} {a : Attribute α} (h : map.find? name = some a) :
    Text.fold a.name.name = Text.fold name := by
  have hNamed := List.find?_some h
  exact isNamed_iff.1 hNamed

/-- A name finds an entry of a map with distinct names if the entry has it. -/
theorem find?_eq_some_iff (h : map.keys.Nodup) {name : String} {a : Attribute α} :
    map.find? name = some a ↔ a ∈ map.entries ∧ Text.fold a.name.name = Text.fold name := by
  constructor
  · intro hFound
    exact ⟨List.mem_of_find?_eq_some hFound, fold_of_find? hFound⟩
  · rintro ⟨hMem, hName⟩
    rw [← find?_of_mem h hMem]
    simp only [find?, Identifier.isNamed, Text.sameName, hName]

theorem mem_recognized (h : map.keys.Nodup) {a : Attribute α} :
    a ∈ map.recognized known ↔ a ∈ map.entries ∧ Text.fold a.name.name ∈ known.map Text.fold := by
  simp only [recognized, List.mem_filterMap, find?_eq_some_iff h, List.mem_map]
  constructor
  · rintro ⟨name, hKnown, hMem, hName⟩
    exact ⟨hMem, name, hKnown, hName.symm⟩
  · rintro ⟨hMem, name, hKnown, hName⟩
    exact ⟨name, hKnown, hMem, hName.symm⟩

/-- The attributes with known names are in the order of the names. -/
theorem keys_recognized (map : AttributeMap α) (known : List String) :
    (map.recognized known).map (Text.fold ·.name.name) =
      (known.map Text.fold).filter (· ∈ map.keys) := by
  induction known with
  | nil => rfl
  | cons name rest ih =>
    have hHas := map.contains_iff name
    rw [contains_eq_isSome_find?] at hHas
    rw [recognized] at ih
    cases hFound : map.find? name with
    | none =>
      have hNot : Text.fold name ∉ map.keys := by simp [← hHas, hFound]
      rw [recognized, List.filterMap_cons_none hFound, ih, List.map_cons,
        List.filter_cons_of_neg (by simpa using hNot)]
    | some a =>
      have hIn : Text.fold name ∈ map.keys := by simp [← hHas, hFound]
      have hName : Text.fold a.name.name = Text.fold name := fold_of_find? hFound
      rw [recognized, List.filterMap_cons_some hFound, List.map_cons, ih, List.map_cons,
        List.filter_cons_of_pos (by simpa using hIn), hName]

/-- The other attributes are in the order of the map. -/
theorem unknown_eq (map : AttributeMap α) (known : List String) :
    map.unknown known = map.entries.filter (Text.fold ·.name.name ∉ known.map Text.fold) := by
  refine List.filter_congr fun a _ => ?_
  rw [Bool.eq_iff_iff, Bool.not_eq_true', Bool.eq_false_iff, ne_eq, any_isNamed_iff]
  simp

theorem nodup_recognized (hKnown : (known.map Text.fold).Nodup) :
    (map.recognized known).Nodup := by
  refine List.Nodup.of_map (Text.fold ·.name.name) ?_
  rw [keys_recognized]
  exact hKnown.filter _

/-- The attributes in order are the entries of the map, in another order. -/
theorem perm_ordered (h : map.keys.Nodup) (hKnown : (known.map Text.fold).Nodup) :
    (map.ordered known).Perm map.entries := by
  have hRecognized : (map.recognized known).Perm
      (map.entries.filter (Text.fold ·.name.name ∈ known.map Text.fold)) := by
    -- Nothing is repeated on either side, so it is enough to compare what they have.
    have hEntries : map.entries.Nodup := List.Nodup.of_map _ h
    refine (List.perm_ext_iff_of_nodup (nodup_recognized hKnown) (hEntries.filter _)).2 fun a => ?_
    simp only [mem_recognized h, List.mem_filter, decide_eq_true_eq]
  rw [ordered_eq, unknown_eq]
  refine (hRecognized.append_right _).trans ?_
  simp only [decide_not]
  exact List.filter_append_perm _ map.entries

theorem madeMaps_iff {map : AttributeMap Expression} :
    map.MadeMaps ↔ map.Made ∧ ∀ a ∈ map.entries, a.value.MadeMaps := by
  obtain ⟨entries⟩ := map
  exact and_congr_right fun _ => madeEach_iff

/-- What a map with distinct names finds does not depend on the order of its entries. -/
theorem find?_of_perm (h : map.keys.Nodup) (hPerm : other.entries.Perm map.entries) :
    other.find? = map.find? := by
  have hOther : other.keys.Nodup := (hPerm.map _).nodup_iff.2 h
  funext name
  ext a
  simp only [find?_eq_some_iff h, find?_eq_some_iff hOther, hPerm.mem_iff]

/-- Maps with the same entries in different orders are the same. -/
theorem same_of_perm {map other : AttributeMap Expression} (h : map.keys.Nodup)
    (hPerm : other.entries.Perm map.entries)
    (hValues : ∀ a ∈ map.entries, a.value.same a.value = true) : other.same map = true := by
  have hKeys : other.keys.Perm map.keys := hPerm.map _
  refine (same_iff (hKeys.nodup_iff.2 h) h).2 ⟨fun key => hKeys.mem_iff, fun a ha b hb hNames => ?_⟩
  have hEqual : some a = some b := by
    rw [← (find?_eq_some_iff h).2 ⟨hPerm.mem_iff.1 ha, hNames⟩, ← find?_of_mem h hb]
  rw [Option.some.inj hEqual]
  exact hValues b hb

/-- Putting the attributes in order again changes nothing. -/
theorem ordered_of_ordered (h : map.keys.Nodup) (hKnown : (known.map Text.fold).Nodup) :
    (AttributeMap.mk (map.ordered known)).ordered known = map.ordered known := by
  have hFind : (AttributeMap.mk (map.ordered known)).find? = map.find? :=
    find?_of_perm h (perm_ordered h hKnown)
  -- What the known names have found is not unknown, and what is left is in its order already.
  have hUnknown : (AttributeMap.mk (map.ordered known)).unknown known = map.unknown known := by
    have hFirst : (map.recognized known).filter (Text.fold ·.name.name ∉ known.map Text.fold) = [] := by
      rw [List.filter_eq_nil_iff]
      intro a ha
      simpa using ((mem_recognized h).1 ha).2
    rw [unknown_eq, ordered_eq, List.filter_append, hFirst, List.nil_append, unknown_eq,
      List.filter_filter]
    simp
  rw [ordered_eq, hUnknown, recognized, hFind]
  rfl

end AttributeMap

/-- Of a map that the operations made and of known names that are distinct in small letters, as those
of each element are, the attributes in order are the entries of the map in another order: first those
with known names, in the order of the names, then the others in the order of the map. Put into a map
again in this order they give the same map, and their order is the same as before. -/
theorem AttributeMap.ordered_rebuilds {map : AttributeMap Expression} {known : List String}
    (hMap : map.MadeMaps) (hKnown : (known.map Text.fold).Nodup) :
    (map.ordered known).Perm map.entries ∧
      (∃ front, map.ordered known =
          front ++ map.entries.filter (Text.fold ·.name.name ∉ known.map Text.fold) ∧
        front.map (Text.fold ·.name.name) = (known.map Text.fold).filter (· ∈ map.keys)) ∧
      (ofList (map.ordered known) == map) = true ∧
      (ofList (map.ordered known)).ordered known = map.ordered known ∧
      ∀ element : Element, (element.known.map Text.fold).Nodup := by
  obtain ⟨hMade, hValues⟩ := madeMaps_iff.1 hMap
  have hNames : map.keys.Nodup := hMade.nodup_keys
  have hPerm := perm_ordered hNames hKnown
  have hKeys : ((map.ordered known).map (Text.fold ·.name.name)).Nodup :=
    (hPerm.map _).nodup_iff.2 hNames
  have hBuilt : ofList (map.ordered known) = ⟨map.ordered known⟩ :=
    congrArg AttributeMap.mk (entries_ofList hKeys)
  rw [hBuilt]
  refine ⟨hPerm, ⟨map.recognized known, ?_, keys_recognized map known⟩,
    same_of_perm hNames hPerm fun a ha => a.value.same_self (hValues a ha),
    ordered_of_ordered hNames hKnown, Element.distinct_known⟩
  rw [ordered_eq, unknown_eq]

/-- Names in mixed letters, one of them unknown: the known ones come first. -/
theorem AttributeMap.ordered_rebuilds_property :
    let map : AttributeMap Expression := ofList [⟨⟨"custom", .dummy⟩, .quoted "x"⟩,
      ⟨⟨"Type", .dummy⟩, .quoted "string"⟩, ⟨⟨"nAmE", .dummy⟩, .quoted "foo"⟩]
    map.MadeMaps ∧ (map.ordered Element.property.known).map (·.name.name) = ["nAmE", "Type", "custom"] ∧
      (ofList (map.ordered Element.property.known) == map) = true := by
  intro map
  have hEntries : map.entries = [⟨⟨"custom", .dummy⟩, .quoted "x"⟩,
      ⟨⟨"Type", .dummy⟩, .quoted "string"⟩, ⟨⟨"nAmE", .dummy⟩, .quoted "foo"⟩] :=
    entries_ofList (by decide)
  have hValues : ∀ a ∈ map.entries, a.value.MadeMaps := by
    rw [hEntries]
    simp [Expression.quoted, Expression.MadeMaps]
  have hMade : map.MadeMaps := madeMaps_iff.2 ⟨made_ofList _, hValues⟩
  exact ⟨hMade, by decide +kernel, (ordered_rebuilds hMade (Element.distinct_known .property)).2.2.1⟩

end CfScript
