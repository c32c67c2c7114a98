import CfScript.Ast.Equality
import CfScript.Proofs.LikePrograms
import Mathlib.Data.List.Induction
import Mathlib.Data.List.Perm.Subperm

/-!
# Attribute maps that the operations make

The operations on attribute maps never make two entries whose names agree, and each map without such
entries can be made. Two of these maps are compared in one direction only, by their sizes and by
whether the second has each attribute of the first. That says it all: equally many names without
repetition, all of them among the others, are the others.

## Main results

* `AttributeMap.made_iff`: the maps that the operations make are those without repeated names;
* `AttributeMap.same_iff`: maps are the same if they give the same values to the same names;
* `Expression.MadeMaps`, `Statement.MadeMaps`: the trees whose maps the operations made.
-/

namespace CfScript

/-! ## Maps that the operations make -/

namespace AttributeMap

variable {α : Type}

/-- The maps that the operations make. -/
inductive Made : AttributeMap α → Prop where
  | empty : Made .empty
  | insert {map : AttributeMap α} (h : map.Made) (name : Identifier) (value : α) :
    Made (map.insert name value).2
  | set {map : AttributeMap α} (h : map.Made) (name : String) (value : α) : Made (map.set name value)
  | remove {map : AttributeMap α} (h : map.Made) (name : String) : Made (map.remove name).2

theorem nodup_keys_insert {map : AttributeMap α} (h : map.keys.Nodup) (name : Identifier) (value : α) :
    (map.insert name value).2.keys.Nodup := by
  cases hHas : map.contains name.name with
  | true => rwa [keys_insert_of_contains map name value hHas]
  | false =>
    have hNew : Text.fold name.name ∉ map.keys := by simp [← contains_iff, hHas]
    rw [keys_insert_of_not_contains map name value hHas]
    exact List.nodup_append.2 ⟨h, List.pairwise_singleton _ _,
      fun _ hx _ hy hSame => hNew (List.mem_singleton.1 hy ▸ hSame ▸ hx)⟩

/-- No two names of a map that the operations make agree. -/
theorem Made.nodup_keys {map : AttributeMap α} (h : map.Made) : map.keys.Nodup := by
  induction h with
  | empty => exact .nil
  | insert _ name value ih => exact nodup_keys_insert ih name value
  | set _ name value ih => rwa [keys_set]
  | @remove map _ name ih => exact ih.sublist (List.eraseP_sublist.map _)

/-- Each map without repeated names comes from inserting its attributes in turn. -/
theorem Made.of_nodup_keys {map : AttributeMap α} (h : map.keys.Nodup) : map.Made := by
  obtain ⟨entries⟩ := map
  induction entries using List.reverseRecOn with
  | nil => exact .empty
  | append_singleton front a ih =>
    rw [keys, List.map_append, List.nodup_append] at h
    have hNew : (⟨front⟩ : AttributeMap α).contains a.name.name = false := by
      rw [← Bool.not_eq_true, contains_iff]
      exact fun hMem => h.2.2 _ hMem _ (List.mem_singleton.2 rfl) rfl
    have hNone : (⟨front⟩ : AttributeMap α).get? a.name.name = none := by
      rw [← get?_isSome] at hNew
      simpa using hNew
    have hMade := (ih h.1).insert a.name a.value
    rwa [AttributeMap.insert, hNone] at hMade

/-- The maps that the operations make are those without repeated names. -/
theorem made_iff {map : AttributeMap α} : map.Made ↔ map.keys.Nodup :=
  ⟨Made.nodup_keys, Made.of_nodup_keys⟩

theorem made_ofList (attributes : List (Attribute α)) : (ofList attributes).Made := by
  suffices h : ∀ map : AttributeMap α, map.Made → (map.insertAll attributes).Made from h _ .empty
  induction attributes with
  | nil => exact fun map h => h
  | cons a as ih => exact fun map h => ih _ (h.insert a.name a.value)

end AttributeMap

/-! ## Trees with such maps -/

mutual

/-- Whether the operations made each attribute map in the expression. -/
def Expression.MadeMaps : Expression → Prop
  | .identifier .. => True
  | .string .. => True
  | .number .. => True
  | .boolean .. => True
  | .null .. => True
  | .binary _ left right _ => left.MadeMaps ∧ right.MadeMaps
  | .unary _ operand _ => operand.MadeMaps
  | .postfixOp _ operand _ => operand.MadeMaps
  | .assignment _ target value _ => target.MadeMaps ∧ value.MadeMaps
  | .ternary condition thenValue elseValue _ =>
    condition.MadeMaps ∧ thenValue.MadeMaps ∧ elseValue.MadeMaps
  | .elvis value default _ => value.MadeMaps ∧ default.MadeMaps
  | .paren inner _ => inner.MadeMaps
  | .call callee args _ => callee.MadeMaps ∧ madeArguments args
  | .member object _ _ _ => object.MadeMaps
  | .index object index _ => object.MadeMaps ∧ index.MadeMaps
  | .array items _ => madeExpressions items
  | .struct entries _ => madeEntries entries
  | .new _ args _ => madeArguments args
  | .function _ params body _ => madeParameters params ∧ madeStatements body
  | .lambda _ params value _ => madeParameters params ∧ value.MadeMaps

def madeExpressions : List Expression → Prop
  | [] => True
  | e :: es => e.MadeMaps ∧ madeExpressions es

def madeExpression? : Option Expression → Prop
  | none => True
  | some e => e.MadeMaps

def madeArguments : List (Argument Expression) → Prop
  | [] => True
  | ⟨_, value⟩ :: args => value.MadeMaps ∧ madeArguments args

def madeEntries : List (StructEntry Expression) → Prop
  | [] => True
  | ⟨key, _, value⟩ :: entries => key.MadeMaps ∧ value.MadeMaps ∧ madeEntries entries

def madeEach : List (Attribute Expression) → Prop
  | [] => True
  | ⟨_, value⟩ :: rest => value.MadeMaps ∧ madeEach rest

/-- Whether the operations made the map and each map in its values. -/
def AttributeMap.MadeMaps : AttributeMap Expression → Prop
  | ⟨entries⟩ => AttributeMap.Made ⟨entries⟩ ∧ madeEach entries

def madeParameters : List (Parameter Expression) → Prop
  | [] => True
  | ⟨_, _, _, default?, attributes⟩ :: params =>
    madeExpression? default? ∧ attributes.MadeMaps ∧ madeParameters params

def madeProperty : Property Expression → Prop
  | ⟨_, attributes⟩ => attributes.MadeMaps

/-- Whether the operations made each attribute map in the statement. -/
def Statement.MadeMaps : Statement → Prop
  | .script body _ => madeStatements body
  | .block body _ => madeStatements body
  | .expression value _ => value.MadeMaps
  | .declare _ value? _ => madeExpression? value?
  | .branch condition thenBranch elseBranch? _ =>
    condition.MadeMaps ∧ thenBranch.MadeMaps ∧ madeStatement? elseBranch?
  | .whileLoop condition body _ => condition.MadeMaps ∧ body.MadeMaps
  | .doLoop body condition _ => body.MadeMaps ∧ condition.MadeMaps
  | .forLoop init? condition? update? body _ =>
    madeStatement? init? ∧ madeExpression? condition? ∧ madeExpression? update? ∧ body.MadeMaps
  | .eachLoop _ target collection body _ => target.MadeMaps ∧ collection.MadeMaps ∧ body.MadeMaps
  | .select subject cases default? _ => subject.MadeMaps ∧ madeCases cases ∧ madeBody? default?
  | .breakLoop _ => True
  | .continueLoop _ => True
  | .returnValue value? _ => madeExpression? value?
  | .throwValue value? _ => madeExpression? value?
  | .abort value? _ => madeExpression? value?
  | .includeFile value _ => value.MadeMaps
  | .importPath _ _ => True
  | .tryCatch body catches finally? _ => madeStatements body ∧ madeCatches catches ∧ madeBody? finally?
  | .function _ _ _ params attributes body? _ =>
    madeParameters params ∧ attributes.MadeMaps ∧ madeBody? body?
  | .component _ attributes body _ => attributes.MadeMaps ∧ madeStatements body
  | .property declaration _ => madeProperty declaration
  | .tag _ attributes body? _ => attributes.MadeMaps ∧ madeBody? body?

def madeStatements : List Statement → Prop
  | [] => True
  | s :: ss => s.MadeMaps ∧ madeStatements ss

def madeStatement? : Option Statement → Prop
  | none => True
  | some s => s.MadeMaps

def madeBody? : Option (List Statement) → Prop
  | none => True
  | some body => madeStatements body

def madeCases : List (SwitchCase Expression Statement) → Prop
  | [] => True
  | ⟨value, body⟩ :: cases => value.MadeMaps ∧ madeStatements body ∧ madeCases cases

def madeCatches : List (CatchClause Statement) → Prop
  | [] => True
  | ⟨_, _, body⟩ :: catches => madeStatements body ∧ madeCatches catches

end

/-! ## When two maps are the same -/

theorem madeEach_iff {as : List (Attribute Expression)} :
    madeEach as ↔ ∀ a ∈ as, a.value.MadeMaps := by
  induction as with
  | nil => simp [madeEach]
  | cons a as ih => simp [madeEach, ih]

theorem attributesIn_iff {as : List (Attribute Expression)} {map : AttributeMap Expression} :
    attributesIn as map = true ↔
      ∀ a ∈ as, ∃ value, map.get? a.name.name = some value ∧ a.value.same value = true := by
  induction as with
  | nil => simp [attributesIn]
  | cons a as ih =>
    cases h : map.get? a.name.name <;> simp [attributesIn, h, ih]

namespace AttributeMap

variable {map other : AttributeMap Expression}

theorem same_iff_attributesIn :
    map.same other = true ↔ map.size = other.size ∧ attributesIn map.entries other = true := by
  obtain ⟨entries⟩ := map
  simp [AttributeMap.same, size]

theorem get?_of_mem (h : map.keys.Nodup) {a : Attribute Expression} (ha : a ∈ map.entries) :
    map.get? a.name.name = some a.value := by
  rw [get?, find?_of_mem h ha]
  rfl

theorem get?_congr {a b : String} (h : Text.fold a = Text.fold b) : map.get? a = map.get? b := by
  simp only [get?, find?, Identifier.isNamed, Text.sameName, h]

/-- Maps are the same if they have the same names and the same values for them. -/
theorem same_iff (hMap : map.keys.Nodup) (hOther : other.keys.Nodup) :
    map.same other = true ↔
      (∀ key, key ∈ map.keys ↔ key ∈ other.keys) ∧
        ∀ a ∈ map.entries, ∀ b ∈ other.entries, Text.fold a.name.name = Text.fold b.name.name →
          a.value.same b.value = true := by
  rw [same_iff_attributesIn, attributesIn_iff]
  constructor
  · rintro ⟨hSize, hIn⟩
    -- Equally many names without repetition, all of them among the others: they are all the others.
    have hSubset : map.keys ⊆ other.keys := by
      intro key hKey
      obtain ⟨a, ha, rfl⟩ := List.mem_map.1 hKey
      obtain ⟨value, hGet, -⟩ := hIn a ha
      rw [← contains_iff, ← get?_isSome, hGet]
      rfl
    have hPerm : map.keys.Perm other.keys :=
      (List.subperm_of_subset hMap hSubset).perm_of_length_le (by simp [keys]; exact hSize.ge)
    refine ⟨fun key => hPerm.mem_iff, fun a ha b hb hNames => ?_⟩
    obtain ⟨value, hGet, hValue⟩ := hIn a ha
    rw [get?_congr hNames, get?_of_mem hOther hb] at hGet
    rwa [Option.some.inj hGet]
  · rintro ⟨hKeys, hValues⟩
    have hPerm : map.keys.Perm other.keys := (List.perm_ext_iff_of_nodup hMap hOther).2 hKeys
    refine ⟨by simpa [keys, size] using hPerm.length_eq, fun a ha => ?_⟩
    obtain ⟨b, hb, hNames⟩ := List.mem_map.1 ((hKeys _).1 (List.mem_map_of_mem ha))
    exact ⟨b.value, (get?_congr hNames.symm).trans (get?_of_mem hOther hb), hValues a ha b hb hNames.symm⟩

theorem same_of_values (hMap : map.keys.Nodup)
    (h : ∀ a ∈ map.entries, a.value.same a.value = true) : map.same map = true :=
  same_iff_attributesIn.2 ⟨rfl, attributesIn_iff.2 fun a ha => ⟨a.value, get?_of_mem hMap ha, h a ha⟩⟩

end AttributeMap

end CfScript
