import CfScript.Proofs.MadeMaps
import CfScript.Proofs.Places

/-!
# Being the same is an equivalence

Two program trees are the same if they mean the same as written. For trees whose attribute maps the
operations made this is an equivalence. Maps stand in trees and trees in maps, so the whole is one
induction over the tree.

The induction does not prove symmetry and transitivity apart. It shows that trees which are the same
are the same as the same trees, that is, that `a.same` is the function `b.same`; a relation that is
the equality of some function is an equivalence.

## Main results

* `Expression.settles`, `Statement.settles`: the same trees are the same as the same trees;
* `Expression.same_unplaced`, `Statement.same_unplaced`: places play no part;
* `AttributeMap.same_iff_get?`: maps are the same if what the one finds in the other is the same;
* `same_equivalence`: being the same is an equivalence that does not see places.
-/

namespace CfScript

/-! ## The same trees are the same as the same trees -/

/-- Whether what a comparison says of `a` it says of everything that it takes for `a`. -/
def Settles {α : Type} (made : α → Prop) (same : α → α → Bool) (a : α) : Prop :=
  ∀ ⦃b⦄, same a b = true → made b → same a = same b

theorem Settles.symm {α : Type} {made : α → Prop} {same : α → α → Bool} {a b : α}
    (h : Settles made same a) (hSelf : same a a = true) (hMade : made b) (hSame : same a b = true) :
    same b a = true := by
  rw [← h hSame hMade]
  exact hSelf

theorem Identifier.beq_iff {a b : Identifier} : (a == b) = true ↔ a.name = b.name :=
  @beq_iff_eq String _ _ _ _

instance : EquivBEq Identifier where
  rfl := Identifier.beq_iff.2 rfl
  symm h := Identifier.beq_iff.2 (Identifier.beq_iff.1 h).symm
  trans h h' := Identifier.beq_iff.2 ((Identifier.beq_iff.1 h).trans (Identifier.beq_iff.1 h'))

theorem Identifier.beqList_iff {as bs : List Identifier} :
    (as == bs) = true ↔ as.map (·.name) = bs.map (·.name) := by
  induction as generalizing bs with
  | nil => cases bs <;> simp
  | cons a as ih =>
    cases bs with
    | nil => simp
    | cons b bs => simp [ih, beq_iff]

theorem Identifier.beqList_congr {as bs cs : List Identifier} (h : (as == bs) = true) :
    (as == cs) = (bs == cs) := by
  rw [Bool.eq_iff_iff, beqList_iff, beqList_iff, beqList_iff.1 h]

theorem Identifier.beq_congr {a b c : Identifier} (h : (a == b) = true) : (a == c) = (b == c) :=
  BEq.congr_left h

theorem sameName?_settles {a b : Option Identifier} (h : sameName? a b = true) :
    sameName? a = sameName? b := by
  match a, b, h with
  | none, none, _ => rfl
  | some a, some b, h =>
    funext c?
    cases c? with
    | none => rfl
    | some c => exact @BEq.congr_left Identifier _ _ _ _ _ h

theorem sameName?_self (a : Option Identifier) : sameName? a a = true := by
  cases a with
  | none => rfl
  | some a => exact @BEq.rfl Identifier _ _ _

/-- What a map of values that settle says of another map it says of all that it takes for it. -/
theorem AttributeMap.settles_of_values {map : AttributeMap Expression} (hMap : map.keys.Nodup)
    (h : ∀ a ∈ map.entries, Settles Expression.MadeMaps Expression.same a.value) :
    Settles AttributeMap.MadeMaps AttributeMap.same map := by
  rintro ⟨others⟩ hSame hOther
  obtain ⟨hKeys, hValues⟩ := (AttributeMap.same_iff hMap hOther.1.nodup_keys).1 hSame
  have hSize := (AttributeMap.same_iff_attributesIn.1 hSame).1
  have hValue {a b : Attribute Expression} (ha : a ∈ map.entries) (hb : b ∈ others)
      (hNames : Text.fold a.name.name = Text.fold b.name.name) : a.value.same = b.value.same :=
    h a ha (hValues a ha b hb hNames) (madeEach_iff.1 hOther.2 b hb)
  funext third
  rw [Bool.eq_iff_iff, same_iff_attributesIn, same_iff_attributesIn, hSize, attributesIn_iff,
    attributesIn_iff]
  refine and_congr_right fun _ => ⟨fun hIn b hb => ?_, fun hIn a ha => ?_⟩
  · obtain ⟨a, ha, hNames⟩ := List.mem_map.1 ((hKeys _).2 (List.mem_map_of_mem hb))
    obtain ⟨value, hGet, hOf⟩ := hIn a ha
    exact ⟨value, (get?_congr hNames.symm).trans hGet, hValue ha hb hNames ▸ hOf⟩
  · obtain ⟨b, hb, hNames⟩ := List.mem_map.1 ((hKeys _).1 (List.mem_map_of_mem ha))
    obtain ⟨value, hGet, hOf⟩ := hIn b hb
    exact ⟨value, (get?_congr hNames.symm).trans hGet, hValue ha hb hNames.symm ▸ hOf⟩

theorem Property.settles_of_attributes {p : Property Expression}
    (h : Settles AttributeMap.MadeMaps AttributeMap.same p.attributes) :
    Settles madeProperty Property.same p := by
  rintro ⟨form, attributes⟩ hSame hOther
  obtain ⟨hShort, hName, hType, hAttributes⟩ := (Property.same_iff _ _).1 hSame
  funext third
  rw [Bool.eq_iff_iff, Property.same_iff, Property.same_iff, hShort, sameName?_settles hName,
    sameName?_settles hType, h hAttributes hOther]

mutual

theorem Expression.settles : (e : Expression) → e.MadeMaps → Settles Expression.MadeMaps Expression.same e
  | .identifier id _, _ => fun {_} hSame _ => by
    simp only [Expression.same] at hSame
    split at hSame
    · funext c
      simp only [Expression.same, Identifier.beq_congr hSame]
    · cases hSame
  | .string text quote _, _ => fun {_} hSame _ => by
    simp only [Expression.same] at hSame
    split at hSame <;> simp only [Bool.and_eq_true, beq_iff_eq, Bool.false_eq_true] at hSame
    obtain ⟨rfl, rfl⟩ := hSame
    funext c
    simp only [Expression.same]
  | .number text _, _ => fun {_} hSame _ => by
    simp only [Expression.same] at hSame
    split at hSame <;> simp only [beq_iff_eq, Bool.false_eq_true] at hSame
    obtain rfl := hSame
    funext c
    simp only [Expression.same]
  | .boolean value _, _ => fun {_} hSame _ => by
    simp only [Expression.same] at hSame
    split at hSame <;> simp only [beq_iff_eq, Bool.false_eq_true] at hSame
    obtain rfl := hSame
    funext c
    simp only [Expression.same]
  | .null _, _ => fun {_} hSame _ => by
    simp only [Expression.same] at hSame
    split at hSame
    · funext c
      simp only [Expression.same]
    · cases hSame
  | .binary op left right _, h => fun {_} hSame hOther => by
    simp only [Expression.same] at hSame
    split at hSame <;> simp only [Bool.and_eq_true, beq_iff_eq, Bool.false_eq_true] at hSame
    obtain ⟨⟨rfl, hLeft⟩, hRight⟩ := hSame
    funext c
    simp only [Expression.same, left.settles h.1 hLeft hOther.1, right.settles h.2 hRight hOther.2]
  | .unary op operand _, h => fun {_} hSame hOther => by
    simp only [Expression.same] at hSame
    split at hSame <;> simp only [Bool.and_eq_true, beq_iff_eq, Bool.false_eq_true] at hSame
    obtain ⟨rfl, hOperand⟩ := hSame
    funext c
    simp only [Expression.same, operand.settles h hOperand hOther]
  | .postfixOp op operand _, h => fun {_} hSame hOther => by
    simp only [Expression.same] at hSame
    split at hSame <;> simp only [Bool.and_eq_true, beq_iff_eq, Bool.false_eq_true] at hSame
    obtain ⟨rfl, hOperand⟩ := hSame
    funext c
    simp only [Expression.same, operand.settles h hOperand hOther]
  | .assignment op target value _, h => fun {_} hSame hOther => by
    simp only [Expression.same] at hSame
    split at hSame <;> simp only [Bool.and_eq_true, beq_iff_eq, Bool.false_eq_true] at hSame
    obtain ⟨⟨rfl, hTarget⟩, hValue⟩ := hSame
    funext c
    simp only [Expression.same, target.settles h.1 hTarget hOther.1,
      value.settles h.2 hValue hOther.2]
  | .ternary condition thenValue elseValue _, h => fun {_} hSame hOther => by
    simp only [Expression.same] at hSame
    split at hSame <;> simp only [Bool.and_eq_true, Bool.false_eq_true] at hSame
    obtain ⟨⟨hCondition, hThenValue⟩, hElseValue⟩ := hSame
    funext c
    simp only [Expression.same, condition.settles h.1 hCondition hOther.1,
      thenValue.settles h.2.1 hThenValue hOther.2.1, elseValue.settles h.2.2 hElseValue hOther.2.2]
  | .elvis value default _, h => fun {_} hSame hOther => by
    simp only [Expression.same] at hSame
    split at hSame <;> simp only [Bool.and_eq_true, Bool.false_eq_true] at hSame
    obtain ⟨hValue, hDefault⟩ := hSame
    funext c
    simp only [Expression.same, value.settles h.1 hValue hOther.1,
      default.settles h.2 hDefault hOther.2]
  | .paren inner _, h => fun {_} hSame hOther => by
    simp only [Expression.same] at hSame
    split at hSame
    · funext c
      simp only [Expression.same, inner.settles h hSame hOther]
    · cases hSame
  | .call callee args _, h => fun {_} hSame hOther => by
    simp only [Expression.same] at hSame
    split at hSame <;> simp only [Bool.and_eq_true, Bool.false_eq_true] at hSame
    obtain ⟨hCallee, hArgs⟩ := hSame
    funext c
    simp only [Expression.same, callee.settles h.1 hCallee hOther.1,
      arguments_settle args h.2 hArgs hOther.2]
  | .member object property safe _, h => fun {_} hSame hOther => by
    simp only [Expression.same] at hSame
    split at hSame <;> simp only [Bool.and_eq_true, beq_iff_eq, Bool.false_eq_true] at hSame
    obtain ⟨⟨hObject, hProperty⟩, rfl⟩ := hSame
    funext c
    simp only [Expression.same, object.settles h hObject hOther, Identifier.beq_congr hProperty]
  | .index object index _, h => fun {_} hSame hOther => by
    simp only [Expression.same] at hSame
    split at hSame <;> simp only [Bool.and_eq_true, Bool.false_eq_true] at hSame
    obtain ⟨hObject, hIndex⟩ := hSame
    funext c
    simp only [Expression.same, object.settles h.1 hObject hOther.1,
      index.settles h.2 hIndex hOther.2]
  | .array items _, h => fun {_} hSame hOther => by
    simp only [Expression.same] at hSame
    split at hSame
    · funext c
      simp only [Expression.same, expressions_settle items h hSame hOther]
    · cases hSame
  | .struct entries _, h => fun {_} hSame hOther => by
    simp only [Expression.same] at hSame
    split at hSame
    · funext c
      simp only [Expression.same, entries_settle entries h hSame hOther]
    · cases hSame
  | .new className args _, h => fun {_} hSame hOther => by
    simp only [Expression.same] at hSame
    split at hSame <;> simp only [Bool.and_eq_true, beq_iff_eq, Bool.false_eq_true] at hSame
    obtain ⟨rfl, hArgs⟩ := hSame
    funext c
    simp only [Expression.same, arguments_settle args h hArgs hOther]
  | .function arrow params body _, h => fun {_} hSame hOther => by
    simp only [Expression.same] at hSame
    split at hSame <;> simp only [Bool.and_eq_true, beq_iff_eq, Bool.false_eq_true] at hSame
    obtain ⟨⟨rfl, hParams⟩, hBody⟩ := hSame
    funext c
    simp only [Expression.same, parameters_settle params h.1 hParams hOther.1,
      statements_settle body h.2 hBody hOther.2]
  | .lambda arrow params value _, h => fun {_} hSame hOther => by
    simp only [Expression.same] at hSame
    split at hSame <;> simp only [Bool.and_eq_true, beq_iff_eq, Bool.false_eq_true] at hSame
    obtain ⟨⟨rfl, hParams⟩, hValue⟩ := hSame
    funext c
    simp only [Expression.same, parameters_settle params h.1 hParams hOther.1,
      value.settles h.2 hValue hOther.2]

theorem expressions_settle : (es : List Expression) → madeExpressions es →
    Settles madeExpressions sameExpressions es
  | [], _ => fun others hSame _ => by
    cases others with
    | nil => rfl
    | cons => cases hSame
  | e :: es, h => fun _ hSame hOther => by
    simp only [sameExpressions] at hSame
    split at hSame <;> simp only [Bool.and_eq_true, Bool.false_eq_true] at hSame
    funext c
    simp only [sameExpressions, e.settles h.1 hSame.1 hOther.1,
      expressions_settle es h.2 hSame.2 hOther.2]

theorem expression?_settles : (e? : Option Expression) → madeExpression? e? →
    Settles madeExpression? sameExpression? e?
  | none, _ => fun other hSame _ => by
    cases other with
    | none => rfl
    | some => cases hSame
  | some e, h => fun _ hSame hOther => by
    simp only [sameExpression?] at hSame
    split at hSame
    · cases hSame
    · funext c
      simp only [sameExpression?, e.settles h hSame hOther]

theorem arguments_settle : (args : List (Argument Expression)) → madeArguments args →
    Settles madeArguments sameArguments args
  | [], _ => fun others hSame _ => by
    cases others with
    | nil => rfl
    | cons => cases hSame
  | ⟨name?, value⟩ :: args, h => fun _ hSame hOther => by
    simp only [sameArguments] at hSame
    split at hSame <;> simp only [Bool.and_eq_true, Bool.false_eq_true] at hSame
    obtain ⟨⟨hName, hValue⟩, hArgs⟩ := hSame
    funext c
    simp only [sameArguments, sameName?_settles hName, value.settles h.1 hValue hOther.1,
      arguments_settle args h.2 hArgs hOther.2]

theorem entries_settle : (entries : List (StructEntry Expression)) → madeEntries entries →
    Settles madeEntries sameEntries entries
  | [], _ => fun others hSame _ => by
    cases others with
    | nil => rfl
    | cons => cases hSame
  | ⟨key, separator, value⟩ :: entries, h => fun _ hSame hOther => by
    simp only [sameEntries] at hSame
    split at hSame <;> simp only [Bool.and_eq_true, beq_iff_eq, Bool.false_eq_true] at hSame
    obtain ⟨⟨⟨hKey, rfl⟩, hValue⟩, hEntries⟩ := hSame
    funext c
    simp only [sameEntries, key.settles h.1 hKey hOther.1,
      value.settles h.2.1 hValue hOther.2.1, entries_settle entries h.2.2 hEntries hOther.2.2]

theorem values_settle : (as : List (Attribute Expression)) → madeEach as →
    ∀ a ∈ as, Settles Expression.MadeMaps Expression.same a.value
  | [], _ => by simp
  | ⟨_, value⟩ :: rest, h =>
    List.forall_mem_cons.2 ⟨value.settles h.1, values_settle rest h.2⟩

theorem AttributeMap.settles : (map : AttributeMap Expression) → map.MadeMaps →
    Settles AttributeMap.MadeMaps AttributeMap.same map
  | ⟨entries⟩, h => AttributeMap.settles_of_values h.1.nodup_keys (values_settle entries h.2)

theorem parameters_settle : (params : List (Parameter Expression)) → madeParameters params →
    Settles madeParameters sameParameters params
  | [], _ => fun others hSame _ => by
    cases others with
    | nil => rfl
    | cons => cases hSame
  | ⟨required, type?, name, default?, attributes⟩ :: params, h => fun _ hSame hOther => by
    simp only [sameParameters] at hSame
    split at hSame <;> simp only [Bool.and_eq_true, beq_iff_eq, Bool.false_eq_true] at hSame
    obtain ⟨⟨⟨⟨⟨rfl, hType⟩, hName⟩, hDefault⟩, hAttributes⟩, hParams⟩ := hSame
    funext c
    simp only [sameParameters, sameName?_settles hType, Identifier.beq_congr hName,
      expression?_settles default? h.1 hDefault hOther.1,
      attributes.settles h.2.1 hAttributes hOther.2.1,
      parameters_settle params h.2.2 hParams hOther.2.2]

theorem property_settles : (p : Property Expression) → madeProperty p →
    Settles madeProperty Property.same p
  | ⟨_, attributes⟩, h => Property.settles_of_attributes (attributes.settles h)

theorem Statement.settles : (s : Statement) → s.MadeMaps → Settles Statement.MadeMaps Statement.same s
  | .script body _, h => fun {_} hSame hOther => by
    simp only [Statement.same] at hSame
    split at hSame
    · funext c
      simp only [Statement.same, statements_settle body h hSame hOther]
    · cases hSame
  | .block body _, h => fun {_} hSame hOther => by
    simp only [Statement.same] at hSame
    split at hSame
    · funext c
      simp only [Statement.same, statements_settle body h hSame hOther]
    · cases hSame
  | .expression value _, h => fun {_} hSame hOther => by
    simp only [Statement.same] at hSame
    split at hSame
    · funext c
      simp only [Statement.same, value.settles h hSame hOther]
    · cases hSame
  | .declare name value? _, h => fun {_} hSame hOther => by
    simp only [Statement.same] at hSame
    split at hSame <;> simp only [Bool.and_eq_true, Bool.false_eq_true] at hSame
    obtain ⟨hName, hValue⟩ := hSame
    funext c
    simp only [Statement.same, Identifier.beq_congr hName,
      expression?_settles value? h hValue hOther]
  | .branch condition thenBranch elseBranch? _, h => fun {_} hSame hOther => by
    simp only [Statement.same] at hSame
    split at hSame <;> simp only [Bool.and_eq_true, Bool.false_eq_true] at hSame
    obtain ⟨⟨hCondition, hThenBranch⟩, hElseBranch⟩ := hSame
    funext c
    simp only [Statement.same, condition.settles h.1 hCondition hOther.1,
      thenBranch.settles h.2.1 hThenBranch hOther.2.1,
      statement?_settles elseBranch? h.2.2 hElseBranch hOther.2.2]
  | .whileLoop condition body _, h => fun {_} hSame hOther => by
    simp only [Statement.same] at hSame
    split at hSame <;> simp only [Bool.and_eq_true, Bool.false_eq_true] at hSame
    obtain ⟨hCondition, hBody⟩ := hSame
    funext c
    simp only [Statement.same, condition.settles h.1 hCondition hOther.1,
      body.settles h.2 hBody hOther.2]
  | .doLoop body condition _, h => fun {_} hSame hOther => by
    simp only [Statement.same] at hSame
    split at hSame <;> simp only [Bool.and_eq_true, Bool.false_eq_true] at hSame
    obtain ⟨hBody, hCondition⟩ := hSame
    funext c
    simp only [Statement.same, body.settles h.1 hBody hOther.1,
      condition.settles h.2 hCondition hOther.2]
  | .forLoop init? condition? update? body _, h => fun {_} hSame hOther => by
    simp only [Statement.same] at hSame
    split at hSame <;> simp only [Bool.and_eq_true, Bool.false_eq_true] at hSame
    obtain ⟨⟨⟨hInit, hCondition⟩, hUpdate⟩, hBody⟩ := hSame
    funext c
    simp only [Statement.same, statement?_settles init? h.1 hInit hOther.1,
      expression?_settles condition? h.2.1 hCondition hOther.2.1,
      expression?_settles update? h.2.2.1 hUpdate hOther.2.2.1,
      body.settles h.2.2.2 hBody hOther.2.2.2]
  | .eachLoop var target collection body _, h => fun {_} hSame hOther => by
    simp only [Statement.same] at hSame
    split at hSame <;> simp only [Bool.and_eq_true, beq_iff_eq, Bool.false_eq_true] at hSame
    obtain ⟨⟨⟨rfl, hTarget⟩, hCollection⟩, hBody⟩ := hSame
    funext c
    simp only [Statement.same, target.settles h.1 hTarget hOther.1,
      collection.settles h.2.1 hCollection hOther.2.1, body.settles h.2.2 hBody hOther.2.2]
  | .select subject cases default? _, h => fun {_} hSame hOther => by
    simp only [Statement.same] at hSame
    split at hSame <;> simp only [Bool.and_eq_true, Bool.false_eq_true] at hSame
    obtain ⟨⟨hSubject, hCases⟩, hDefault⟩ := hSame
    funext c
    simp only [Statement.same, subject.settles h.1 hSubject hOther.1,
      cases_settle cases h.2.1 hCases hOther.2.1, body?_settles default? h.2.2 hDefault hOther.2.2]
  | .breakLoop _, _ => fun {_} hSame _ => by
    simp only [Statement.same] at hSame
    split at hSame
    · funext c
      simp only [Statement.same]
    · cases hSame
  | .continueLoop _, _ => fun {_} hSame _ => by
    simp only [Statement.same] at hSame
    split at hSame
    · funext c
      simp only [Statement.same]
    · cases hSame
  | .returnValue value? _, h => fun {_} hSame hOther => by
    simp only [Statement.same] at hSame
    split at hSame
    · funext c
      simp only [Statement.same, expression?_settles value? h hSame hOther]
    · cases hSame
  | .throwValue value? _, h => fun {_} hSame hOther => by
    simp only [Statement.same] at hSame
    split at hSame
    · funext c
      simp only [Statement.same, expression?_settles value? h hSame hOther]
    · cases hSame
  | .abort value? _, h => fun {_} hSame hOther => by
    simp only [Statement.same] at hSame
    split at hSame
    · funext c
      simp only [Statement.same, expression?_settles value? h hSame hOther]
    · cases hSame
  | .includeFile value _, h => fun {_} hSame hOther => by
    simp only [Statement.same] at hSame
    split at hSame
    · funext c
      simp only [Statement.same, value.settles h hSame hOther]
    · cases hSame
  | .importPath path _, _ => fun {_} hSame _ => by
    simp only [Statement.same] at hSame
    split at hSame <;> simp only [beq_iff_eq, Bool.false_eq_true] at hSame
    obtain rfl := hSame
    funext c
    simp only [Statement.same]
  | .tryCatch body catches finally? _, h => fun {_} hSame hOther => by
    simp only [Statement.same] at hSame
    split at hSame <;> simp only [Bool.and_eq_true, Bool.false_eq_true] at hSame
    obtain ⟨⟨hBody, hCatches⟩, hFinally⟩ := hSame
    funext c
    simp only [Statement.same, statements_settle body h.1 hBody hOther.1,
      catches_settle catches h.2.1 hCatches hOther.2.1,
      body?_settles finally? h.2.2 hFinally hOther.2.2]
  | .function modifiers returnType? name params attributes body? _, h => fun {_} hSame hOther => by
    simp only [Statement.same] at hSame
    split at hSame <;> simp only [Bool.and_eq_true, Bool.false_eq_true] at hSame
    obtain ⟨⟨⟨⟨⟨hModifiers, hReturnType⟩, hName⟩, hParams⟩, hAttributes⟩, hBody⟩ := hSame
    funext c
    simp only [Statement.same, Identifier.beqList_congr hModifiers, sameName?_settles hReturnType,
      Identifier.beq_congr hName, parameters_settle params h.1 hParams hOther.1,
      attributes.settles h.2.1 hAttributes hOther.2.1, body?_settles body? h.2.2 hBody hOther.2.2]
  | .component kind attributes body _, h => fun {_} hSame hOther => by
    simp only [Statement.same] at hSame
    split at hSame <;> simp only [Bool.and_eq_true, beq_iff_eq, Bool.false_eq_true] at hSame
    obtain ⟨⟨rfl, hAttributes⟩, hBody⟩ := hSame
    funext c
    simp only [Statement.same, attributes.settles h.1 hAttributes hOther.1,
      statements_settle body h.2 hBody hOther.2]
  | .property declaration _, h => fun {_} hSame hOther => by
    simp only [Statement.same] at hSame
    split at hSame
    · funext c
      simp only [Statement.same, property_settles declaration h hSame hOther]
    · cases hSame
  | .tag kind attributes body? _, h => fun {_} hSame hOther => by
    simp only [Statement.same] at hSame
    split at hSame <;> simp only [Bool.and_eq_true, beq_iff_eq, Bool.false_eq_true] at hSame
    obtain ⟨⟨rfl, hAttributes⟩, hBody⟩ := hSame
    funext c
    simp only [Statement.same, attributes.settles h.1 hAttributes hOther.1,
      body?_settles body? h.2 hBody hOther.2]

theorem statements_settle : (ss : List Statement) → madeStatements ss →
    Settles madeStatements sameStatements ss
  | [], _ => fun others hSame _ => by
    cases others with
    | nil => rfl
    | cons => cases hSame
  | s :: ss, h => fun _ hSame hOther => by
    simp only [sameStatements] at hSame
    split at hSame <;> simp only [Bool.and_eq_true, Bool.false_eq_true] at hSame
    funext c
    simp only [sameStatements, s.settles h.1 hSame.1 hOther.1,
      statements_settle ss h.2 hSame.2 hOther.2]

theorem statement?_settles : (s? : Option Statement) → madeStatement? s? →
    Settles madeStatement? sameStatement? s?
  | none, _ => fun other hSame _ => by
    cases other with
    | none => rfl
    | some => cases hSame
  | some s, h => fun _ hSame hOther => by
    simp only [sameStatement?] at hSame
    split at hSame
    · cases hSame
    · funext c
      simp only [sameStatement?, s.settles h hSame hOther]

theorem body?_settles : (body? : Option (List Statement)) → madeBody? body? →
    Settles madeBody? sameBody? body?
  | none, _ => fun other hSame _ => by
    cases other with
    | none => rfl
    | some => cases hSame
  | some body, h => fun _ hSame hOther => by
    simp only [sameBody?] at hSame
    split at hSame
    · cases hSame
    · funext c
      simp only [sameBody?, statements_settle body h hSame hOther]

theorem cases_settle : (cases : List (SwitchCase Expression Statement)) → madeCases cases →
    Settles madeCases sameCases cases
  | [], _ => fun others hSame _ => by
    cases others with
    | nil => rfl
    | cons => cases hSame
  | ⟨value, body⟩ :: cases, h => fun _ hSame hOther => by
    simp only [sameCases] at hSame
    split at hSame <;> simp only [Bool.and_eq_true, Bool.false_eq_true] at hSame
    obtain ⟨⟨hValue, hBody⟩, hCases⟩ := hSame
    funext c
    simp only [sameCases, value.settles h.1 hValue hOther.1,
      statements_settle body h.2.1 hBody hOther.2.1, cases_settle cases h.2.2 hCases hOther.2.2]

theorem catches_settle : (catches : List (CatchClause Statement)) → madeCatches catches →
    Settles madeCatches sameCatches catches
  | [], _ => fun others hSame _ => by
    cases others with
    | nil => rfl
    | cons => cases hSame
  | ⟨type?, name, body⟩ :: catches, h => fun _ hSame hOther => by
    simp only [sameCatches] at hSame
    split at hSame <;> simp only [Bool.and_eq_true, beq_iff_eq, Bool.false_eq_true] at hSame
    obtain ⟨⟨⟨rfl, hName⟩, hBody⟩, hCatches⟩ := hSame
    funext c
    simp only [sameCatches, Identifier.beq_congr hName, statements_settle body h.1 hBody hOther.1,
      catches_settle catches h.2 hCatches hOther.2]

end

/-! ## A tree is the same as itself -/

mutual

theorem Expression.same_self : (e : Expression) → e.MadeMaps → e.same e = true
  | .identifier _ _, _ => by
    simp only [Expression.same, beq_self_eq_true]
  | .string _ _ _, _ => by
    simp only [Expression.same, beq_self_eq_true, Bool.and_self]
  | .number _ _, _ => by
    simp only [Expression.same, beq_self_eq_true]
  | .boolean _ _, _ => by
    simp only [Expression.same, beq_self_eq_true]
  | .null _, _ => by
    simp only [Expression.same]
  | .binary _ left right _, h => by
    simp only [Expression.same, beq_self_eq_true, left.same_self h.1, right.same_self h.2,
      Bool.and_self]
  | .unary _ operand _, h => by
    simp only [Expression.same, beq_self_eq_true, operand.same_self h, Bool.and_self]
  | .postfixOp _ operand _, h => by
    simp only [Expression.same, beq_self_eq_true, operand.same_self h, Bool.and_self]
  | .assignment _ target value _, h => by
    simp only [Expression.same, beq_self_eq_true, target.same_self h.1, value.same_self h.2,
      Bool.and_self]
  | .ternary condition thenValue elseValue _, h => by
    simp only [Expression.same, condition.same_self h.1, thenValue.same_self h.2.1,
      elseValue.same_self h.2.2, Bool.and_self]
  | .elvis value default _, h => by
    simp only [Expression.same, value.same_self h.1, default.same_self h.2, Bool.and_self]
  | .paren inner _, h => by
    simp only [Expression.same, inner.same_self h]
  | .call callee args _, h => by
    simp only [Expression.same, callee.same_self h.1, sameArguments_self args h.2, Bool.and_self]
  | .member object _ _ _, h => by
    simp only [Expression.same, beq_self_eq_true, object.same_self h, Bool.and_self]
  | .index object index _, h => by
    simp only [Expression.same, object.same_self h.1, index.same_self h.2, Bool.and_self]
  | .array items _, h => by
    simp only [Expression.same, sameExpressions_self items h]
  | .struct entries _, h => by
    simp only [Expression.same, sameEntries_self entries h]
  | .new _ args _, h => by
    simp only [Expression.same, beq_self_eq_true, sameArguments_self args h, Bool.and_self]
  | .function _ params body _, h => by
    simp only [Expression.same, beq_self_eq_true, sameParameters_self params h.1,
      sameStatements_self body h.2, Bool.and_self]
  | .lambda _ params value _, h => by
    simp only [Expression.same, beq_self_eq_true, sameParameters_self params h.1,
      value.same_self h.2, Bool.and_self]

theorem sameExpressions_self : (es : List Expression) → madeExpressions es →
    sameExpressions es es = true
  | [], _ => rfl
  | e :: es, h => by
    simp only [sameExpressions, e.same_self h.1, sameExpressions_self es h.2, Bool.and_self]

theorem sameExpression?_self : (e? : Option Expression) → madeExpression? e? →
    sameExpression? e? e? = true
  | none, _ => rfl
  | some e, h => e.same_self h

theorem sameArguments_self : (args : List (Argument Expression)) → madeArguments args →
    sameArguments args args = true
  | [], _ => rfl
  | ⟨_, value⟩ :: args, h => by
    simp only [sameArguments, sameName?_self, value.same_self h.1, sameArguments_self args h.2,
      Bool.and_self]

theorem sameEntries_self : (entries : List (StructEntry Expression)) → madeEntries entries →
    sameEntries entries entries = true
  | [], _ => rfl
  | ⟨key, _, value⟩ :: entries, h => by
    simp only [sameEntries, beq_self_eq_true, key.same_self h.1, value.same_self h.2.1,
      sameEntries_self entries h.2.2, Bool.and_self]

theorem values_same_self : (as : List (Attribute Expression)) → madeEach as →
    ∀ a ∈ as, a.value.same a.value = true
  | [], _ => by simp
  | ⟨_, value⟩ :: rest, h => List.forall_mem_cons.2 ⟨value.same_self h.1, values_same_self rest h.2⟩

theorem AttributeMap.same_self : (map : AttributeMap Expression) → map.MadeMaps →
    map.same map = true
  | ⟨entries⟩, h => AttributeMap.same_of_values h.1.nodup_keys (values_same_self entries h.2)

theorem sameParameters_self : (params : List (Parameter Expression)) → madeParameters params →
    sameParameters params params = true
  | [], _ => rfl
  | ⟨_, _, _, default?, attributes⟩ :: params, h => by
    simp only [sameParameters, beq_self_eq_true, sameName?_self, sameExpression?_self default? h.1,
      attributes.same_self h.2.1, sameParameters_self params h.2.2, Bool.and_self]

theorem Property.same_self : (p : Property Expression) → madeProperty p → p.same p = true
  | ⟨_, attributes⟩, h => (Property.same_iff _ _).2
    ⟨rfl, sameName?_self _, sameName?_self _, attributes.same_self h⟩

theorem Statement.same_self : (s : Statement) → s.MadeMaps → s.same s = true
  | .script body _, h => by
    simp only [Statement.same, sameStatements_self body h]
  | .block body _, h => by
    simp only [Statement.same, sameStatements_self body h]
  | .expression value _, h => by
    simp only [Statement.same, value.same_self h]
  | .declare _ value? _, h => by
    simp only [Statement.same, beq_self_eq_true, sameExpression?_self value? h, Bool.and_self]
  | .branch condition thenBranch elseBranch? _, h => by
    simp only [Statement.same, condition.same_self h.1, thenBranch.same_self h.2.1,
      sameStatement?_self elseBranch? h.2.2, Bool.and_self]
  | .whileLoop condition body _, h => by
    simp only [Statement.same, condition.same_self h.1, body.same_self h.2, Bool.and_self]
  | .doLoop body condition _, h => by
    simp only [Statement.same, body.same_self h.1, condition.same_self h.2, Bool.and_self]
  | .forLoop init? condition? update? body _, h => by
    simp only [Statement.same, sameStatement?_self init? h.1, sameExpression?_self condition? h.2.1,
      sameExpression?_self update? h.2.2.1, body.same_self h.2.2.2, Bool.and_self]
  | .eachLoop _ target collection body _, h => by
    simp only [Statement.same, beq_self_eq_true, target.same_self h.1, collection.same_self h.2.1,
      body.same_self h.2.2, Bool.and_self]
  | .select subject cases default? _, h => by
    simp only [Statement.same, subject.same_self h.1, sameCases_self cases h.2.1,
      sameBody?_self default? h.2.2, Bool.and_self]
  | .breakLoop _, _ => by
    simp only [Statement.same]
  | .continueLoop _, _ => by
    simp only [Statement.same]
  | .returnValue value? _, h => by
    simp only [Statement.same, sameExpression?_self value? h]
  | .throwValue value? _, h => by
    simp only [Statement.same, sameExpression?_self value? h]
  | .abort value? _, h => by
    simp only [Statement.same, sameExpression?_self value? h]
  | .includeFile value _, h => by
    simp only [Statement.same, value.same_self h]
  | .importPath _ _, _ => by
    simp only [Statement.same, beq_self_eq_true]
  | .tryCatch body catches finally? _, h => by
    simp only [Statement.same, sameStatements_self body h.1, sameCatches_self catches h.2.1,
      sameBody?_self finally? h.2.2, Bool.and_self]
  | .function _ _ _ params attributes body? _, h => by
    simp only [Statement.same, beq_self_eq_true, sameName?_self, sameParameters_self params h.1,
      attributes.same_self h.2.1, sameBody?_self body? h.2.2, Bool.and_self]
  | .component _ attributes body _, h => by
    simp only [Statement.same, beq_self_eq_true, attributes.same_self h.1,
      sameStatements_self body h.2, Bool.and_self]
  | .property declaration _, h => by
    simp only [Statement.same, Property.same_self declaration h]
  | .tag _ attributes body? _, h => by
    simp only [Statement.same, beq_self_eq_true, attributes.same_self h.1, sameBody?_self body? h.2,
      Bool.and_self]

theorem sameStatements_self : (ss : List Statement) → madeStatements ss →
    sameStatements ss ss = true
  | [], _ => rfl
  | s :: ss, h => by
    simp only [sameStatements, s.same_self h.1, sameStatements_self ss h.2, Bool.and_self]

theorem sameStatement?_self : (s? : Option Statement) → madeStatement? s? →
    sameStatement? s? s? = true
  | none, _ => rfl
  | some s, h => s.same_self h

theorem sameBody?_self : (body? : Option (List Statement)) → madeBody? body? →
    sameBody? body? body? = true
  | none, _ => rfl
  | some body, h => sameStatements_self body h

theorem sameCases_self : (cases : List (SwitchCase Expression Statement)) → madeCases cases →
    sameCases cases cases = true
  | [], _ => rfl
  | ⟨value, body⟩ :: cases, h => by
    simp only [sameCases, value.same_self h.1, sameStatements_self body h.2.1,
      sameCases_self cases h.2.2, Bool.and_self]

theorem sameCatches_self : (catches : List (CatchClause Statement)) → madeCatches catches →
    sameCatches catches catches = true
  | [], _ => rfl
  | ⟨_, _, body⟩ :: catches, h => by
    simp only [sameCatches, beq_self_eq_true, sameStatements_self body h.1,
      sameCatches_self catches h.2, Bool.and_self]

end

/-! ## Places play no part -/

theorem Identifier.beq_unplaced (a b : Identifier) : (a.unplaced == b) = (a == b) := rfl

theorem Identifier.beqList_unplaced (as bs : List Identifier) :
    (as.map (·.unplaced) == bs) = (as == bs) := by
  rw [Bool.eq_iff_iff, beqList_iff, beqList_iff, List.map_map]
  rfl

theorem sameName?_unplaced (a b : Option Identifier) :
    sameName? (a.map (·.unplaced)) b = sameName? a b := by
  cases a <;> cases b <;> rfl

theorem sameName?_some_unplaced (a : Identifier) (b : Option Identifier) :
    sameName? (some a.unplaced) b = sameName? (some a) b := sameName?_unplaced (some a) b

mutual

theorem Expression.same_unplaced : (e : Expression) → e.unplaced.same = e.same
  | .identifier _ _ => by
    funext other
    simp only [Expression.unplaced, Expression.same, Identifier.beq_unplaced]
  | .string _ _ _ => by
    funext other
    simp only [Expression.unplaced, Expression.same]
  | .number _ _ => by
    funext other
    simp only [Expression.unplaced, Expression.same]
  | .boolean _ _ => by
    funext other
    simp only [Expression.unplaced, Expression.same]
  | .null _ => by
    funext other
    simp only [Expression.unplaced, Expression.same]
  | .binary _ left right _ => by
    funext other
    simp only [Expression.unplaced, Expression.same, left.same_unplaced, right.same_unplaced]
  | .unary _ operand _ => by
    funext other
    simp only [Expression.unplaced, Expression.same, operand.same_unplaced]
  | .postfixOp _ operand _ => by
    funext other
    simp only [Expression.unplaced, Expression.same, operand.same_unplaced]
  | .assignment _ target value _ => by
    funext other
    simp only [Expression.unplaced, Expression.same, target.same_unplaced, value.same_unplaced]
  | .ternary condition thenValue elseValue _ => by
    funext other
    simp only [Expression.unplaced, Expression.same, condition.same_unplaced,
      thenValue.same_unplaced, elseValue.same_unplaced]
  | .elvis value default _ => by
    funext other
    simp only [Expression.unplaced, Expression.same, value.same_unplaced, default.same_unplaced]
  | .paren inner _ => by
    funext other
    simp only [Expression.unplaced, Expression.same, inner.same_unplaced]
  | .call callee args _ => by
    funext other
    simp only [Expression.unplaced, Expression.same, callee.same_unplaced,
      sameArguments_unplaced args]
  | .member object _ _ _ => by
    funext other
    simp only [Expression.unplaced, Expression.same, Identifier.beq_unplaced, object.same_unplaced]
  | .index object index _ => by
    funext other
    simp only [Expression.unplaced, Expression.same, object.same_unplaced, index.same_unplaced]
  | .array items _ => by
    funext other
    simp only [Expression.unplaced, Expression.same, sameExpressions_unplaced items]
  | .struct entries _ => by
    funext other
    simp only [Expression.unplaced, Expression.same, sameEntries_unplaced entries]
  | .new _ args _ => by
    funext other
    simp only [Expression.unplaced, Expression.same, sameArguments_unplaced args]
  | .function _ params body _ => by
    funext other
    simp only [Expression.unplaced, Expression.same, sameParameters_unplaced params,
      sameStatements_unplaced body]
  | .lambda _ params value _ => by
    funext other
    simp only [Expression.unplaced, Expression.same, sameParameters_unplaced params,
      value.same_unplaced]

theorem sameExpressions_unplaced : (es : List Expression) →
    sameExpressions (unplacedExpressions es) = sameExpressions es
  | [] => rfl
  | e :: es => by
    funext others
    simp only [unplacedExpressions, sameExpressions, e.same_unplaced, sameExpressions_unplaced es]

theorem sameExpression?_unplaced : (e? : Option Expression) →
    sameExpression? (unplacedExpression? e?) = sameExpression? e?
  | none => rfl
  | some e => by
    funext other
    simp only [unplacedExpression?, sameExpression?, e.same_unplaced]

theorem sameArguments_unplaced : (args : List (Argument Expression)) →
    sameArguments (unplacedArguments args) = sameArguments args
  | [] => rfl
  | ⟨_, value⟩ :: args => by
    funext others
    simp only [unplacedArguments, sameArguments, sameName?_unplaced, value.same_unplaced,
      sameArguments_unplaced args]

theorem sameEntries_unplaced : (entries : List (StructEntry Expression)) →
    sameEntries (unplacedEntries entries) = sameEntries entries
  | [] => rfl
  | ⟨key, _, value⟩ :: entries => by
    funext others
    simp only [unplacedEntries, sameEntries, key.same_unplaced, value.same_unplaced,
      sameEntries_unplaced entries]

theorem attributesIn_unplaced : (as : List (Attribute Expression)) →
    (unplacedEach as).length = as.length ∧ attributesIn (unplacedEach as) = attributesIn as
  | [] => ⟨rfl, rfl⟩
  | ⟨_, value⟩ :: rest => by
    have hRest := attributesIn_unplaced rest
    refine ⟨congrArg (· + 1) hRest.1, ?_⟩
    funext map
    simp only [unplacedEach, attributesIn, Identifier.unplaced, value.same_unplaced, hRest.2]

theorem same_unplacedAttributes : (map : AttributeMap Expression) →
    (unplacedAttributes map).same = map.same
  | ⟨entries⟩ => by
    funext other
    simp only [unplacedAttributes, AttributeMap.same, attributesIn_unplaced entries]

theorem sameParameters_unplaced : (params : List (Parameter Expression)) →
    sameParameters (unplacedParameters params) = sameParameters params
  | [] => rfl
  | ⟨_, _, _, default?, attributes⟩ :: params => by
    funext others
    simp only [unplacedParameters, sameParameters, sameName?_unplaced, Identifier.beq_unplaced,
      sameExpression?_unplaced default?, same_unplacedAttributes attributes,
      sameParameters_unplaced params]

theorem same_unplacedProperty : (p : Property Expression) → (unplacedProperty p).same = p.same
  | ⟨form, attributes⟩ => by
    funext other
    cases form <;>
      simp only [unplacedProperty, PropertyForm.unplaced, Property.same, Property.isShort,
        Property.name?, Property.type?, sameName?_unplaced, sameName?_some_unplaced,
        same_unplacedAttributes attributes]

theorem Statement.same_unplaced : (s : Statement) → s.unplaced.same = s.same
  | .script body _ => by
    funext other
    simp only [Statement.unplaced, Statement.same, sameStatements_unplaced body]
  | .block body _ => by
    funext other
    simp only [Statement.unplaced, Statement.same, sameStatements_unplaced body]
  | .expression value _ => by
    funext other
    simp only [Statement.unplaced, Statement.same, value.same_unplaced]
  | .declare _ value? _ => by
    funext other
    simp only [Statement.unplaced, Statement.same, Identifier.beq_unplaced,
      sameExpression?_unplaced value?]
  | .branch condition thenBranch elseBranch? _ => by
    funext other
    simp only [Statement.unplaced, Statement.same, condition.same_unplaced,
      thenBranch.same_unplaced, sameStatement?_unplaced elseBranch?]
  | .whileLoop condition body _ => by
    funext other
    simp only [Statement.unplaced, Statement.same, condition.same_unplaced, body.same_unplaced]
  | .doLoop body condition _ => by
    funext other
    simp only [Statement.unplaced, Statement.same, body.same_unplaced, condition.same_unplaced]
  | .forLoop init? condition? update? body _ => by
    funext other
    simp only [Statement.unplaced, Statement.same, sameStatement?_unplaced init?,
      sameExpression?_unplaced condition?, sameExpression?_unplaced update?, body.same_unplaced]
  | .eachLoop _ target collection body _ => by
    funext other
    simp only [Statement.unplaced, Statement.same, target.same_unplaced, collection.same_unplaced,
      body.same_unplaced]
  | .select subject cases default? _ => by
    funext other
    simp only [Statement.unplaced, Statement.same, subject.same_unplaced, sameCases_unplaced cases,
      sameBody?_unplaced default?]
  | .breakLoop _ => by
    funext other
    simp only [Statement.unplaced, Statement.same]
  | .continueLoop _ => by
    funext other
    simp only [Statement.unplaced, Statement.same]
  | .returnValue value? _ => by
    funext other
    simp only [Statement.unplaced, Statement.same, sameExpression?_unplaced value?]
  | .throwValue value? _ => by
    funext other
    simp only [Statement.unplaced, Statement.same, sameExpression?_unplaced value?]
  | .abort value? _ => by
    funext other
    simp only [Statement.unplaced, Statement.same, sameExpression?_unplaced value?]
  | .includeFile value _ => by
    funext other
    simp only [Statement.unplaced, Statement.same, value.same_unplaced]
  | .importPath _ _ => by
    funext other
    simp only [Statement.unplaced, Statement.same]
  | .tryCatch body catches finally? _ => by
    funext other
    simp only [Statement.unplaced, Statement.same, sameStatements_unplaced body,
      sameCatches_unplaced catches, sameBody?_unplaced finally?]
  | .function _ _ _ params attributes body? _ => by
    funext other
    simp only [Statement.unplaced, Statement.same, Identifier.beq_unplaced, Identifier.beqList_unplaced,
      sameName?_unplaced, sameParameters_unplaced params, same_unplacedAttributes attributes,
      sameBody?_unplaced body?]
  | .component _ attributes body _ => by
    funext other
    simp only [Statement.unplaced, Statement.same, same_unplacedAttributes attributes,
      sameStatements_unplaced body]
  | .property declaration _ => by
    funext other
    simp only [Statement.unplaced, Statement.same, same_unplacedProperty declaration]
  | .tag _ attributes body? _ => by
    funext other
    simp only [Statement.unplaced, Statement.same, same_unplacedAttributes attributes,
      sameBody?_unplaced body?]

theorem sameStatements_unplaced : (ss : List Statement) →
    sameStatements (unplacedStatements ss) = sameStatements ss
  | [] => rfl
  | s :: ss => by
    funext others
    simp only [unplacedStatements, sameStatements, s.same_unplaced, sameStatements_unplaced ss]

theorem sameStatement?_unplaced : (s? : Option Statement) →
    sameStatement? (unplacedStatement? s?) = sameStatement? s?
  | none => rfl
  | some s => by
    funext other
    simp only [unplacedStatement?, sameStatement?, s.same_unplaced]

theorem sameBody?_unplaced : (body? : Option (List Statement)) →
    sameBody? (unplacedBody? body?) = sameBody? body?
  | none => rfl
  | some body => by
    funext other
    simp only [unplacedBody?, sameBody?, sameStatements_unplaced body]

theorem sameCases_unplaced : (cases : List (SwitchCase Expression Statement)) →
    sameCases (unplacedCases cases) = sameCases cases
  | [] => rfl
  | ⟨value, body⟩ :: cases => by
    funext others
    simp only [unplacedCases, sameCases, value.same_unplaced, sameStatements_unplaced body,
      sameCases_unplaced cases]

theorem sameCatches_unplaced : (catches : List (CatchClause Statement)) →
    sameCatches (unplacedCatches catches) = sameCatches catches
  | [] => rfl
  | ⟨_, _, body⟩ :: catches => by
    funext others
    simp only [unplacedCatches, sameCatches, Identifier.beq_unplaced, sameStatements_unplaced body,
      sameCatches_unplaced catches]

end

/-! ## The equivalence -/

/-- Whether a comparison is an equivalence on the trees with `made` maps and does not see places. -/
structure Sameness {α : Type} (made : α → Prop) (same : α → α → Bool) (unplaced : α → α) : Prop where
  refl : ∀ a, made a → same a a = true
  symm : ∀ a b, made a → made b → same a b = true → same b a = true
  trans : ∀ a b c, made a → made b → made c → same a b = true → same b c = true → same a c = true
  places : ∀ a a' b b', made a → made a' → made b → made b' → unplaced a = unplaced a' →
    unplaced b = unplaced b' → same a b = same a' b'

/-- A comparison that settles what it compares is an equivalence. -/
theorem Sameness.of_settles {α : Type} {made : α → Prop} {same : α → α → Bool} {unplaced : α → α}
    (hSelf : ∀ a, made a → same a a = true) (hSettles : ∀ a, made a → Settles made same a)
    (hPlaces : ∀ a, same (unplaced a) = same a) : Sameness made same unplaced := by
  have hSymm (a b : α) (ha : made a) (hb : made b) (h : same a b = true) : same b a = true :=
    (hSettles a ha).symm (hSelf a ha) hb h
  refine ⟨hSelf, hSymm, fun a b c ha hb _ hab hbc => ?_, fun a a' b b' ha ha' hb hb' hA hB => ?_⟩
  · rwa [hSettles a ha hab hb]
  · have hLeft : same a = same a' := by rw [← hPlaces a, hA, hPlaces]
    have hRight : same b = same b' := by rw [← hPlaces b, hB, hPlaces]
    calc same a b = same a' b := congrFun hLeft b
      _ = same b a' := Bool.eq_iff_iff.2 ⟨hSymm a' b ha' hb, hSymm b a' hb ha'⟩
      _ = same b' a' := congrFun hRight a'
      _ = same a' b' := Bool.eq_iff_iff.2 ⟨hSymm b' a' hb' ha', hSymm a' b' ha' hb'⟩

theorem Expression.same_comm {e e' : Expression} (h : e.MadeMaps) (h' : e'.MadeMaps) :
    e.same e' = true ↔ e'.same e = true :=
  ⟨(e.settles h).symm (e.same_self h) h', (e'.settles h').symm (e'.same_self h') h⟩

/-- Of maps that the operations made, each name of the one is looked up in the other. It does not matter
on which side the value stands that is found. -/
theorem AttributeMap.same_iff_get? {map other : AttributeMap Expression} (hMap : map.MadeMaps)
    (hOther : other.MadeMaps) :
    map.same other = true ↔ map.size = other.size ∧ ∀ a ∈ map.entries, ∃ value,
      other.get? a.name.name = some value ∧ value.same a.value = true := by
  obtain ⟨entries⟩ := map
  obtain ⟨others⟩ := other
  rw [same_iff_attributesIn, attributesIn_iff]
  refine and_congr_right fun _ => forall₂_congr fun a ha => exists_congr fun value =>
    and_congr_right fun hGet => Expression.same_comm (madeEach_iff.1 hMap.2 a ha) ?_
  obtain ⟨b, hFind, rfl⟩ := Option.map_eq_some_iff.1 hGet
  exact madeEach_iff.1 hOther.2 b (List.mem_of_find?_eq_some hFind)

/-- On expressions, statements and attribute maps whose maps the operations made, being the same is
an equivalence that does not see places, and maps are the same if they give the same values to the
same names in small letters. -/
theorem same_equivalence :
    Sameness Expression.MadeMaps (· == ·) Expression.unplaced ∧
      Sameness Statement.MadeMaps (· == ·) Statement.unplaced ∧
      Sameness AttributeMap.MadeMaps (· == ·) unplacedAttributes ∧
      ∀ m n : AttributeMap Expression, m.Made → n.Made →
        ((m == n) = true ↔ (∀ key, key ∈ m.keys ↔ key ∈ n.keys) ∧
          ∀ a ∈ m.entries, ∀ b ∈ n.entries, Text.fold a.name.name = Text.fold b.name.name →
            (a.value == b.value) = true) :=
  ⟨.of_settles Expression.same_self Expression.settles Expression.same_unplaced,
    .of_settles Statement.same_self Statement.settles Statement.same_unplaced,
    .of_settles AttributeMap.same_self AttributeMap.settles same_unplacedAttributes,
    fun _ _ hm hn => AttributeMap.same_iff hm.nodup_keys hn.nodup_keys⟩

/-- The order of attributes and the letter case of their names play no part. -/
theorem same_equivalence_reordered :
    let one : Attribute Expression := ⟨⟨"a", .dummy⟩, .number "1" .dummy⟩
    let ONE : Attribute Expression := ⟨⟨"A", .point ⟨4, by decide⟩⟩, .number "1" .dummy⟩
    let two : Attribute Expression := ⟨⟨"b", .dummy⟩, .null .dummy⟩
    (AttributeMap.ofList [one, two]).Made ∧ (AttributeMap.ofList [two, ONE]).Made ∧
      (AttributeMap.ofList [one, two] == AttributeMap.ofList [two, ONE]) = true := by
  intro one ONE two
  have hLeft : (AttributeMap.ofList [one, two]).Made := AttributeMap.made_ofList _
  have hRight : (AttributeMap.ofList [two, ONE]).Made := AttributeMap.made_ofList _
  have hLeftKeys : (AttributeMap.ofList [one, two]).keys = ["a", "b"] := by decide
  have hRightKeys : (AttributeMap.ofList [two, ONE]).keys = ["b", "a"] := by decide
  refine ⟨hLeft, hRight, (same_equivalence.2.2.2 _ _ hLeft hRight).2 ⟨fun key => ?_, ?_⟩⟩
  · rw [hLeftKeys, hRightKeys]
    simp [or_comm]
  · decide

end CfScript
