import CfScript.Layout.Strength
import CfScript.Proofs.Reads

/-!
# Places for expressions

The grammar asks for an expression at places of different strength: a whole expression, an operand of
a binary operator, an operand that something is applied to. Tokens that hold together strongly enough
are read as one tree at a place, and reading goes on behind them.

How far a place reaches depends on the next token alone: `TokenKind.reach?` is the strength at which a
token goes on after an operand. So each kind of expression has to be looked at in its own place only,
and gets to all looser places by lemmas that do not ask what it is.

## Main results

* `CompleteAt.looser`: what is read at a place for operands is read at every looser one;
* `Holds.of_applied`, `Holds.of_unary`, `Holds.of_leadingNot`, `Holds.of_binary`, `Holds.of_loose`: each
  kind of expression at all places, from its own.
-/

namespace CfScript

open Token.Inner Production

/-! ## What goes on after an operand -/

/-- The tokens that apply something to the operand before them. -/
def Grammar.appliers : List TokenKind :=
  [.symbol .lParen, .symbol .dot, .symbol .safeDot, .symbol .lBracket, .symbol .plusPlus,
    .symbol .minusMinus]

/-- The strength of the places in which a token after an operand goes on with it. -/
def TokenKind.reach? (kind : TokenKind) : Option Nat :=
  if Grammar.appliers.contains kind then some Strength.suffixed
  else if Grammar.binaryLevels.any (·.contains kind) then
    some (Strength.loosestBinary + 2 * Grammar.binaryLevels.findIdx (·.contains kind))
  else if kind = .symbol .question ∨ kind = .symbol .elvis then some Strength.conditional
  else if kind.isAssignment then some Strength.assignment
  else none

/-- Whether an operand ends in front of the tokens, at a place of a strength. -/
def Stops (strength : Nat) (ts : List Token.Inner) : Prop :=
  ∀ reach ∈ (kindAt ts 0).reach?, reach < strength

variable {ps qs : List Tree} {ts us rest left : List Token.Inner} {T : Tree} {n m k : Nat}
  {tight : Bool}

theorem Stops.mono (h : Stops n ts) (hLe : n ≤ m) : Stops m ts :=
  fun reach hReach => Nat.lt_of_lt_of_le (h reach hReach) hLe

theorem Stops.of_reach? {t : Token.Inner} {r? : Option Nat} (hReach : t.1.kind.reach? = r?)
    (h : ∀ r ∈ r?, r < n) : Stops n (t :: ts) := fun r hr => h r (hReach ▸ hr)

theorem Stops.nil : Stops n [] := fun _ h => by cases h

/-- In front of a token that goes on with no operand, every operand ends. -/
theorem Stops.of_kind {t : Token.Inner} {kind : TokenKind} (h : t.1.kind = kind)
    (hReach : kind.reach? = none) : Stops n (t :: ts) :=
  .of_reach? ((congrArg _ h).trans hReach) fun r hr => by cases hr

theorem reach?_of_applier {kind : TokenKind} (h : kind ∈ Grammar.appliers) :
    kind.reach? = some Strength.suffixed := if_pos (List.contains_iff_mem.2 h)

theorem reach?_of_level (hk : k < 10) {kind : TokenKind}
    (h : kind ∈ Grammar.binaryLevels.getD k []) :
    kind.reach? = some (Strength.loosestBinary + 2 * k) := by
  have hAll : ∀ k < 10, ∀ kind ∈ Grammar.binaryLevels.getD k [],
      kind.reach? = some (Strength.loosestBinary + 2 * k) := by decide
  exact hAll k hk kind h

namespace Stops

theorem appliedTail (h : Stops Strength.suffixed ts) :
    Goal.appliedTail.production.Reads ps ts ps ts := by
  refine .look ?_
  have hApplier (hMem : kindAt ts 0 ∈ Grammar.appliers) : False :=
    Nat.lt_irrefl _ (h _ (reach?_of_applier hMem))
  dsimp only [window]
  split
  iterate 6 · next hHere => exact (hApplier (hHere ▸ by decide)).elim
  · exact .done

theorem binaryTail (h : Stops (Strength.loosestBinary + 2 * k) ts) :
    (Goal.binaryTail k).production.Reads ps ts ps ts := by
  refine .look ?_
  have hLevel : (Grammar.binaryLevels.getD k []).contains (kindAt ts 0) = false := by
    by_contra hContains
    rw [Bool.not_eq_false, List.contains_iff_mem] at hContains
    by_cases hk : k < 10
    · exact Nat.lt_irrefl _ (h _ (reach?_of_level hk hContains))
    · have hNone : Grammar.binaryLevels[k]? = none :=
        List.getElem?_eq_none (by simpa [Grammar.binaryLevels] using hk)
      rw [List.getD_eq_getElem?_getD, hNone] at hContains
      cases hContains
  rw [window, hLevel]
  exact .done

theorem question {ts : List Token.Inner} (h : Stops Strength.conditional ts) :
    kindAt ts 0 ≠ .symbol .question ∧ kindAt ts 0 ≠ .symbol .elvis := by
  constructor <;> intro hHere <;>
    exact Nat.lt_irrefl _ (h Strength.conditional (by rw [hHere]; decide))

theorem assignment {ts : List Token.Inner} (h : Stops Strength.assignment ts) :
    (kindAt ts 0).isAssignment = false := by
  by_contra hAssignment
  rw [Bool.not_eq_false] at hAssignment
  have hReach : (kindAt ts 0).reach?.isSome = true := by
    rw [TokenKind.reach?, if_pos hAssignment]
    repeat' split
    all_goals rfl
  obtain ⟨reach, hReach⟩ := Option.isSome_iff_exists.1 hReach
  exact absurd (h reach hReach) (Nat.not_lt_zero reach)

end Stops

/-! ## From place to place -/

/-- The tokens are read as the tree at the place of a goal, if an operand of the strength ends behind
them. -/
def Complete (goal : Goal) (strength : Nat) (ts : List Token.Inner) (T : Tree) : Prop :=
  ∀ rest, Stops strength rest → goal.production.Reads [] (ts ++ rest) [T] rest

/-- The tokens are read as the tree at the start of the place of a goal, and reading goes on with what
follows an operand there. -/
def Leads (goal tail : Goal) (strength : Nat) (ts : List Token.Inner) (T : Tree) : Prop :=
  ∀ rest out left, Stops strength rest → tail.production.Reads [T] rest out left →
    goal.production.Reads [] (ts ++ rest) out left

/-- The place of the operands of a level, with the strength at which they end. -/
abbrev CompleteAt (k : Nat) (ts : List Token.Inner) (T : Tree) : Prop :=
  Complete (.binary k) (Strength.loosestBinary + 2 * k) ts T

/-- The place in front of the operators of a level. -/
abbrev LeadsAt (k : Nat) (ts : List Token.Inner) (T : Tree) : Prop :=
  Leads (.binary k) (.binaryTail k) (Strength.loosestBinary + 2 * (k + 1)) ts T

/-- Whether the tokens do not begin with the word `NOT`. -/
def NotHeaded (ts : List Token.Inner) : Prop := ∃ t us, ts = t :: us ∧ t.1.kind ≠ .keyword .not

theorem NotHeaded.kindAt_append (h : NotHeaded ts) : kindAt (ts ++ rest) 0 ≠ .keyword .not := by
  obtain ⟨t, us, rfl, hKind⟩ := h
  exact hKind

theorem LeadsAt.complete (h : LeadsAt k ts T) : CompleteAt k ts T := fun rest hRest =>
  h rest [T] rest (hRest.mono (by omega)) hRest.binaryTail

theorem CompleteAt.leads (hk : k < 10) (h : CompleteAt (k + 1) ts T)
    (hHead : k = Grammar.notLevel → NotHeaded ts) : LeadsAt k ts T := by
  intro rest out left hRest hTail
  refine .look ?_
  have hNot : ¬ (k = Grammar.notLevel ∧ (window (ts ++ rest)).here = .keyword .not) :=
    fun ⟨hLevel, hHere⟩ => (hHead hLevel).kindAt_append hHere
  have hLevel : k < Grammar.binaryLevels.length := by simpa [Grammar.binaryLevels] using hk
  rw [if_neg hNot, if_pos hLevel]
  exact .parse (h rest hRest) (.again hTail)

/-- What is read at a place for operands is read at every looser one, if it does not begin with a word
`NOT` that would take it there. -/
theorem CompleteAt.looser (h : CompleteAt m ts T) (hk : k ≤ m) (hm : m ≤ 10)
    (hHead : k ≤ Grammar.notLevel → Grammar.notLevel < m → NotHeaded ts) : CompleteAt k ts T := by
  induction m, hk using Nat.le_induction with
  | base => exact h
  | succ m hLe ih =>
    refine ih (LeadsAt.complete (h.leads (by omega) fun hLevel => ?_)) (by omega) fun hLoose _ => ?_
    · exact hHead (by omega) (by omega)
    · exact hHead hLoose (by omega)

theorem CompleteAt.ternary (h : CompleteAt 0 ts T) : Complete .ternary Strength.conditional ts T := by
  intro rest hRest
  refine .parse (h rest (hRest.mono (by decide))) (.look ?_)
  obtain ⟨hQuestion, hElvis⟩ := hRest.question
  rw [window, if_neg hQuestion, if_neg hElvis]
  exact .done

theorem Complete.expression (h : Complete .ternary Strength.conditional ts T) :
    Complete .expression Strength.assignment ts T := by
  intro rest hRest
  refine .parse (h rest (hRest.mono (by decide))) (.look ?_)
  rw [window, hRest.assignment]
  exact .done

theorem Complete.operands (h : Complete .unary Strength.suffixed ts T) : CompleteAt 10 ts T := by
  intro rest hRest
  refine .look ?_
  exact .again (h rest (hRest.mono (by decide)))

theorem Stops.primary (ts : List Token.Inner) : Stops Strength.primary ts := by
  have hReach (kind : TokenKind) : ∀ reach ∈ kind.reach?, reach < Strength.primary := by
    unfold TokenKind.reach?
    have hLevel : Grammar.binaryLevels.findIdx (·.contains kind) ≤ 10 := List.findIdx_le_length
    split
    · simp [Strength.suffixed, Strength.primary]
    split
    · simp only [Option.mem_some_iff, forall_eq', Strength.loosestBinary, Strength.primary]
      omega
    split
    · simp [Strength.conditional, Strength.primary]
    split
    · simp [Strength.assignment, Strength.primary]
    · simp
  exact hReach _

/-- Whether the tokens begin with one that is no operator in front of an operand. -/
def SignFree (ts : List Token.Inner) : Prop :=
  ∃ t us, ts = t :: us ∧ t.1.kind ∉ Grammar.unaryOperators

theorem SignFree.notHeaded (h : SignFree ts) : NotHeaded ts := by
  obtain ⟨t, us, rfl, hKind⟩ := h
  exact ⟨t, us, rfl, fun hNot => hKind (hNot ▸ by decide)⟩

/-- The place of the operands that something is applied to. -/
abbrev LeadsApplied (ts : List Token.Inner) (T : Tree) : Prop :=
  Leads .applied .appliedTail Strength.primary ts T

/-- The place behind the operators in front of an operand. -/
abbrev CompleteUnary (ts : List Token.Inner) (T : Tree) : Prop :=
  Complete .unary Strength.suffixed ts T

theorem LeadsApplied.unary (h : LeadsApplied ts T) (hHead : SignFree ts) : CompleteUnary ts T := by
  intro rest hRest
  obtain ⟨t, us, rfl, hKind⟩ := hHead
  have hNone : Grammar.unaryOperators.contains t.1.kind = false := by simpa using hKind
  refine .look ?_
  rw [window, List.cons_append, kindAt_zero, hNone]
  exact .again (h rest [T] rest (.primary rest) hRest.appliedTail)

/-! ## Kinds of expressions -/

/-- Tokens that no expression starts with. -/
def Grammar.nonStarters : List TokenKind :=
  [.symbol .assign, .symbol .rParen, .symbol .rBracket, .symbol .semicolon]

/-- How the tokens of an expression of a strength start: not like a named argument, and not with an
operator before an operand that takes less than all of them. -/
structure Starts (tight : Bool) (strength : Nat) (ts : List Token.Inner) : Prop where
  head : ∃ t us, ts = t :: us ∧ t.1.kind ∉ Grammar.nonStarters
  second : Strength.conditional ≤ strength → (kindAt ts 0).isWord = true →
    kindAt ts 1 ≠ .symbol .assign
  /-- A leading word `NOT` takes a whole comparison, so what is stronger does not begin with it. -/
  notHeaded : tight = false → Strength.leadingNot < strength → NotHeaded ts
  signFree : Strength.suffixed ≤ strength → SignFree ts

/-- The tokens hold together with a strength: they are read as the tree at every place that asks for
no more. In a tight place, to the right of a comparison or of a stronger operator, stand operands only. -/
structure Holds (tight : Bool) (strength : Nat) (ts : List Token.Inner) (T : Tree) : Prop where
  expression : tight = false → Complete .expression Strength.assignment ts T
  ternary : tight = false → Strength.conditional ≤ strength →
    Complete .ternary Strength.conditional ts T
  left : ∀ k < 10, Strength.loosestBinary + 2 * k ≤ strength →
    (tight = true → Grammar.notLevel < k) → LeadsAt k ts T
  right : ∀ k < 10, Strength.loosestBinary + 2 * k + 1 ≤ strength →
    tight = decide (Grammar.notLevel ≤ k) → CompleteAt (k + 1) ts T
  unary : Strength.prefixed ≤ strength → CompleteUnary ts T
  applied : Strength.suffixed ≤ strength → LeadsApplied ts T
  starts : Starts tight strength ts

namespace Starts

variable {strength strength' : Nat} {tight' : Bool}

/-- At a looser place less is asked for. -/
theorem weaken (h : Starts tight strength ts) (hLe : strength' ≤ strength) :
    Starts tight strength' ts where
  head := h.head
  second hs := h.second (hs.trans hLe)
  notHeaded hTight hs := h.notHeaded hTight (hs.trans_le hLe)
  signFree hs := h.signFree (hs.trans hLe)

/-- What follows does not change the start, except that an equals sign may follow a word. -/
theorem append (h : Starts tight strength ts)
    (hSecond : Strength.conditional ≤ strength' →
      Strength.conditional ≤ strength ∧ kindAt us 0 ≠ .symbol .assign)
    (hNot : tight' = false → Strength.leadingNot < strength' → NotHeaded ts)
    (hSign : Strength.suffixed ≤ strength' → SignFree ts) : Starts tight' strength' (ts ++ us) := by
  obtain ⟨t, rest, rfl, hHead⟩ := h.head
  refine ⟨⟨t, rest ++ us, rfl, hHead⟩, fun hs hWord => ?_, fun hTight hs => ?_, fun hs => ?_⟩
  · obtain ⟨hLe, hMore⟩ := hSecond hs
    cases rest with
    | nil => exact hMore
    | cons u rest => exact h.second hLe hWord
  · obtain ⟨u, us', hEq, hKind⟩ := hNot hTight hs
    obtain ⟨rfl, rfl⟩ := List.cons.inj hEq
    exact ⟨t, rest ++ us, rfl, hKind⟩
  · obtain ⟨u, us', hEq, hKind⟩ := hSign hs
    obtain ⟨rfl, rfl⟩ := List.cons.inj hEq
    exact ⟨t, rest ++ us, rfl, hKind⟩

/-- An operand that something is applied to. -/
theorem applied (h : Starts tight Strength.suffixed ts) (hNext : kindAt us 0 ≠ .symbol .assign) :
    Starts tight' strength' (ts ++ us) :=
  h.append (fun _ => ⟨by decide, hNext⟩) (fun _ _ => (h.signFree le_rfl).notHeaded)
    fun _ => h.signFree le_rfl

/-- An operand that something looser goes on with. -/
theorem loose (h : Starts tight strength ts) (hs : Strength.conditional ≤ strength)
    (hs' : strength' ≤ Strength.conditional) (hNext : kindAt us 0 ≠ .symbol .assign) :
    Starts tight' strength' (ts ++ us) :=
  h.append (fun _ => ⟨hs, hNext⟩) (fun _ hLt => absurd (hLt.trans_le hs') (by decide))
    fun hLe => absurd (hLe.trans hs') (by decide)

/-- A token that is no word and no operator before an operand. -/
theorem of_symbol {t : Token.Inner} (hWord : t.1.kind.isWord = false)
    (hHead : t.1.kind ∉ Grammar.nonStarters) (hSign : t.1.kind ∉ Grammar.unaryOperators) :
    Starts tight strength (t :: ts) :=
  have hFree : SignFree (t :: ts) := ⟨t, ts, rfl, hSign⟩
  ⟨⟨t, ts, rfl, hHead⟩, fun _ hHere => absurd hHere (by simp [hWord]), fun _ _ => hFree.notHeaded,
    fun _ => hFree⟩

/-- A token that stands alone. -/
theorem of_single {t : Token.Inner} (hHead : t.1.kind ∉ Grammar.nonStarters)
    (hSign : t.1.kind ∉ Grammar.unaryOperators) : Starts tight strength [t] :=
  have hFree : SignFree [t] := ⟨t, [], rfl, hSign⟩
  ⟨⟨t, [], rfl, hHead⟩, fun _ _ => by simp, fun _ _ => hFree.notHeaded, fun _ => hFree⟩

end Starts

namespace Holds

/-- At a looser place less is asked for. -/
theorem weaken {strength strength' : Nat} (h : Holds tight strength ts T)
    (hLe : strength' ≤ strength) : Holds tight strength' ts T where
  expression := h.expression
  ternary hTight hs := h.ternary hTight (hs.trans hLe)
  left k hk hs := h.left k hk (hs.trans hLe)
  right k hk hs := h.right k hk (hs.trans hLe)
  unary hs := h.unary (hs.trans hLe)
  applied hs := h.applied (hs.trans hLe)
  starts := h.starts.weaken hLe

/-- From the place of the operands of a level to all places, if nothing is stronger. -/
theorem of_complete {strength : Nat} (h : CompleteAt m ts T) (hm : m ≤ 10)
    (hHead : tight = false → Grammar.notLevel < m → NotHeaded ts)
    (hLeft : ∀ k < 10, Strength.loosestBinary + 2 * k ≤ strength →
      (tight = true → Grammar.notLevel < k) → m ≤ k → LeadsAt k ts T)
    (hRight : ∀ k < 10, Strength.loosestBinary + 2 * k + 1 ≤ strength → k < m)
    (hUnary : Strength.prefixed ≤ strength → CompleteUnary ts T)
    (hApplied : Strength.suffixed ≤ strength → LeadsApplied ts T)
    (hStarts : Starts tight strength ts) : Holds tight strength ts T := by
  have hLoosest (hTight : tight = false) : CompleteAt 0 ts T :=
    h.looser (Nat.zero_le m) hm fun _ hLevel => hHead hTight hLevel
  refine ⟨fun hTight => (hLoosest hTight).ternary.expression, fun hTight _ => (hLoosest hTight).ternary,
    fun k hk hs hTight => ?_, fun k hk hs hTight => ?_, hUnary, hApplied, hStarts⟩
  · by_cases hLe : m ≤ k
    · exact hLeft k hk hs hTight hLe
    · refine CompleteAt.leads hk (h.looser (by omega) hm fun hLoose hLevel => ?_) fun hLevel => ?_
      · cases tight with
        | false => exact hHead rfl hLevel
        | true => exact absurd (hTight rfl) (by omega)
      · cases tight with
        | false => exact hHead rfl (by omega)
        | true => exact absurd (hTight rfl) (by omega)
  · refine h.looser (hRight k hk hs) hm fun hLoose hLevel => ?_
    cases tight with
    | false => exact hHead rfl hLevel
    | true => exact absurd (of_decide_eq_true hTight.symm) (by omega)

/-- What something can be applied to holds together with any strength. -/
theorem of_applied {strength : Nat} (h : LeadsApplied ts T) (hStarts : Starts tight strength ts)
    (hStrength : Strength.suffixed ≤ strength) : Holds tight strength ts T :=
  have hHead := hStarts.signFree hStrength
  of_complete (h.unary hHead).operands le_rfl (fun _ _ => hHead.notHeaded)
    (fun k hk _ _ hLe => absurd hLe (by omega)) (fun k hk _ => hk) (fun _ => h.unary hHead)
    (fun _ => h) hStarts

/-- An operator and its operand. -/
theorem of_unary (h : CompleteUnary ts T) (hStarts : Starts tight Strength.prefixed ts) :
    Holds tight Strength.prefixed ts T :=
  of_complete h.operands le_rfl (fun hTight _ => hStarts.notHeaded hTight (by decide))
    (fun k hk _ _ hLe => absurd hLe (by omega)) (fun k hk _ => hk) (fun _ => h)
    (fun hs => absurd hs (by decide)) hStarts

/-- A leading word `NOT` and its comparison. -/
theorem of_leadingNot (h : CompleteAt Grammar.notLevel ts T)
    (hStarts : Starts false Strength.leadingNot ts) : Holds false Strength.leadingNot ts T := by
  have hStrength : Strength.leadingNot = 19 := rfl
  have hLoosest : Strength.loosestBinary = 10 := rfl
  have hLevel : Grammar.notLevel = 5 := rfl
  exact of_complete h (by decide) (fun _ hLt => absurd hLt (by decide))
    (fun k hk hs _ hLe => absurd hLe (by omega)) (fun k hk hs => by omega)
    (fun hs => absurd hs (by decide)) (fun hs => absurd hs (by decide)) hStarts

/-- A binary operator of a level and its operands. -/
theorem of_binary (hk : k < 10) (h : (tight = true → Grammar.notLevel < k) → LeadsAt k ts T)
    (hStarts : Starts tight (Strength.loosestBinary + 2 * k) ts) :
    Holds tight (Strength.loosestBinary + 2 * k) ts T := by
  have hLoosest : Strength.loosestBinary = 10 := rfl
  have hPrefixed : Strength.prefixed = 40 := rfl
  have hSuffixed : Strength.suffixed = 42 := rfl
  have hNot : Strength.leadingNot = 19 := rfl
  have hLevel : Grammar.notLevel = 5 := rfl
  by_cases hTight : tight = true → Grammar.notLevel < k
  · exact of_complete (h hTight).complete hk.le
      (fun hLoose hLt => hStarts.notHeaded hLoose (by omega))
      (fun j hj hs _ hLe => (show j = k by omega) ▸ h hTight) (fun j hj hs => by omega)
      (fun hs => by omega) (fun hs => by omega) hStarts
  · -- In a tight place an operator that is too loose is never read without parentheses.
    obtain ⟨rfl, hLe⟩ : tight = true ∧ k ≤ Grammar.notLevel := by
      rw [Classical.not_imp] at hTight
      exact ⟨hTight.1, Nat.not_lt.1 hTight.2⟩
    refine ⟨nofun, nofun, fun j hj hs hj' => ?_, fun j hj hs hj' => ?_, fun hs => ?_, fun hs => ?_,
      hStarts⟩
    · exact absurd (hj' rfl) (by omega)
    · exact absurd (of_decide_eq_true hj'.symm) (by omega)
    · omega
    · omega

/-- What is looser than all operators, with the place where it is read. -/
theorem of_loose {strength : Nat} (hs : strength ≤ Strength.conditional)
    (h : Complete .expression Strength.assignment ts T)
    (hTernary : Strength.conditional ≤ strength → Complete .ternary Strength.conditional ts T)
    (hStarts : Starts tight strength ts) : Holds tight strength ts T := by
  have hLoosest : Strength.loosestBinary = 10 := rfl
  have hConditional : Strength.conditional = 1 := rfl
  refine ⟨fun _ => h, fun _ => hTernary, fun k hk hLe _ => ?_, fun k hk hLe _ => ?_, fun hLe => ?_,
    fun hLe => ?_, hStarts⟩
  · omega
  · omega
  · exact absurd (hLe.trans hs) (by decide)
  · exact absurd (hLe.trans hs) (by decide)

end Holds

end CfScript
