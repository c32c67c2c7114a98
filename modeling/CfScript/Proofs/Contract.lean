import CfScript.Proofs.Additions

/-!
# What a production may do

The grammar is written with care in four respects, which no single production shows. A goal is only
asked for after a token was taken, or if it stands lower than the goal that asks. A token is only
taken when its kind is known, and it is never an invalid one. The delimiters that a production takes
are nested, and closed before it is done. And tokens are only skipped when there is a finding about
them.

`Keeps` says so of a production by following its actions with a handful of *facts*: which kinds
stand ahead, whether a token was taken, whether a fault was reported, which delimiters are open, and
whether an arrow follows the parenthesis at the cursor. A production is checked against them without
running it; `exec_keeps` in `CfScript.Proofs.Conduct` says what the check is worth.
-/

namespace CfScript

/-! ## Delimiters -/

namespace Delimiter

/-- The delimiters that are open after a token, if it closes the innermost one or none. -/
def nest (open_ : List Delimiter) (kind : TokenKind) : Option (List Delimiter) :=
  match opened? kind with
  | some d => some (d :: open_)
  | none =>
    match closed? kind with
    | none => some open_
    | some d => if open_.head? = some d then some open_.tail else none

/-- The delimiters that are open after the tokens, if each is closed as the innermost one. -/
def nestAll (open_ : List Delimiter) (kinds : List TokenKind) : Option (List Delimiter) :=
  kinds.foldlM nest open_

end Delimiter

/-! ## Facts -/

/-- What is known about an arrow ahead. -/
inductive Arrow where
  | unknown
  /-- It follows the parenthesis that closes the `depth` innermost ones. -/
  | behind (depth : Nat)
  /-- It is the current token. -/
  | here

namespace Arrow

/-- Whether the kinds ahead are as is known. -/
def Stands : Arrow → List TokenKind → Prop
  | unknown, _ => True
  | behind depth, kinds => Grammar.closesBeforeArrow depth kinds = true
  | here, kinds => kinds.head? = some (.symbol .arrow)

/-- What is known after a token of the kind. -/
def pass : Arrow → TokenKind → Arrow
  | behind depth, kind =>
    if kind = .symbol .lParen then behind (depth + 1)
    else if kind = .symbol .rParen then if depth ≤ 1 then here else behind (depth - 1)
    else if kind = .endOfInput then unknown
    else behind depth
  | _, _ => unknown

/-- What is known after tokens that are nested. -/
def across : Arrow → Arrow
  | behind (depth + 1) => behind (depth + 1)
  | _ => unknown

end Arrow

/-- What is known where an action begins. -/
structure Facts where
  /-- The kinds of the next tokens, as far as they are known. -/
  ahead : List TokenKind := []
  /-- Whether a token was taken since the goal began. -/
  moved : Bool := false
  /-- Whether a fault was reported. -/
  blamed : Bool := false
  /-- The delimiters that the parts open and do not close. -/
  opened : List Delimiter := []
  /-- What is known about an arrow ahead, unless something was found wrong. -/
  arrow : Arrow := .unknown

/-- The kinds that a window shows. -/
def Window.kinds (w : Window) : List TokenKind := [w.here, w.next, w.second]

namespace Facts

/-- The facts after a token of the kind is taken, with the delimiters that are open then. -/
def take (φ : Facts) (kind : TokenKind) (opened : List Delimiter) : Facts :=
  { φ with ahead := φ.ahead.tail, moved := true, opened, arrow := φ.arrow.pass kind }

/-- The facts after a token is taken or assumed. -/
def blur (φ : Facts) (arrow : Arrow) : Facts := { φ with ahead := [], arrow }

/-- The facts after a goal that took a token. -/
def cross (φ : Facts) : Facts := { φ with ahead := [], moved := true, arrow := φ.arrow.across }

/-- The facts after the current token is skipped. -/
def skip (φ : Facts) : Facts :=
  { φ with
    ahead := []
    moved := φ.moved || φ.ahead.head?.any (· ≠ .endOfInput)
    arrow := .unknown }

end Facts

/-! ## Goals -/

namespace Goal

/-- The rank of a goal: before it takes a token, it only asks for goals of lower rank. -/
def rank : Goal → Nat
  | leftovers | switchClauses | catchClauses | modifiers | dottedTail | attributes
  | appliedTail => 0
  | dottedName | applied => 1
  | typedName | propertyName | unary => 2
  | parameters | binaryTail _ => 3
  | binary level => 4 + (Grammar.binaryLevels.length - level)
  | ternary => 15
  | expression => 16
  | arguments | elements | structEntries | statement | standalone => 17
  | statements _ | script => 18

theorem rank_lt (goal : Goal) : goal.rank < 64 := by
  cases goal <;> simp [rank, Grammar.binaryLevels]
  omega

/-- Whether a goal is only asked for when a fault was reported. -/
def NeedsBlame (goal : Goal) : Prop := goal = leftovers

/-- What is known where a goal begins. -/
def facts : Goal → Facts
  | leftovers => { blamed := true }
  | _ => {}

end Goal

/-! ## Productions -/

namespace Production

/-- Whether a production of a goal of rank `r` keeps the contract of the grammar where the facts `φ`
hold, and ends where facts with `Q` hold. -/
def Keeps (r : Nat) : Production → (Facts → Prop) → Facts → Prop
  | done, Q, φ => φ.opened = [] ∧ Q φ
  | take next, Q, φ =>
    match φ.ahead with
    | kind :: _ =>
      kind ≠ .invalid ∧
        (kind = .endOfInput → next.Keeps r Q { φ with ahead := [], arrow := .unknown }) ∧
        (kind ≠ .endOfInput →
          ∃ opened, Delimiter.nest φ.opened kind = some opened ∧
            next.Keeps r Q (φ.take kind opened))
    | [] => φ.arrow = .here ∧ φ.moved = true ∧ next.Keeps r Q (φ.blur .unknown)
  | expect kind next, Q, φ =>
    kind ≠ .invalid ∧ kind ≠ .endOfInput ∧
      ∃ opened, Delimiter.nest φ.opened kind = some opened ∧
        if φ.moved then next.Keeps r Q { φ.blur (φ.arrow.pass kind) with opened }
        else
          ((∀ k ∈ φ.ahead.head?, k = kind) → next.Keeps r Q (φ.take kind opened)) ∧
            (φ.ahead.head? ≠ some kind → next.Keeps r Q { φ with opened, arrow := .unknown })
  | word next, Q, φ =>
    if φ.moved then next.Keeps r Q (φ.blur φ.arrow.across)
    else
      ((∀ k ∈ φ.ahead.head?, k.isWord) →
          next.Keeps r Q { φ.cross with ahead := φ.ahead.tail }) ∧
        ((∀ k ∈ φ.ahead.head?, ¬ k.isWord) → next.Keeps r Q { φ with arrow := .unknown })
  | assume _ next, Q, φ => next.Keeps r Q φ
  | reject _ next, Q, φ => next.Keeps r Q { φ.skip with blamed := true }
  | skip next, Q, φ =>
    (φ.blamed = true ∨ φ.ahead.head? = some .invalid) ∧ next.Keeps r Q φ.skip
  | recover next, Q, φ => φ.blamed = true ∧ next.Keeps r Q (φ.blur .unknown)
  | parse goal next, Q, φ =>
    (φ.moved = true ∨ goal.rank < r) ∧ (goal.NeedsBlame → φ.blamed = true) ∧
      next.Keeps r Q φ.cross ∧
        (φ.moved = false → next.Keeps r Q { φ with arrow := φ.arrow.across })
  | node _ inner next, Q, φ =>
    inner.Keeps r (fun ψ => next.Keeps r Q { ψ with opened := φ.opened }) { φ with opened := [] }
  | close _ next, Q, φ => next.Keeps r Q φ
  | again goal, Q, φ =>
    (φ.moved = true ∨ goal.rank < r) ∧ (goal.NeedsBlame → φ.blamed = true) ∧ φ.opened = [] ∧
      Q φ.cross ∧ (φ.moved = false → Q { φ with arrow := φ.arrow.across })
  | progress goal stuck next, Q, φ =>
    (φ.moved = true ∨ goal.rank < r) ∧ (goal.NeedsBlame → φ.blamed = true) ∧
      stuck.Keeps r Q φ ∧ next.Keeps r Q φ.cross
  | look choose, Q, φ =>
    ∀ w : Window, φ.ahead <+: w.kinds → (choose w).Keeps r Q { φ with ahead := w.kinds }
  | spell choose, Q, φ => ∀ text, (choose text).Keeps r Q φ
  | scan _ test yes no, Q, φ =>
    (∃ arrow : Arrow, (∀ kinds, test kinds = true → arrow.Stands kinds) ∧
        yes.Keeps r Q { φ with arrow }) ∧
      no.Keeps r Q φ
  | trial _ attempt _ yes no, Q, φ =>
    attempt.Keeps r (fun _ => True) { φ with opened := [] } ∧ yes.Keeps r Q φ ∧ no.Keeps r Q φ
  | single yes no, Q, φ => yes.Keeps r Q φ ∧ no.Keeps r Q φ
  | troubled yes no, Q, φ => yes.Keeps r Q { φ with blamed := true } ∧ no.Keeps r Q φ

end Production

/-- Whether a goal keeps the contract. -/
def Goal.Keeps (goal : Goal) : Prop :=
  goal.production.Keeps goal.rank (fun _ => True) goal.facts

end CfScript
