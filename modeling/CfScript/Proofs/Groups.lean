import CfScript.Proofs.Nesting

/-!
# Groups

A group is an opening delimiter, the delimiter that closes it and what stands between them. Nesting is
stated by a grammar of groups: tokens are nested if they are plain tokens and groups, and nested inside
of each group. In the rest of a broken statement a `)` or `]` may be left over outside all groups; the
grammar of loose tokens admits those too.

A walk along the tokens that knows which groups are open decides the grammar.

## Main results

* `pass_cases`: what one token does that the walk passes;
* `Nested.passAll`: behind nested tokens the same groups are open as before;
* `loose_iff`: the grammar of loose tokens and the walk over the open groups agree.
-/

namespace CfScript

/-! ## The grammar -/

namespace Delimiter

/-- Kinds of tokens whose delimiters are properly nested. -/
inductive Nested : List TokenKind → Prop where
  | nil : Nested []
  /-- A token that is no delimiter. -/
  | plain {k : TokenKind} {ks : List TokenKind} (hOpened : opened? k = none)
    (hClosed : closed? k = none) (h : Nested ks) : Nested (k :: ks)
  /-- A group, and what stands behind it. -/
  | group {d : Delimiter} {k l : TokenKind} {inner ks : List TokenKind} (hOpened : opened? k = some d)
    (hInner : Nested inner) (hClosed : closed? l = some d) (h : Nested ks) :
    Nested (k :: (inner ++ l :: ks))

/-- Whether the kind is that of a `)` or `]`, which may be left over in a broken statement. -/
def IsStray (k : TokenKind) : Prop := k = .symbol .rParen ∨ k = .symbol .rBracket

instance (k : TokenKind) : Decidable (IsStray k) := inferInstanceAs (Decidable (_ ∨ _))

/-- Kinds of tokens whose delimiters are properly nested, apart from stray `)` and `]` outside all
groups. -/
inductive Loose : List TokenKind → Prop where
  | nil : Loose []
  /-- A token that is no delimiter. -/
  | plain {k : TokenKind} {ks : List TokenKind} (hOpened : opened? k = none)
    (hClosed : closed? k = none) (h : Loose ks) : Loose (k :: ks)
  /-- A delimiter that is left over. -/
  | stray {k : TokenKind} {ks : List TokenKind} (hStray : IsStray k) (h : Loose ks) : Loose (k :: ks)
  /-- A group, and what stands behind it. -/
  | group {d : Delimiter} {k l : TokenKind} {inner ks : List TokenKind} (hOpened : opened? k = some d)
    (hInner : Nested inner) (hClosed : closed? l = some d) (h : Loose ks) :
    Loose (k :: (inner ++ l :: ks))

variable {d : Delimiter} {ds es : List Delimiter} {k : TokenKind} {ks ls : List TokenKind}

/-! ## The walk -/

/-- The delimiters that are open after a token, if it closes the innermost one or none, or is a stray
one where none is open. -/
def pass (open_ : List Delimiter) (kind : TokenKind) : Option (List Delimiter) :=
  if open_ = [] ∧ IsStray kind then some [] else nest open_ kind

/-- The delimiters that are open after the tokens. -/
def passAll (open_ : List Delimiter) (kinds : List TokenKind) : Option (List Delimiter) :=
  kinds.foldlM pass open_

theorem IsStray.opened (h : IsStray k) : opened? k = none := by
  rcases h with rfl | rfl <;> rfl

theorem pass_opened (h : opened? k = some d) : pass ds k = some (d :: ds) := by
  have hStray : ¬ IsStray k := fun hStray => by simp [hStray.opened] at h
  simp [pass, hStray, nest, h]

theorem pass_plain (hOpened : opened? k = none) (hClosed : closed? k = none) :
    pass ds k = some ds := by
  have hStray : ¬ IsStray k := by
    rintro (rfl | rfl) <;> cases hClosed
  simp [pass, hStray, nest, hOpened, hClosed]

theorem opened?_of_closed (h : closed? k = some d) : opened? k = none := by
  unfold closed? at h
  split at h
  · rfl
  · rfl
  · rfl
  · cases h

theorem pass_closed (h : closed? k = some d) : pass (d :: ds) k = some ds := by
  simp [pass, nest, opened?_of_closed h, h]

theorem pass_stray (h : IsStray k) : pass [] k = some [] := by
  simp [pass, h]

/-- What a token does that is passed: it opens a group, is no delimiter, closes the innermost group, or
is left over. -/
theorem pass_cases (h : pass ds k = some es) :
    (∃ d, opened? k = some d ∧ es = d :: ds) ∨
      (opened? k = none ∧ closed? k = none ∧ es = ds) ∨
      (∃ d, closed? k = some d ∧ ds = d :: es) ∨
      (IsStray k ∧ ds = [] ∧ es = []) := by
  unfold pass at h
  split at h
  next hStray =>
    cases h
    exact .inr (.inr (.inr ⟨hStray.2, hStray.1, rfl⟩))
  next =>
    rcases nest_cases h with hOpens | hPlain | ⟨d, -, hClosed, hTop⟩
    · exact .inl hOpens
    · exact .inr (.inl hPlain)
    · exact .inr (.inr (.inl ⟨d, hClosed, hTop⟩))

theorem passAll_cons : passAll ds (k :: ks) = (pass ds k).bind (passAll · ks) := rfl

theorem passAll_cons_of_pass (h : pass ds k = some es) : passAll ds (k :: ks) = passAll es ks := by
  rw [passAll_cons, h]
  rfl

theorem passAll_append (h : passAll ds ks = some es) : passAll ds (ks ++ ls) = passAll es ls := by
  rw [passAll, List.foldlM_append]
  rw [passAll] at h
  rw [h]
  rfl

/-- A walk over all tokens is a walk over the first ones. -/
theorem passAll_prefix (h : passAll ds (ks ++ ls) = some es) :
    ∃ fs, passAll ds ks = some fs ∧ passAll fs ls = some es := by
  rw [passAll, List.foldlM_append] at h
  exact Option.bind_eq_some_iff.1 h

/-! ## Groups and the walk over them -/

/-- Behind nested tokens the same groups are open as before. -/
theorem Nested.passAll (h : Nested ks) (ds : List Delimiter) : passAll ds ks = some ds := by
  induction h generalizing ds with
  | nil => rfl
  | plain hOpened hClosed h ih =>
    rw [passAll_cons_of_pass (pass_plain hOpened hClosed)]
    exact ih ds
  | @group d k l inner ks hOpened hInner hClosed h ihInner ih =>
    rw [passAll_cons_of_pass (pass_opened hOpened), passAll_append (ihInner (d :: ds)),
      passAll_cons_of_pass (pass_closed hClosed)]
    exact ih ds

theorem Loose.passAll (h : Loose ks) : passAll [] ks = some [] := by
  induction h with
  | nil => rfl
  | plain hOpened hClosed h ih =>
    rw [passAll_cons_of_pass (pass_plain hOpened hClosed)]
    exact ih
  | stray hStray h ih =>
    rw [passAll_cons_of_pass (pass_stray hStray)]
    exact ih
  | @group d k l inner ks hOpened hInner hClosed h ih =>
    rw [passAll_cons_of_pass (pass_opened hOpened), passAll_append (hInner.passAll [d]),
      passAll_cons_of_pass (pass_closed hClosed)]
    exact ih

/-- Whether the tokens close the groups that are open, one after the other from the inside, and are
nested in each of them. -/
def Closes : List Delimiter → List TokenKind → Prop
  | [], ks => Loose ks
  | d :: ds, ks => ∃ inner l rest, Nested inner ∧ closed? l = some d ∧ ks = inner ++ l :: rest ∧
      Closes ds rest

theorem Closes.plain (hOpened : opened? k = none) (hClosed : closed? k = none) (h : Closes ds ks) :
    Closes ds (k :: ks) := by
  cases ds with
  | nil => exact Loose.plain hOpened hClosed h
  | cons d ds =>
    obtain ⟨inner, l, rest, hInner, hCloses, rfl, hRest⟩ := h
    exact ⟨k :: inner, l, rest, .plain hOpened hClosed hInner, hCloses, rfl, hRest⟩

/-- A group that is opened and closed stands inside the groups that stay open. -/
theorem Closes.group (hOpened : opened? k = some d) (h : Closes (d :: ds) ks) :
    Closes ds (k :: ks) := by
  obtain ⟨inner, l, rest, hInner, hClosed, rfl, hRest⟩ := h
  cases ds with
  | nil => exact Loose.group hOpened hInner hClosed hRest
  | cons e ds =>
    obtain ⟨outer, m, rest, hOuter, hCloses, rfl, hRest⟩ := hRest
    exact ⟨k :: (inner ++ l :: outer), m, rest, .group hOpened hInner hClosed hOuter, hCloses,
      by simp, hRest⟩

theorem closes_of_passAll (h : passAll ds ks = some []) : Closes ds ks := by
  induction ks generalizing ds with
  | nil =>
    cases h
    exact Loose.nil
  | cons k ks ih =>
    rw [passAll_cons, Option.bind_eq_some_iff] at h
    obtain ⟨es, hStep, hRest⟩ := h
    have hRest := ih hRest
    rcases pass_cases hStep with
      ⟨d, hOpened, rfl⟩ | ⟨hOpened, hClosed, rfl⟩ | ⟨d, hClosed, rfl⟩ | ⟨hStray, rfl, rfl⟩
    · exact hRest.group hOpened
    · exact hRest.plain hOpened hClosed
    · exact ⟨[], k, ks, .nil, hClosed, rfl, hRest⟩
    · exact Loose.stray hStray hRest

/-- Tokens are nested apart from stray ones exactly if a walk over them leaves no group open. -/
theorem loose_iff : Loose ks ↔ passAll [] ks = some [] := ⟨Loose.passAll, closes_of_passAll⟩

end Delimiter

end CfScript
