import CfScript.Build.Root
import CfScript.Proofs.LikePrograms
import CfScript.Proofs.Outcome

/-!
# Builds that are alike

Two builds are alike if, on logs that are alike, both give a result or both fail, with results or
errors that are alike, and leave logs that are alike. This is put together along the steps of a build,
as it is said of single builds in `CfScript.Proofs.Outcome`.

The rules for attributes are the same on both sides. Who vouches for an attribute must not see what the
view does not see: a dictionary that tells letter cases apart is not admitted where they are not seen.

## Main results

* `Like.bind`, `Like.all`, `Like.orLeaveOut`: builds that are alike, one after the other;
* `Reading.Like`, `Branch.Like`: readings and branches whose builds are alike.
-/

namespace CfScript

variable {v : View}

/-! ## Lists that are related in turn -/

section Lists

variable {α β : Type} {R : α → β → Prop} {xs : List α} {ys : List β}

theorem forall₂_getElem? (h : List.Forall₂ R xs ys) (i : Nat) : Option.Rel R xs[i]? ys[i]? := by
  induction h generalizing i with
  | nil => exact .none
  | cons hHead _ ih =>
    cases i with
    | zero => exact .some hHead
    | succ i => exact ih i

theorem forall₂_dropLast (h : List.Forall₂ R xs ys) : List.Forall₂ R xs.dropLast ys.dropLast := by
  rw [List.dropLast_eq_take, List.dropLast_eq_take, h.length_eq]
  exact List.forall₂_take _ h

theorem forall₂_getLast? (h : List.Forall₂ R xs ys) : Option.Rel R xs.getLast? ys.getLast? := by
  rw [List.getLast?_eq_getElem?, List.getLast?_eq_getElem?, h.length_eq]
  exact forall₂_getElem? h _

theorem forall₂_findSome? {γ δ : Type} {S : γ → δ → Prop} {f : α → Option γ} {g : β → Option δ}
    (h : List.Forall₂ R xs ys) (hfg : ∀ x y, R x y → Option.Rel S (f x) (g y)) :
    Option.Rel S (xs.findSome? f) (ys.findSome? g) := by
  induction h with
  | nil => exact .none
  | @cons x y _ _ hHead _ ih =>
    have hRel := hfg x y hHead
    rw [List.findSome?_cons, List.findSome?_cons]
    revert hRel
    generalize f x = a, g y = b
    intro hRel
    cases hRel with
    | none => exact ih
    | some hab => exact .some hab

theorem forall₂_filter {p : α → Bool} {q : β → Bool} (h : List.Forall₂ R xs ys)
    (hpq : ∀ x y, R x y → p x = q y) : List.Forall₂ R (xs.filter p) (ys.filter q) := by
  induction h with
  | nil => exact .nil
  | @cons x y _ _ hHead _ ih =>
    rw [List.filter_cons, List.filter_cons, hpq x y hHead]
    split
    · exact .cons hHead ih
    · exact ih

end Lists

/-! ## Errors -/

/-- Errors that are alike. -/
structure BuildError.Like (v : View) (e f : BuildError) : Prop where
  code : e.code = f.code
  message : v.spelling = true → e.message = f.message
  span : v.places = true → e.span = f.span

namespace BuildError.Like

theorem refl (e : BuildError) : e.Like v e := ⟨rfl, fun _ => rfl, fun _ => rfl⟩

theorem unexpected (expected : String) {found other : String} {s t : Span}
    (hFound : v.spelling = true → found = other) (hSpan : v.places = true → s = t) :
    (BuildError.unexpected expected found s).Like v (.unexpected expected other t) :=
  ⟨rfl, fun hSeen => by rw [hFound hSeen]; rfl, hSpan⟩

theorem missing (what : String) {s t : Span} (hSpan : v.places = true → s = t) :
    (BuildError.missing what s).Like v (.missing what t) :=
  ⟨rfl, fun _ => rfl, hSpan⟩

theorem missingPropertyName {s t : Span} (hSpan : v.places = true → s = t) :
    (BuildError.missingPropertyName s).Like v (.missingPropertyName t) :=
  ⟨rfl, fun _ => rfl, hSpan⟩

theorem unknownOperator {op other : String} {s t : Span} (hOp : v.spelling = true → op = other)
    (hSpan : v.places = true → s = t) :
    (BuildError.unknownOperator op s).Like v (.unknownOperator other t) :=
  ⟨rfl, fun hSeen => by rw [hOp hSeen]; rfl, hSpan⟩

variable {t u : Tree}

theorem found_tree (h : t.Like v u) (hSeen : v.spelling = true) : t.found = u.found := by
  cases h with
  | node r h => rfl
  | leaf h =>
    cases h with
    | matched h => exact h.found hSeen
    | skipped h => exact h.found hSeen
    | assumed what => rfl

theorem unexpectedTree (expected : String) (h : t.Like v u) :
    (BuildError.unexpectedTree expected t).Like v (.unexpectedTree expected u) :=
  unexpected expected (found_tree h) fun hSeen => by rw [h.span? hSeen]

theorem missingPart (rule : Rule) (h : t.Like v u) :
    (BuildError.missingPart rule t).Like v (.missingPart rule u) :=
  missing rule.name h.span

/-- The findings about nodes that are left out because of errors that are alike. -/
theorem malformed? {e f : BuildError} (he : e.Like v f) (rule : Rule) (h : t.Like v u) :
    List.Forall₂ (Diagnostic.Like v) (e.malformed? rule t).toList (f.malformed? rule u).toList := by
  unfold BuildError.malformed?
  rw [h.hasErrors]
  split
  · exact .nil
  · refine .cons ⟨rfl, rfl, congrArg some he.code, rfl, rfl, fun hSeen => ?_, fun hSeen => ?_⟩ .nil
    · simp only [he.message hSeen]
    · simp only [he.span hSeen, h.span hSeen]

end BuildError.Like

/-! ## Builds -/

/-- Whether those who vouch for attributes see no more than the view sees. -/
def View.Admits (v : View) (rules : AttributeRules) : Prop :=
  ∀ element a b, v.SameText a b → rules.vouches element a = rules.vouches element b

namespace Build

variable {α β γ δ : Type} {R : α → β → Prop} {Q : γ → δ → Prop} {b : Build α} {c : Build β}

/-- Ends of builds that are alike: both have failed or none has. -/
inductive LikeResult (v : View) (R : α → β → Prop) :
    Except BuildError α × Log → Except BuildError β × Log → Prop where
  | ok {x : α} {y : β} {log other : Log} (h : R x y) (hLog : log.Like v other) :
      LikeResult v R (.ok x, log) (.ok y, other)
  | error {e f : BuildError} {log other : Log} (h : e.Like v f) (hLog : log.Like v other) :
      LikeResult v R (.error e, log) (.error f, other)

/-- Builds that are alike, with results that are related. -/
def Like (v : View) (R : α → β → Prop) (b : Build α) (c : Build β) : Prop :=
  ∀ rules log other, v.Admits rules → log.Like v other →
    LikeResult v R (b.runOn rules log) (c.runOn rules other)

theorem like_pure {x : α} {y : β} (h : R x y) : Like v R (pure x) (pure y) :=
  fun _ _ _ _ hLog => .ok h hLog

theorem like_throw {e f : BuildError} (h : e.Like v f) : Like v R (throw e) (throw f) :=
  fun _ _ _ _ hLog => .error h hLog

theorem like_throw_bind {e f : BuildError} (h : e.Like v f) (g : α → Build γ) (k : β → Build δ) :
    Like v Q (throw e >>= g) (throw f >>= k) :=
  fun _ _ _ _ hLog => .error h hLog

theorem like_read : Like v (fun r q => r = q ∧ v.Admits r) read read :=
  fun _ _ _ hAdmits hLog => .ok ⟨rfl, hAdmits⟩ hLog

theorem like_report {ds es : List Diagnostic} (h : List.Forall₂ (Diagnostic.Like v) ds es) :
    Like v (fun _ _ => True) (modify (·.append ds)) (modify (·.append es)) :=
  fun _ _ _ _ hLog => .ok trivial (hLog.append h)

theorem like_note {d? e? : Option Diagnostic}
    (h : List.Forall₂ (Diagnostic.Like v) d?.toList e?.toList) :
    Like v (fun _ _ => True) (note d?) (note e?) :=
  like_report h

namespace Like

theorem bind (h : Like v R b c) {f : α → Build γ} {g : β → Build δ}
    (hNext : ∀ x y, R x y → Like v Q (f x) (g y)) : Like v Q (b >>= f) (c >>= g) := by
  intro rules log other hAdmits hLog
  have hFirst := h rules log other hAdmits hLog
  rw [runOn_bind, runOn_bind]
  revert hFirst
  generalize b.runOn rules log = o, c.runOn rules other = p
  intro hFirst
  cases hFirst with
  | ok hResult hLog => exact hNext _ _ hResult rules _ _ hAdmits hLog
  | error he hLog => exact .error he hLog

theorem map (h : Like v R b c) {f : α → γ} {g : β → δ} (hfg : ∀ x y, R x y → Q (f x) (g y)) :
    Like v Q (f <$> b) (g <$> c) := by
  rw [map_eq_pure_bind, map_eq_pure_bind]
  exact h.bind fun x y hxy => like_pure (hfg x y hxy)

theorem all {f : α → Build γ} {g : β → Build δ} {xs : List α} {ys : List β}
    (h : List.Forall₂ R xs ys) (hfg : ∀ x y, R x y → Like v Q (f x) (g y)) :
    Like v (List.Forall₂ Q) (Build.all f xs) (Build.all g ys) := by
  induction h with
  | nil => exact like_pure .nil
  | cons hHead _ ih =>
    exact (hfg _ _ hHead).bind fun _ _ hFirst => ih.bind fun _ _ hRest =>
      like_pure (.cons hFirst hRest)

theorem optional {f : α → Build γ} {g : β → Build δ} {x? : Option α} {y? : Option β}
    (h : Option.Rel R x? y?) (hfg : ∀ x y, R x y → Like v Q (f x) (g y)) :
    Like v (Option.Rel Q) (Build.optional f x?) (Build.optional g y?) := by
  cases h with
  | none => exact like_pure .none
  | some h => exact (hfg _ _ h).map fun _ _ => .some

/-- Builds that are left out if they fail. -/
theorem orLeaveOut (h : Like v R b c) (rule : Rule) {t u : Tree} (hTree : t.Like v u) :
    Like v (Option.Rel R) (Build.orLeaveOut rule t b) (Build.orLeaveOut rule u c) := by
  intro rules log other hAdmits hLog
  have hBuild := h.map (Q := Option.Rel R) (f := some) (g := some) (fun _ _ => .some) rules log other
    hAdmits hLog
  rw [Build.orLeaveOut, Build.orLeaveOut, runOn_tryCatch, runOn_tryCatch]
  revert hBuild
  generalize (some <$> b).runOn rules log = o, (some <$> c).runOn rules other = p
  intro hBuild
  cases hBuild with
  | ok hResult hLog => exact .ok hResult hLog
  | error he hLog =>
    exact ((like_note (he.malformed? rule hTree)).bind fun _ _ _ => like_pure .none) rules _ _
      hAdmits hLog

end Like

end Build

/-! ## Readings -/

/-- Readings of trees that are alike, whose builds and parts are alike. -/
inductive Reading.Like (v : View) : Reading → Reading → Prop where
  | mk {t u : Tree} {ps qs : List Reading} {s s' : Build Statement} {e e' : Build Expression}
      (hTree : t.Like v u) (hParts : List.Forall₂ (Like v) ps qs)
      (hStatement : Build.Like v (Statement.Like v) s s')
      (hExpression : Build.Like v (Expression.Like v) e e') :
      Like v (.mk t ps s e) (.mk u qs s' e')

/-- Branches of one rule whose parts are alike. -/
structure Branch.Like (v : View) (b c : Branch) : Prop where
  rule : b.rule = c.rule
  tree : b.tree.Like v c.tree
  parts : List.Forall₂ (Reading.Like v) b.parts c.parts

namespace Reading.Like

variable {r q : Reading}

theorem tree (h : r.Like v q) : r.tree.Like v q.tree := by
  cases h with
  | mk hTree => exact hTree

theorem parts (h : r.Like v q) : List.Forall₂ (Reading.Like v) r.parts q.parts := by
  cases h with
  | mk _ hParts => exact hParts

theorem statement (h : r.Like v q) : Build.Like v (Statement.Like v) r.statement q.statement := by
  cases h with
  | mk _ _ hStatement => exact hStatement

theorem expression (h : r.Like v q) :
    Build.Like v (Expression.Like v) r.expression q.expression := by
  cases h with
  | mk _ _ _ hExpression => exact hExpression

theorem rule? (h : r.Like v q) : r.rule? = q.rule? := h.tree.rule?

theorem token? (h : r.Like v q) : Option.Rel (Token.Like v) r.token? q.token? := by
  have hTree := h.tree
  unfold Reading.token?
  generalize r.tree = t, q.tree = u at hTree
  cases hTree with
  | node rule h => exact .none
  | leaf h =>
    cases h with
    | matched h => exact .some h
    | skipped h => exact .none
    | assumed what => exact .none

/-- What is asked about the token of a reading. -/
theorem any_token? (h : r.Like v q) {p : Token → Bool} (hp : ∀ t u, t.Like v u → p t = p u) :
    r.token?.any p = q.token?.any p := by
  have hToken := h.token?
  revert hToken
  generalize r.token? = t?, q.token? = u?
  intro hToken
  cases hToken with
  | none => rfl
  | some hToken => exact hp _ _ hToken

theorem isToken (h : r.Like v q) (kind : TokenKind) : r.isToken kind = q.isToken kind :=
  h.any_token? fun _ _ h => by rw [h.kind]

theorem isAssumed (h : r.Like v q) : r.isAssumed = q.isAssumed := by
  have hTree := h.tree
  unfold Reading.isAssumed
  generalize r.tree = t, q.tree = u at hTree
  cases hTree with
  | node rule h => rfl
  | leaf h => cases h <;> rfl

theorem isAssumption (h : r.Like v q) (what : String) :
    r.isAssumption what = q.isAssumption what := by
  have hTree := h.tree
  unfold Reading.isAssumption
  generalize r.tree = t, q.tree = u at hTree
  cases hTree with
  | node rule h => rfl
  | leaf h => cases h <;> rfl

theorem isFiller (h : r.Like v q) : r.isFiller = q.isFiller := by
  have hTree := h.tree
  unfold Reading.isFiller
  generalize r.tree = t, q.tree = u at hTree
  cases hTree with
  | node rule h => rfl
  | leaf h =>
    cases h with
    | matched h => simp only [h.kind]
    | skipped h => rfl
    | assumed what => rfl

theorem branchOf? (h : r.Like v q) (rule : Rule) :
    Option.Rel (Branch.Like v) (r.branchOf? rule) (q.branchOf? rule) := by
  unfold Reading.branchOf?
  rw [h.rule?]
  split
  · exact .some ⟨rfl, h.tree, h.parts⟩
  · exact .none

theorem branch? (h : r.Like v q) : Option.Rel (Branch.Like v) r.branch? q.branch? := by
  unfold Reading.branch?
  rw [h.rule?]
  cases q.rule? with
  | none => exact .none
  | some rule => exact .some ⟨rfl, h.tree, h.parts⟩

end Reading.Like

namespace Branch.Like

variable {b c : Branch}

theorem span (h : b.Like v c) (hSeen : v.places = true) : b.span = c.span := h.tree.span hSeen

theorem nodes (h : b.Like v c) (rule : Rule) :
    List.Forall₂ (Branch.Like v) (b.nodes rule) (c.nodes rule) :=
  List.rel_filterMap (fun _ _ h => h.branchOf? rule) h.parts

theorem node? (h : b.Like v c) (rule : Rule) :
    Option.Rel (Branch.Like v) (b.node? rule) (c.node? rule) :=
  forall₂_findSome? h.parts fun _ _ h => h.branchOf? rule

theorem operands (h : b.Like v c) : List.Forall₂ (Reading.Like v) b.operands c.operands :=
  forall₂_filter h.parts fun _ _ h => by rw [h.isFiller]

theorem identifier (h : b.Like v c) : b.identifier.Like v c.identifier := h.tree.text

end Branch.Like

end CfScript
