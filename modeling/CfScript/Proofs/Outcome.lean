import CfScript.Build.Script
import Mathlib.Data.List.Forall2

/-!
# What a build comes to

A build is run under rules for attributes and on the findings so far. Three things are said of
builds: that one *gives* a result with a property, whatever the rules and the findings are; that it
*ensures* the property of its result, if it has one; and that it is *quiet*: no finding that it makes,
whether it fails or not, is about the structure of a tree. All are put together along the steps of a
build.

## Main results

* `runOn_bind`, `runOn_tryCatch`: how the steps of a build run;
* `Gives.bind`, `Gives.all`: builds one after the other;
* `Ensures.bind`, `Ensures.all`, `Ensures.orLeaveOut`: the same of builds that may fail;
* `Quiet.bind`, `Quiet.all`, `Quiet.orLeaveOut`: quiet builds one after the other, and one that is
  left out if it fails.
-/

namespace CfScript.Build

variable {α β : Type} {b : Build α} {f : α → Build β} {P : α → Prop} {Q : β → Prop}

/-! ## Runs -/

theorem runOn_bind (b : Build α) (f : α → Build β) (rules : AttributeRules) (log : Log) :
    (b >>= f).runOn rules log =
      match b.runOn rules log with
      | (.ok a, log') => (f a).runOn rules log'
      | (.error e, log') => (.error e, log') := by
  unfold runOn ReaderT.run ExceptT.run StateT.run
  simp only [bind, ReaderT.bind, ExceptT.bind, ExceptT.mk, StateT.bind, ExceptT.bindCont]
  cases b rules log with
  | mk result next => cases result <;> rfl

theorem runOn_tryCatch (b : Build α) (f : BuildError → Build α) (rules : AttributeRules)
    (log : Log) :
    (tryCatch b f).runOn rules log =
      match b.runOn rules log with
      | (.ok a, log') => (.ok a, log')
      | (.error e, log') => (f e).runOn rules log' := by
  unfold runOn ReaderT.run ExceptT.run StateT.run
  simp only [tryCatch, tryCatchThe, MonadExceptOf.tryCatch, ExceptT.tryCatch, ExceptT.mk, bind,
    StateT.bind]
  cases b rules log with
  | mk result next => cases result <;> rfl

theorem runOn_pure (a : α) (rules : AttributeRules) (log : Log) :
    (pure a : Build α).runOn rules log = (.ok a, log) := rfl

/-! ## Results -/

/-- Whether a build gives a result with a property, on any findings and under any rules. -/
def Gives (b : Build α) (P : α → Prop) : Prop :=
  ∀ rules log, ∃ a log', b.runOn rules log = (.ok a, log') ∧ P a

theorem gives_pure {a : α} (h : P a) : Gives (pure a) P := fun _ log => ⟨a, log, rfl, h⟩

theorem gives_modify (f : Log → Log) : Gives (modify f) fun _ => True :=
  fun _ log => ⟨(), f log, rfl, trivial⟩

theorem gives_read : Gives read fun _ => True := fun rules log => ⟨rules, log, rfl, trivial⟩

theorem gives_note (d? : Option Diagnostic) : Gives (note d?) fun _ => True := gives_modify _

namespace Gives

theorem bind (h : Gives b P) (hf : ∀ a, P a → Gives (f a) Q) : Gives (b >>= f) Q := by
  intro rules log
  obtain ⟨a, log', hRun, ha⟩ := h rules log
  obtain ⟨c, log'', hRun', hc⟩ := hf a ha rules log'
  refine ⟨c, log'', ?_, hc⟩
  rw [runOn_bind, hRun]
  exact hRun'

theorem imp {P' : α → Prop} (h : Gives b P) (hImp : ∀ a, P a → P' a) : Gives b P' := by
  intro rules log
  obtain ⟨a, log', hRun, ha⟩ := h rules log
  exact ⟨a, log', hRun, hImp a ha⟩

theorem map {g : α → β} (h : Gives b P) (hg : ∀ a, P a → Q (g a)) : Gives (g <$> b) Q := by
  rw [map_eq_pure_bind]
  exact h.bind fun a ha => gives_pure (hg a ha)

/-- Builds of the elements of a list, whose results are related to them in turn. -/
theorem all {γ : Type} {g : γ → Build β} {R : γ → β → Prop} {xs : List γ}
    (h : ∀ x ∈ xs, Gives (g x) (R x)) : Gives (Build.all g xs) (List.Forall₂ R xs) := by
  induction xs with
  | nil => exact gives_pure .nil
  | cons x xs ih =>
    refine (h x (by simp)).bind fun y hy => ?_
    exact (ih fun x hx => h x (by simp [hx])).bind fun ys hys => gives_pure (.cons hy hys)

/-- A build that succeeds leaves nothing out. -/
theorem orLeaveOut (h : Gives b P) (rule : Rule) (t : Tree) :
    Gives (Build.orLeaveOut rule t b) fun a? => ∃ a, a? = some a ∧ P a := by
  intro rules log
  obtain ⟨a, log', hRun, ha⟩ := (h.map (Q := fun a? => ∃ a, a? = some a ∧ P a) (g := some)
    fun a ha => ⟨a, rfl, ha⟩) rules log
  refine ⟨a, log', ?_, ha⟩
  rw [Build.orLeaveOut, runOn_tryCatch, hRun]

end Gives

/-- Whether a build that does not fail gives a result with a property, on any findings and under any
rules. -/
def Ensures (b : Build α) (P : α → Prop) : Prop :=
  ∀ rules log a, (b.runOn rules log).1 = .ok a → P a

theorem ensures_pure {a : α} (h : P a) : Ensures (pure a) P := fun _ _ _ hRun =>
  Except.ok.inj hRun ▸ h

theorem ensures_throw (e : BuildError) : Ensures (throw e : Build α) P := fun _ _ _ hRun => by
  cases hRun

theorem ensures_throw_bind (e : BuildError) (f : α → Build β) : Ensures (throw e >>= f) Q :=
  fun _ _ _ hRun => by cases hRun

theorem ensures_any (b : Build α) : Ensures b fun _ => True := fun _ _ _ _ => trivial

namespace Ensures

theorem bind (h : Ensures b P) (hf : ∀ a, P a → Ensures (f a) Q) : Ensures (b >>= f) Q := by
  intro rules log c hc
  rw [runOn_bind] at hc
  cases hRun : b.runOn rules log with
  | mk result log' =>
    rw [hRun] at hc
    cases result with
    | error e => cases hc
    | ok a => exact hf a (h rules log a (congrArg Prod.fst hRun)) rules log' c hc

theorem imp {P' : α → Prop} (h : Ensures b P) (hImp : ∀ a, P a → P' a) : Ensures b P' :=
  fun rules log a hRun => hImp a (h rules log a hRun)

theorem map {g : α → β} (h : Ensures b P) (hg : ∀ a, P a → Q (g a)) : Ensures (g <$> b) Q := by
  rw [map_eq_pure_bind]
  exact h.bind fun a ha => ensures_pure (hg a ha)

theorem all {γ : Type} {g : γ → Build β} {xs : List γ} (h : ∀ x ∈ xs, Ensures (g x) Q) :
    Ensures (Build.all g xs) fun ys => ∀ y ∈ ys, Q y := by
  induction xs with
  | nil => exact ensures_pure nofun
  | cons x xs ih =>
    refine (h x (by simp)).bind fun y hy => ?_
    refine (ih fun x hx => h x (by simp [hx])).bind fun ys hys => ?_
    exact ensures_pure (List.forall_mem_cons.2 ⟨hy, hys⟩)

theorem optional {γ : Type} {g : γ → Build β} {x? : Option γ} (h : ∀ x ∈ x?, Ensures (g x) Q) :
    Ensures (Build.optional g x?) fun y? => ∀ y ∈ y?, Q y := by
  cases x? with
  | none => exact ensures_pure nofun
  | some x => exact (h x rfl).map fun y hy z hz => by cases hz; exact hy

/-- Nothing is said of what is left out. -/
theorem orLeaveOut (h : Ensures b P) (rule : Rule) (t : Tree) :
    Ensures (Build.orLeaveOut rule t b) fun a? => ∀ a ∈ a?, P a := by
  have hSome : Ensures (some <$> b) fun a? => ∀ a ∈ a?, P a :=
    h.map fun a ha c hc => by cases hc; exact ha
  intro rules log a? ha?
  rw [Build.orLeaveOut, runOn_tryCatch] at ha?
  cases hRun : (some <$> b).runOn rules log with
  | mk result log' =>
    rw [hRun] at ha?
    cases result with
    | ok c? => exact hSome rules log a? ((congrArg Prod.fst hRun).trans ha?)
    | error e =>
      obtain rfl : none = a? := Except.ok.inj ha?
      exact nofun

end Ensures

/-! ## Findings -/

/-- Whether a build makes no finding about the structure of a tree, whether it fails or not. -/
def Quiet (b : Build α) : Prop :=
  ∀ rules log, ∃ ds, (b.runOn rules log).2 = log.append ds ∧ ∀ d ∈ ds, d.phase ≠ .structural

theorem quiet_pure (a : α) : Quiet (pure a) :=
  fun _ log => ⟨[], by simp [runOn_pure, Log.append], List.forall_mem_nil _⟩

theorem quiet_throw (e : BuildError) : Quiet (throw e : Build α) :=
  fun _ log => ⟨[], by simp [Log.append]; rfl, List.forall_mem_nil _⟩

theorem quiet_throw_bind (e : BuildError) (f : α → Build β) : Quiet (throw e >>= f) :=
  fun _ log => ⟨[], by simp [Log.append]; rfl, List.forall_mem_nil _⟩

theorem quiet_read : Quiet read := fun _ log => ⟨[], by simp [Log.append]; rfl, List.forall_mem_nil _⟩

theorem quiet_report {found : List Diagnostic} (h : ∀ d ∈ found, d.phase ≠ .structural) :
    Quiet (modify (·.append found)) := fun _ _ => ⟨found, rfl, h⟩

theorem quiet_note {d? : Option Diagnostic} (h : ∀ d ∈ d?, d.phase ≠ .structural) :
    Quiet (note d?) := quiet_report fun d hd => h d (Option.mem_toList.1 hd)

namespace Quiet

theorem bind (h : Quiet b) (hf : ∀ a, Quiet (f a)) : Quiet (b >>= f) := by
  intro rules log
  obtain ⟨ds, hDs, hAll⟩ := h rules log
  rw [runOn_bind]
  cases hRun : b.runOn rules log with
  | mk result log' =>
    rw [hRun] at hDs
    cases result with
    | error e => exact ⟨ds, hDs, hAll⟩
    | ok a =>
      obtain rfl : log' = log.append ds := hDs
      obtain ⟨es, hEs, hAll'⟩ := hf a rules (log.append ds)
      refine ⟨ds ++ es, ?_, List.forall_mem_append.2 ⟨hAll, hAll'⟩⟩
      rw [hEs, Log.append_append]

theorem map (g : α → β) (h : Quiet b) : Quiet (g <$> b) := by
  rw [map_eq_pure_bind]
  exact h.bind fun a => quiet_pure (g a)

theorem all {γ : Type} {g : γ → Build β} {xs : List γ} (h : ∀ x ∈ xs, Quiet (g x)) :
    Quiet (Build.all g xs) := by
  induction xs with
  | nil => exact quiet_pure []
  | cons x xs ih =>
    refine (h x (by simp)).bind fun y => ?_
    exact (ih fun x hx => h x (by simp [hx])).bind fun ys => quiet_pure (y :: ys)

theorem optional {γ : Type} {g : γ → Build β} {x? : Option γ} (h : ∀ x ∈ x?, Quiet (g x)) :
    Quiet (Build.optional g x?) := by
  cases x? with
  | none => exact quiet_pure none
  | some x => exact (h x rfl).map some

/-- What is left out is broken, so nothing is found about it. -/
theorem orLeaveOut {rule : Rule} {t : Tree} (h : Quiet b)
    (hBuilds : t.hasErrors = true ∨ Gives b P) : Quiet (Build.orLeaveOut rule t b) := by
  intro rules log
  obtain ⟨ds, hDs, hAll⟩ := h.map some rules log
  rw [Build.orLeaveOut, runOn_tryCatch]
  cases hRun : (some <$> b).runOn rules log with
  | mk result log' =>
    rw [hRun] at hDs
    cases result with
    | ok a? => exact ⟨ds, hDs, hAll⟩
    | error e =>
      rcases hBuilds with hErrors | hGives
      · have hNote : Quiet (note (e.malformed? rule t)) := by
          rw [(e.malformed?_eq_none_iff rule t).2 hErrors]
          exact quiet_note fun d hd => by cases hd
        obtain rfl : log' = log.append ds := hDs
        have hRest := hNote.bind fun _ => quiet_pure (none : Option α)
        obtain ⟨es, hEs, hAll'⟩ := hRest rules (log.append ds)
        refine ⟨ds ++ es, ?_, List.forall_mem_append.2 ⟨hAll, hAll'⟩⟩
        rw [hEs, Log.append_append]
      · obtain ⟨a?, log'', hOk, -⟩ := hGives.map (Q := fun _ => True) (g := some) (by simp) rules log
        rw [hRun] at hOk
        cases hOk

end Quiet

end CfScript.Build
