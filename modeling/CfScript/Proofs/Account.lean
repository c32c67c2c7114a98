import CfScript.Proofs.Additions
import CfScript.Proofs.Nodes
import CfScript.Proofs.QuietBuild
import Mathlib.Algebra.Order.Group.Multiset

/-!
# What a build accounts for

Three things are said of a build at once, since they are put together along the same steps. What it
finds is either that a statement cannot be built, or about an attribute, and then it stands at a token
of the tree. What it gives has its texts from the tokens of the tree, but for the paths that the tree
lacks. And if nothing is wrong with the tree and no attribute is given twice, the unknown attributes
that it finds on the way are those of what it gives: nothing is built twice, and nothing that is built
is dropped.

The third point is a matter of counting. So a build *tells* with which findings already counted it
ends with how many, and these counts are passed on from each step to the next one.

## Main results

* `Ground.Tells`: what a build accounts for;
* `Ground.Tells.bind`, `Ground.Tells.all`, `Ground.Tells.orLeaveOut`: builds one after the other, and
  one that is left out if it fails;
* `Reading.Told`: readings whose builds account for what they do.
-/

namespace CfScript

open Build

/-! ## Findings -/

namespace Diagnostic

/-- The finding without its line. -/
def unlined (d : Diagnostic) : Diagnostic := { d with line := 0 }

/-- Whether the finding is neither about the structure of the tree nor about a repeated attribute. -/
def IsPlain (d : Diagnostic) : Prop := d.phase ≠ .structural ∧ d.code ≠ some .duplicateAttribute

end Diagnostic

/-- The findings about unknown attributes without their lines, in no order. -/
def strange (ds : List Diagnostic) : Multiset Diagnostic :=
  ((ds.filter (·.code = some .unknownAttribute)).map (·.unlined) : List Diagnostic)

@[simp] theorem strange_nil : strange [] = 0 := rfl

@[simp] theorem strange_append (ds es : List Diagnostic) :
    strange (ds ++ es) = strange ds + strange es := by
  simp [strange]

/-! ## The ground of a build -/

/-- What builds start from: the rules for attributes and a tree. -/
structure Ground where
  rules : AttributeRules
  tree : Tree
  /-- No token but the end of the input is empty. -/
  filled : ∀ t ∈ Leaf.passed tree.leaves, t.lexeme ≠ ""

/-- Whether a name that may have dots stands in the tree without a text: it was assumed. -/
def Tree.LacksName (t : Tree) : Prop :=
  ∃ path part, t.part? path = some part ∧ part.rule? = some .typeName ∧ part.text = ""

namespace Ground

variable {α β γ : Type} (g : Ground)

/-- The tokens of the tree. -/
def tokens : List Token := Leaf.passed g.tree.leaves

/-- Whether no leaf of the tree stems from an error. -/
def Clean : Prop := ∀ l ∈ g.tree.leaves, l.isError = false

/-- Whether a finding of a build is about a statement that cannot be built, or stands at a token. -/
def Places (d : Diagnostic) : Prop :=
  d.phase = .structural ∨
    d.phase = .validation ∧ ∃ t ∈ g.tokens, d.span = t.span ∧ d.line = t.line ∧ d.context = t.lexeme

/-- Whether the text comes from tokens of the tree, or is that of a path that the tree lacks. -/
def Drawn (w : Written) : Prop := w.DrawnFrom g.tokens ∨ w = .path "" ∧ g.tree.LacksName

/-- Whether all the texts come from the tree. -/
def Draws (ws : List Written) : Prop := ∀ w ∈ ws, g.Drawn w

/-- Whether the texts at the nodes come from tokens of the tree. -/
def DrawsAll (ns : List Node) : Prop := ∀ n ∈ ns, g.Draws n.texts

/-- The findings about the attributes at the nodes. -/
def tally (ns : List Node) : Multiset Diagnostic := (ns.flatMap (·.validate g.rules) : List Diagnostic)

section

variable {w : Written} {ws us : List Written} {n : Node} {ns ms : List Node}

@[simp] theorem draws_nil : g.Draws [] := nofun

@[simp] theorem draws_cons : g.Draws (w :: ws) ↔ g.Drawn w ∧ g.Draws ws :=
  List.forall_mem_cons

@[simp] theorem draws_append : g.Draws (ws ++ us) ↔ g.Draws ws ∧ g.Draws us :=
  List.forall_mem_append

@[simp] theorem draws_map {f : α → Written} {xs : List α} :
    g.Draws (xs.map f) ↔ ∀ x ∈ xs, g.Drawn (f x) := List.forall_mem_map

@[simp] theorem draws_flatMap {f : α → List Written} {xs : List α} :
    g.Draws (xs.flatMap f) ↔ ∀ x ∈ xs, g.Draws (f x) := by
  simp only [Draws, List.mem_flatMap]
  exact ⟨fun h x hx w hw => h w ⟨x, hx, hw⟩, fun h w ⟨x, hx, hw⟩ => h x hx w hw⟩

@[simp] theorem drawsAll_nil : g.DrawsAll [] := nofun

@[simp] theorem drawsAll_cons : g.DrawsAll (n :: ns) ↔ g.Draws n.texts ∧ g.DrawsAll ns :=
  List.forall_mem_cons

@[simp] theorem drawsAll_append : g.DrawsAll (ns ++ ms) ↔ g.DrawsAll ns ∧ g.DrawsAll ms :=
  List.forall_mem_append

@[simp] theorem drawsAll_flatMap {f : α → List Node} {xs : List α} :
    g.DrawsAll (xs.flatMap f) ↔ ∀ x ∈ xs, g.DrawsAll (f x) := by
  simp only [DrawsAll, List.mem_flatMap]
  exact ⟨fun h x hx n hn => h n ⟨x, hx, hn⟩, fun h n ⟨x, hx, hn⟩ => h x hx n hn⟩

@[simp] theorem tally_nil : g.tally [] = 0 := rfl

@[simp] theorem tally_cons :
    g.tally (n :: ns) = (n.validate g.rules : Multiset Diagnostic) + g.tally ns := by
  simp [tally]

@[simp] theorem tally_append : g.tally (ns ++ ms) = g.tally ns + g.tally ms := by
  simp [tally]

end

/-! ## What a build tells -/

/-- With `m` already counted a build comes to the count `count a` if it gives `a`, which is as `P`
says. Its findings are placed, whether it fails or not. -/
def Tells (m : Multiset Diagnostic) (b : Build α) (P : α → Prop) (count : α → Multiset Diagnostic) :
    Prop :=
  ∀ log, ∃ result ds, b.runOn g.rules log = (result, log.append ds) ∧ (∀ d ∈ ds, g.Places d) ∧
    ∀ a, result = .ok a → P a ∧ (g.Clean → (∀ d ∈ ds, d.IsPlain) → m + strange ds = count a)

/-- A build whose result has texts and nodes. -/
abbrev Accounts (b : Build α) (texts : α → List Written) (nodes : α → List Node) : Prop :=
  g.Tells 0 b (fun a => g.Draws (texts a) ∧ g.DrawsAll (nodes a)) fun a => g.tally (nodes a)

/-- A build whose result has texts and no nodes. -/
abbrev Names (b : Build α) (texts : α → List Written) : Prop :=
  g.Tells 0 b (fun a => g.Draws (texts a)) fun _ => 0

/-- A build whose result has nodes and no other texts. -/
abbrev Makes (b : Build α) (nodes : α → List Node) : Prop :=
  g.Tells 0 b (fun a => g.DrawsAll (nodes a)) fun a => g.tally (nodes a)

namespace Tells

variable {g} {m : Multiset Diagnostic} {b : Build α} {f : α → Build β} {P : α → Prop} {Q : β → Prop}
  {count : α → Multiset Diagnostic} {count' : β → Multiset Diagnostic}

theorem pure {a : α} (h : P a) (hCount : m = count a) : g.Tells m (pure a) P count := by
  intro log
  refine ⟨.ok a, [], by simp [runOn_pure, Log.append], List.forall_mem_nil _, ?_⟩
  intro a' ha'
  cases ha'
  exact ⟨h, fun _ _ => by rw [strange_nil, add_zero, hCount]⟩

theorem throw (e : BuildError) : g.Tells m (throw e : Build α) P count :=
  fun log => ⟨.error e, [], by simp [Log.append]; rfl, List.forall_mem_nil _, fun _ h => by cases h⟩

theorem throw_bind (e : BuildError) (f : α → Build β) :
    g.Tells m (MonadExcept.throw e >>= f) Q count' :=
  fun log => ⟨.error e, [], by simp [Log.append]; rfl, List.forall_mem_nil _, fun _ h => by cases h⟩

theorem seq (h : g.Tells m b P count) (hf : ∀ a, P a → g.Tells (count a) (f a) Q count') :
    g.Tells m (b >>= f) Q count' := by
  intro log
  obtain ⟨result, ds, hRun, hPlaces, hOk⟩ := h log
  rw [runOn_bind, hRun]
  cases result with
  | error e => exact ⟨.error e, ds, rfl, hPlaces, fun _ h => by cases h⟩
  | ok a =>
    obtain ⟨ha, hCount⟩ := hOk a rfl
    obtain ⟨result', es, hRun', hPlaces', hOk'⟩ := hf a ha (log.append ds)
    refine ⟨result', ds ++ es, ?_, List.forall_mem_append.2 ⟨hPlaces, hPlaces'⟩, fun c hc => ?_⟩
    · rw [← Log.append_append]
      exact hRun'
    obtain ⟨hc, hCount'⟩ := hOk' c hc
    refine ⟨hc, fun hClean hPlain => ?_⟩
    obtain ⟨hDs, hEs⟩ := List.forall_mem_append.1 hPlain
    rw [← hCount' hClean hEs, ← hCount hClean hDs, strange_append, add_assoc]

/-- What is counted before a build does not concern it. -/
theorem frame (k : Multiset Diagnostic) (h : g.Tells m b P count) :
    g.Tells (k + m) b P fun a => k + count a := by
  intro log
  obtain ⟨result, ds, hRun, hPlaces, hOk⟩ := h log
  refine ⟨result, ds, hRun, hPlaces, fun a ha => ⟨(hOk a ha).1, fun hClean hPlain => ?_⟩⟩
  simp only [← (hOk a ha).2 hClean hPlain, add_assoc]

/-- A step counts from zero, whatever is counted before it. -/
theorem bind (h : g.Tells 0 b P count) (hf : ∀ a, P a → g.Tells (m + count a) (f a) Q count') :
    g.Tells m (b >>= f) Q count' := by
  have hFrame := h.frame m
  rw [add_zero] at hFrame
  exact hFrame.seq hf

theorem imp {p : α → Prop} {more : α → Multiset Diagnostic} (h : g.Tells m b P count)
    (hImp : ∀ a, P a → p a) (hCount : ∀ a, P a → count a = more a) : g.Tells m b p more := by
  intro log
  obtain ⟨result, ds, hRun, hPlaces, hOk⟩ := h log
  refine ⟨result, ds, hRun, hPlaces, fun a ha => ?_⟩
  obtain ⟨hP, hAll⟩ := hOk a ha
  exact ⟨hImp a hP, fun hClean hPlain => hCount a hP ▸ hAll hClean hPlain⟩

theorem map {p : β → Prop} {k : α → β} (h : g.Tells 0 b P count) (hk : ∀ a, P a → p (k a))
    (hCount : ∀ a, P a → count a = count' (k a)) : g.Tells 0 (k <$> b) p count' := by
  rw [map_eq_pure_bind]
  exact h.bind fun a ha => pure (hk a ha) (by rw [zero_add, hCount a ha])

/-- Findings that are placed are counted. -/
theorem report {found : List Diagnostic} (h : ∀ d ∈ found, g.Places d) :
    g.Tells 0 (modify (·.append found)) (fun _ => True) fun _ => strange found :=
  fun _ => ⟨.ok (), found, rfl, h, fun _ _ => ⟨trivial, fun _ _ => zero_add _⟩⟩

/-- Nothing is said of counts after a finding that is not plain. -/
theorem report_bind {found : List Diagnostic} {d : Diagnostic} {f : Unit → Build β}
    {m' : Multiset Diagnostic} (h : ∀ d ∈ found, g.Places d) (hd : d ∈ found) (hPlain : ¬ d.IsPlain)
    (hf : g.Tells m' (f ()) Q count') : g.Tells m (modify (·.append found) >>= f) Q count' := by
  intro log
  obtain ⟨result, es, hRun, hPlaces, hOk⟩ := hf (log.append found)
  refine ⟨result, found ++ es, ?_, List.forall_mem_append.2 ⟨h, hPlaces⟩, fun c hc => ?_⟩
  · rw [← Log.append_append]
    exact hRun
  · exact ⟨(hOk c hc).1, fun _ hAll => absurd (hAll d (List.mem_append_left _ hd)) hPlain⟩

theorem read_bind {f : AttributeRules → Build β} (h : g.Tells m (f g.rules) Q count') :
    g.Tells m (read >>= f) Q count' := by
  intro log
  obtain ⟨result, ds, hRun, hRest⟩ := h log
  refine ⟨result, ds, ?_, hRest⟩
  rw [runOn_bind]
  exact hRun

/-- The builds of the elements of a list. -/
theorem all {k : γ → Build β} {xs : List γ} {nodes : β → List Node}
    (h : ∀ x ∈ xs, g.Tells 0 (k x) Q fun y => g.tally (nodes y)) :
    g.Tells 0 (Build.all k xs) (fun ys => ∀ y ∈ ys, Q y) fun ys => g.tally (ys.flatMap nodes) := by
  induction xs with
  | nil => exact pure nofun rfl
  | cons x xs ih =>
    refine (h x (by simp)).bind fun y hy => ?_
    refine (ih fun x hx => h x (by simp [hx])).bind fun ys hys => ?_
    exact pure (List.forall_mem_cons.2 ⟨hy, hys⟩) (by simp)

theorem optional {k : γ → Build β} {x? : Option γ} {nodes : β → List Node}
    (h : ∀ x ∈ x?, g.Tells 0 (k x) Q fun y => g.tally (nodes y)) :
    g.Tells 0 (Build.optional k x?) (fun y? => ∀ y ∈ y?, Q y)
      fun y? => g.tally (y?.toList.flatMap nodes) := by
  cases x? with
  | none => exact pure nofun rfl
  | some x => exact (h x rfl).map (fun y hy z hz => by cases hz; exact hy) fun y _ => by simp

/-- What is left out is broken, or it is found that it cannot be built. -/
theorem orLeaveOut {rule : Rule} {t : Tree} {nodes : α → List Node}
    (h : g.Tells 0 b P fun a => g.tally (nodes a)) (hTree : g.Clean → t.hasErrors = false) :
    g.Tells 0 (Build.orLeaveOut rule t b) (fun a? => ∀ a ∈ a?, P a)
      fun a? => g.tally (a?.toList.flatMap nodes) := by
  intro log
  have hSome : g.Tells 0 (some <$> b) (fun a? => ∀ a ∈ a?, P a)
      fun a? => g.tally (a?.toList.flatMap nodes) :=
    h.map (fun a ha c hc => by cases hc; exact ha) fun a _ => by simp
  obtain ⟨result, ds, hRun, hPlaces, hOk⟩ := hSome log
  rw [Build.orLeaveOut, runOn_tryCatch, hRun]
  cases result with
  | ok a? => exact ⟨.ok a?, ds, rfl, hPlaces, hOk⟩
  | error e =>
    have hStructural : ∀ d ∈ (e.malformed? rule t).toList, d.phase = .structural := by
      intro d hd
      rw [Option.mem_toList] at hd
      unfold BuildError.malformed? at hd
      split at hd
      · cases hd
      · cases hd
        rfl
    refine ⟨.ok none, ds ++ (e.malformed? rule t).toList, ?_, ?_, ?_⟩
    · rw [← Log.append_append]
      rfl
    · exact List.forall_mem_append.2 ⟨hPlaces, fun d hd => .inl (hStructural d hd)⟩
    intro a? ha?
    cases ha?
    refine ⟨by rintro a ⟨⟩, fun hClean hPlain => ?_⟩
    -- The tree is whole, so a finding says that it is left out, and such a finding is not plain.
    have hFound : e.malformed? rule t ≠ none := by
      rw [ne_eq, e.malformed?_eq_none_iff rule t, hTree hClean]
      exact Bool.false_ne_true
    obtain ⟨d, hd⟩ := Option.ne_none_iff_exists'.1 hFound
    have hMem : d ∈ (e.malformed? rule t).toList := by simp [hd]
    exact absurd (hStructural d hMem) (hPlain d (List.mem_append_right _ hMem)).1

end Tells

end Ground

/-! ## Readings -/

/-- What is known of a part of the tree. -/
structure Tree.Grounded (g : Ground) (t : Tree) : Prop where
  token : ∀ u, t.token? = some u → u.isEnd = false → u ∈ g.tokens
  /-- The text of a name that may have dots comes from tokens side by side. -/
  text : t.rule? = some .typeName → ∃ ts, ts <:+: g.tokens ∧ t.text = Written.ofTokens ts
  assumed : t.rule? = some .typeName → t.text = "" → g.tree.LacksName
  whole : g.Clean → t.hasErrors = false
  /-- Only a class and an import may lack their names. -/
  titled : ∀ rule, t.rule? = some rule → rule ≠ .newExpression → rule ≠ .importStatement →
    ∀ c ∈ t.children, c.rule? = some .typeName → c.text ≠ ""
  /-- The end of the input is no word in front of a function. -/
  heads : t.rule? = some .functionDeclaration → ∀ c ∈ t.children, ∀ u, c.token? = some u →
    u.isEnd = false

/-- A reading of such a tree whose builds account for what they do, and those of its parts. -/
inductive Reading.Told (g : Ground) : Reading → Prop
  | mk {tree : Tree} {parts : List Reading} {statement : Build Statement}
      {expression : Build Expression} : tree.Grounded g → parts.map (·.tree) = tree.children →
      (∀ p ∈ parts, p.Told g) → g.Makes statement Statement.nodes →
      g.Makes expression Expression.nodes → Told g (.mk tree parts statement expression)

/-- A branch of such a tree with such parts. -/
structure Branch.Told (g : Ground) (b : Branch) : Prop where
  rule : b.tree.rule? = some b.rule
  tree : b.tree.Grounded g
  children : b.parts.map (·.tree) = b.tree.children
  parts : ∀ p ∈ b.parts, p.Told g

namespace Reading.Told

variable {g : Ground} {r : Reading}

theorem grounded (h : r.Told g) : r.tree.Grounded g := by
  cases h with
  | mk hTree => exact hTree

theorem statement (h : r.Told g) : g.Makes r.statement Statement.nodes := by
  cases h with
  | mk _ _ _ hStatement => exact hStatement

theorem expression (h : r.Told g) : g.Makes r.expression Expression.nodes := by
  cases h with
  | mk _ _ _ _ hExpression => exact hExpression

/-- The branch of a node that is read. -/
theorem branch {rule : Rule} (h : r.Told g) (hRule : r.rule? = some rule) :
    Branch.Told g ⟨rule, r.tree, r.parts⟩ := by
  cases h with
  | mk hTree hChildren hParts => exact ⟨hRule, hTree, hChildren, hParts⟩

end Reading.Told

namespace Branch.Told

variable {g : Ground} {b c : Branch} {rule : Rule}

theorem of_branchOf? {r : Reading} (h : r.Told g) (hBranch : r.branchOf? rule = some b) :
    b.Told g ∧ b.rule = rule := by
  obtain ⟨hRule, rfl⟩ := Reading.eq_of_branchOf? hBranch
  exact ⟨h.branch hRule, rfl⟩

theorem of_branch? {r : Reading} (h : r.Told g) (hBranch : r.branch? = some b) : b.Told g := by
  obtain ⟨rule, hRule, rfl⟩ := Option.map_eq_some_iff.1 hBranch
  exact h.branch hRule

theorem nodes (h : b.Told g) : ∀ c ∈ b.nodes rule, c.Told g ∧ c.rule = rule := by
  intro c hc
  obtain ⟨r, hr, hBranch⟩ := List.mem_filterMap.1 hc
  exact of_branchOf? (h.parts r hr) hBranch

theorem node? (h : b.Told g) (hc : b.node? rule = some c) : c.Told g ∧ c.rule = rule := by
  obtain ⟨r, hr, hBranch⟩ := List.exists_of_findSome?_eq_some hc
  exact of_branchOf? (h.parts r hr) hBranch

theorem operands (h : b.Told g) : ∀ r ∈ b.operands, r.Told g := fun r hr =>
  h.parts r (b.operands_sublist.subset hr)

/-- The name of a type comes from tokens, and is not empty unless it is that of a class or of an
import. -/
theorem type (h : b.Told g) (hNew : b.rule ≠ .newExpression) (hImport : b.rule ≠ .importStatement)
    {r : Reading} (hr : r ∈ b.parts) (hType : r.branchOf? .typeName = some c) :
    g.Drawn (.name c.tree.text) := by
  have hc := of_branchOf? (h.parts r hr) hType
  have hTree : c.tree = r.tree := congrArg Branch.tree (Reading.eq_of_branchOf? hType).2
  have hRule : c.tree.rule? = some .typeName := hc.2 ▸ hc.1.rule
  refine .inl ⟨?_, hc.1.tree.text hRule⟩
  exact h.tree.titled b.rule h.rule hNew hImport c.tree
    (h.children ▸ hTree ▸ List.mem_map_of_mem hr) hRule

end Branch.Told

end CfScript
