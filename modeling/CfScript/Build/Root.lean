import CfScript.Build.Statement

/-!
# The program tree of a parse tree

Every parse tree has a reading, put together from the readings of its children. The root of a parse
gives the statement of the whole source: none if there is nothing in it, the only statement if there
is one, and else a script of all of them.

## Main results

* `tree_ofTree`: the reading of a tree is a reading of that tree;
* `statement_ofTree_node`, `expression_ofTree_node`: what is built from a node.
-/

namespace CfScript

namespace Reading

mutual

/-- The reading of a parse tree. -/
def ofTree : Tree → Reading
  | .leaf l => .mk (.leaf l) [] (Build.leafStatement l) (Build.leafExpression l)
  | .node rule children =>
    let b : Branch := ⟨rule, .node rule children, ofTrees children⟩
    .mk b.tree b.parts (Build.branchStatement b) (Build.branchExpression b)

/-- The readings of parse trees. -/
def ofTrees : List Tree → List Reading
  | [] => []
  | t :: ts => ofTree t :: ofTrees ts

end

@[simp] theorem tree_ofTree (t : Tree) : (ofTree t).tree = t := by
  cases t <;> rfl

theorem ofTrees_eq_map (ts : List Tree) : ofTrees ts = ts.map ofTree := by
  induction ts with
  | nil => rfl
  | cons t ts ih => rw [ofTrees, ih, List.map_cons]

theorem map_tree_ofTrees (ts : List Tree) : (ofTrees ts).map (·.tree) = ts := by
  simp [ofTrees_eq_map, Function.comp_def]

@[simp] theorem parts_ofTree (t : Tree) : (ofTree t).parts = t.children.map ofTree := by
  cases t with
  | leaf l => rfl
  | node rule children => exact ofTrees_eq_map children

theorem statement_ofTree_node (rule : Rule) (children : List Tree) :
    (ofTree (.node rule children)).statement =
      Build.branchStatement ⟨rule, .node rule children, children.map ofTree⟩ := by
  rw [← ofTrees_eq_map]
  rfl

theorem expression_ofTree_node (rule : Rule) (children : List Tree) :
    (ofTree (.node rule children)).expression =
      Build.branchExpression ⟨rule, .node rule children, children.map ofTree⟩ := by
  rw [← ofTrees_eq_map]
  rfl

end Reading

namespace Build

/-- The statement of a parse tree. -/
def statement (t : Tree) : Build Statement := (Reading.ofTree t).statement

/-- The expression of a parse tree. -/
def expression (t : Tree) : Build Expression := (Reading.ofTree t).expression

/-- The statement of a source that holds one expression. -/
def standalone (t : Tree) : List Reading → Build (Option Statement)
  | [] => pure none
  | r :: _ => do
    let value? ← orLeaveOut .standaloneExpression t r.expression
    return value?.map fun value => .expression value value.span

/-- The statement of a script: its only statement, or all of them. -/
def wholeScript (t : Tree) (parts : List Reading) : Build (Option Statement) := do
  match ← statements parts with
  | [] => return none
  | [s] => return some s
  | body => return some (.script body t.span)

/-- The statement of the root of a parse. -/
def root (t : Tree) : Build (Option Statement) :=
  let r := Reading.ofTree t
  match t.rule? with
  | none => pure none
  | some .scriptBlock => wholeScript t r.parts
  | some .standaloneExpression => standalone t r.parts
  | some rule => orLeaveOut rule t r.statement

/-- The root of a parse tree as a statement, and the findings that were made on the way. -/
def run (t : Tree) (rules : AttributeRules) : Option Statement × Log :=
  match (root t).runOn rules .empty with
  | (.ok statement?, log) => (statement?, log)
  | (.error _, log) => (none, log)

end Build

end CfScript
