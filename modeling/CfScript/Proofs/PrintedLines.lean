import CfScript.Layout.Text
import CfScript.Text.Blank

/-!
# Printed lines

What is printed is a list of lines, each a text at a depth below the node. Level and style only say
what stands in front of the lines after the first: so many units for each line that has a text. A
printer never goes back behind the level where it started, since every step of a node that goes deeper
is followed by one that comes back; with that, the lines can be read off the steps.

## Main results

* `Step.print_eq_text`: steps that stay on their level print the lines that are read off them;
* `Layout.statement_level`, `Layout.expression_level`: the steps of nodes stay on their level;
* `render_printsLines`: level and style only indent what is printed.
-/

namespace CfScript

/-! ## Lines -/

/-- A printed line: its text, and how much deeper than the node it stands. -/
structure Line where
  depth : Nat := 0
  text : String := ""

/-- Printed lines. The depth of the first one plays no part. -/
structure Page where
  first : Line := {}
  below : List Line := []

/-- The line with a text before its own. It stands as deep as its first text that is not empty. -/
def Line.before (l : Line) (depth : Nat) (text : String) : Line :=
  if text.isEmpty then l else ⟨depth, text ++ l.text⟩

/-- The line after its indentation, which a line without a text does not have. -/
def Line.indented (l : Line) (unit : String) (depth : Nat) : String :=
  if l.text.isEmpty then "" else String.join (List.replicate (depth + l.depth) unit) ++ l.text

namespace Page

/-- The lines after the first, each after a line feed. -/
def textBelow (page : Page) (unit : String) (depth : Nat) : String :=
  String.join (page.below.map fun l => "\n" ++ l.indented unit depth)

/-- The printed text: the first line as it is, then the others, each after a line feed. -/
def text (page : Page) (unit : String) (depth : Nat) : String :=
  page.first.text ++ page.textBelow unit depth

end Page

namespace Step

/-- The depth after a step, unless the step leaves a level that was not entered. -/
def move? (depth : Nat) : Step → Option Nat
  | .indent => some (depth + 1)
  | .dedent => if depth = 0 then none else some (depth - 1)
  | _ => some depth

/-- The lines of steps that start at a depth. -/
def page (depth : Nat) : List Step → Page
  | [] => {}
  | .write text :: steps =>
    let page := page depth steps
    { page with first := page.first.before depth text }
  | .newline :: steps => ⟨{}, (page depth steps).first :: (page depth steps).below⟩
  | .indent :: steps => page (depth + 1) steps
  | .dedent :: steps => page (depth - 1) steps

end Step

namespace Printer

/-- What a printer prints next; the indentation of the first line may still be due. -/
def next (p : Printer) (page : Page) (base : Nat) : String :=
  (if p.pending then page.first.indented p.unit base else page.first.text) ++ page.textBelow p.unit base

theorem depth_write (p : Printer) (text : String) : (p.write text).depth = p.depth := by
  unfold write
  split
  · rfl
  split <;> rfl

theorem next_empty (p : Printer) (base : Nat) : p.next {} base = "" := by
  simp [next, Line.indented, Page.textBelow]

/-- A text is printed as the beginning of the first line. -/
theorem next_write (p : Printer) (page : Page) {base depth : Nat} (hDepth : p.depth = base + depth)
    (text : String) :
    (p.write text).text ++ (p.write text).next page base =
      p.text ++ p.next { page with first := page.first.before depth text } base := by
  by_cases hEmpty : text = ""
  · subst hEmpty
    rfl
  · have hLine : page.first.before depth text = ⟨depth, text ++ page.first.text⟩ := by
      simp [Line.before, hEmpty]
    rw [hLine]
    cases hPending : p.pending with
    | true =>
      simp [write, hEmpty, hPending, next, Line.indented, margin, hDepth, String.append_assoc,
        Page.textBelow]
    | false =>
      simp [write, hEmpty, hPending, next, String.append_assoc, Page.textBelow]

/-- After a line feed the first line is due with its indentation. -/
theorem next_newline (p : Printer) (page : Page) (base : Nat) :
    (p.step .newline).text ++ (p.step .newline).next page base =
      p.text ++ p.next ⟨{}, page.first :: page.below⟩ base := by
  have hLine : p.text.push '\n' = p.text ++ "\n" := String.push_eq_append _
  simp [step, hLine, next, Line.indented, Page.textBelow, String.append_assoc]

/-- A printer prints the lines of steps that do not leave a level that they have not entered. -/
theorem run_eq_page {steps : List Step} {depth last : Nat}
    (h : steps.foldlM Step.move? depth = some last) (p : Printer) {base : Nat}
    (hDepth : p.depth = base + depth) :
    (p.run steps).text = p.text ++ p.next (Step.page depth steps) base := by
  -- On the steps: the printer and the lines keep their distance, since no step stops at level zero.
  induction steps generalizing depth p with
  | nil => simp [Step.page, next_empty]
  | cons step steps ih =>
    rw [run_cons]
    rw [List.foldlM_cons] at h
    cases step with
    | write text =>
      have hWritten : (p.write text).depth = base + depth := by rw [← hDepth, depth_write]
      exact (ih h (p.write text) hWritten).trans (p.next_write _ hDepth text)
    | newline => exact (ih h (p.step .newline) hDepth).trans (p.next_newline _ base)
    | indent =>
      have hDeeper : (p.step .indent).depth = base + (depth + 1) := by
        change p.depth + 1 = base + (depth + 1)
        omega
      exact ih h (p.step .indent) hDeeper
    | dedent =>
      have hEntered : depth ≠ 0 := by
        rintro rfl
        simp [Step.move?] at h
      simp only [Step.move?, hEntered, if_false] at h
      have hLeft : (p.step .dedent).depth = base + (depth - 1) := by
        change p.depth - 1 = base + (depth - 1)
        omega
      exact ih h (p.step .dedent) hLeft

end Printer

/-! ## Values in maps -/

namespace AttributeMap

variable {α : Type} {P : α → Prop} {map : AttributeMap α}

theorem mem_of_mem_ordered {known : List String} {a : Attribute α} (h : a ∈ map.ordered known) :
    a ∈ map.entries := by
  rcases List.mem_append.1 h with hKnown | hUnknown
  · obtain ⟨name, -, hFound⟩ := List.mem_filterMap.1 hKnown
    exact List.mem_of_find?_eq_some hFound
  · exact (List.mem_filter.1 hUnknown).1

theorem forall_ofList {as : List (Attribute α)} (h : ∀ a ∈ as, P a.value) :
    ∀ a ∈ (ofList as).entries, P a.value := by
  suffices hAll : ∀ map : AttributeMap α, (∀ a ∈ map.entries, P a.value) →
      ∀ a ∈ (map.insertAll as).entries, P a.value from hAll empty (by simp [empty])
  induction as with
  | nil => exact fun map hMap => hMap
  | cons a rest ih =>
    exact fun map hMap => ih (fun b hb => h b (List.mem_cons_of_mem a hb)) _
      (forall_insert hMap (fun _ _ => h a (by simp)) (h a (by simp)))

end AttributeMap

/-! ## Steps that stay on their level -/

namespace Layout

/-- Whether steps come back to the depth where they start, and never above it on the way. -/
def Level (steps : List Step) : Prop := ∀ depth, steps.foldlM Step.move? depth = some depth

namespace Level

variable {a b steps : List Step} {parts : List (List Step)}

theorem nil : Level [] := fun _ => rfl

theorem append (ha : Level a) (hb : Level b) : Level (a ++ b) := fun depth => by
  rw [List.foldlM_append, ha depth]
  exact hb depth

theorem write (text : String) (h : Level steps) : Level (.write text :: steps) := h

theorem newline (h : Level steps) : Level (.newline :: steps) := h

theorem space (h : Level steps) : Level (.space :: steps) := h

theorem deeper (h : Level steps) : Level (.indent :: steps ++ [Step.dedent]) := fun depth => by
  rw [List.cons_append, List.foldlM_cons]
  change (steps ++ [Step.dedent]).foldlM Step.move? (depth + 1) = some depth
  rw [List.foldlM_append, h (depth + 1)]
  rfl

theorem flatten (h : ∀ part ∈ parts, Level part) : Level parts.flatten := by
  induction parts with
  | nil => exact nil
  | cons part parts ih =>
    exact (h part (by simp)).append (ih fun part hPart => h part (by simp [hPart]))

theorem flatMap {α : Type} {f : α → List Step} {xs : List α} (h : ∀ x ∈ xs, Level (f x)) :
    Level (xs.flatMap f) := by
  rw [List.flatMap_def]
  exact flatten (List.forall_mem_map.2 h)

theorem joined {separator : List Step} (hSeparator : Level separator)
    (h : ∀ part ∈ parts, Level part) : Level (joined separator parts) := by
  fun_induction Layout.joined separator parts with
  | case1 => exact nil
  | case2 part => exact h part (by simp)
  | case3 part parts _ ih =>
    exact ((h part (by simp)).append hSeparator).append (ih fun part hPart => h part (by simp [hPart]))

theorem enclosed (opening closing : String) (h : Level steps) :
    Level (enclosed opening steps closing) :=
  write _ (h.append (write _ nil))

theorem listed (h : ∀ part ∈ parts, Level part) : Level (listed parts) :=
  enclosed _ _ (joined (write _ nil) h)

theorem onLines (h : ∀ part ∈ parts, Level part) : Level (onLines parts) :=
  flatMap fun part hPart => newline (h part hPart)

theorem braced (h : ∀ part ∈ parts, Level part) : Level (braced parts) := by
  unfold Layout.braced
  split
  · exact write _ nil
  · have hInner := (deeper (onLines h)).append (newline (write "\x7d" nil))
    simpa using write "\x7b" hInner

theorem assigned {x : Attribute (List Step)} (h : Level x.value) : Level (assigned x) :=
  write _ (write _ h)

theorem afterSpaces {xs : List (Attribute (List Step))} (h : ∀ x ∈ xs, Level x.value) :
    Level (afterSpaces xs) :=
  flatMap fun x hx => space (assigned (h x hx))

theorem atLeast {least : Nat} {tight : Bool} {e : Expression} {written : Bool → List Step}
    (h : ∀ tight, Level (written tight)) : Level (atLeast least tight e written) := by
  unfold Layout.atLeast
  split
  · exact enclosed _ _ (h false)
  · exact h tight

theorem terminated {s : Statement} (h : Level steps) : Level (terminated s steps) := by
  unfold Layout.terminated
  split
  · exact h
  · exact h.append (write _ nil)

theorem ordered (element : Element) {xs : List (Attribute (List Step))}
    (h : ∀ x ∈ xs, Level x.value) : Level (ordered element xs) :=
  afterSpaces fun x hx => h x (AttributeMap.mem_of_mem_ordered hx)

theorem functionHead (modifiers : List Identifier) (returnType? : Option Identifier)
    (name : Identifier) : Level (functionHead modifiers returnType? name) :=
  (flatMap fun _ _ => write _ (space nil)).append (write _ (write _ nil))

/-- The parameters of a function without a name. -/
theorem parameterPart (arrow : Bool) (h : ∀ part ∈ parts, Level part) :
    Level (if arrow then Layout.listed parts ++ [.write " => "]
      else .write "function" :: Layout.listed parts ++ [Step.space]) := by
  split
  · exact (listed h).append (write _ nil)
  · exact write _ ((listed h).append (space nil))

/-- What stands in front of the name of a parameter. -/
theorem typed (required : Bool) (type? : Option Identifier) :
    Level ((if required then [.write "required "] else []) ++
      type?.toList.flatMap fun id => [.write id.name, Step.space]) := by
  refine .append ?_ (flatMap fun _ _ => write _ (space nil))
  split
  · exact write _ nil
  · exact nil

/-- A word in front of an expression in parentheses. -/
theorem guard (word : String) (h : Level steps) :
    Level (.write word :: Layout.enclosed "(" steps ") ") :=
  write _ (enclosed _ _ h)

/-- A clause of a `switch`: statements that stand deeper behind a colon. -/
theorem clause (hHead : Level a) (h : ∀ part ∈ parts, Level part) :
    Level (a ++ .write ":" :: .indent :: Layout.onLines parts ++ [Step.dedent]) := by
  rw [List.append_assoc]
  exact hHead.append (write ":" (deeper (onLines h)))

theorem folded (name : String) (id? : Option Identifier) :
    ∀ x ∈ Property.folded quotedText name id?, Level x.value := by
  cases id? with
  | none => simp [Property.folded]
  | some id => exact List.forall_mem_singleton.2 (write _ (write _ (write _ nil)))

theorem property {p : Property (List Step)} (h : ∀ x ∈ p.attributes.entries, Level x.value) :
    Level (property p) := by
  unfold Layout.property
  split
  · refine write _ (ordered _ ?_)
    unfold Property.expandedWith
    split
    · exact h
    · have hTyped := List.forall_mem_append.2 ⟨folded "name" p.name?, folded "type" p.type?⟩
      exact AttributeMap.forall_ofList (List.forall_mem_append.2 ⟨hTyped, h⟩)
  · exact write _ ((flatMap fun _ _ => space (write _ nil)).append (ordered _ h))

end Level

/-! ## The steps of every node -/

mutual

theorem expression_level : (e : Expression) → ∀ tight, Level (expression tight e)
  | .identifier .., _ => .write _ .nil
  | .string .., _ => .write _ (.write _ (.write _ .nil))
  | .number .., _ => .write _ .nil
  | .boolean .., _ => .write _ .nil
  | .null _, _ => .write _ .nil
  | .binary op left right _, _ =>
    ((Level.atLeast (expression_level left)).append (.space (.write _ (.space .nil)))).append
      (Level.atLeast (expression_level right))
  | .unary op operand _, tight => by
    have h {least : Nat} {tight : Bool} : Level (atLeast least tight operand (expression · operand)) :=
      .atLeast (expression_level operand)
    cases op with
    | notWord => cases tight <;> exact .write _ h
    | _ =>
      refine .write _ (.append ?_ h)
      split
      · exact .space .nil
      · exact .nil
  | .postfixOp op operand _, _ => (Level.atLeast (expression_level operand)).append (.write _ .nil)
  | .assignment op target value _, _ =>
    ((Level.atLeast (expression_level target)).append (.space (.write _ (.space .nil)))).append
      (expression_level value false)
  | .ternary condition thenValue elseValue _, _ =>
    ((((Level.atLeast (expression_level condition)).append (.write _ .nil)).append
      (.atLeast (expression_level thenValue))).append (.write _ .nil)).append
      (.atLeast (expression_level elseValue))
  | .elvis value default _, _ =>
    ((Level.atLeast (expression_level value)).append (.write _ .nil)).append
      (.atLeast (expression_level default))
  | .paren inner _, _ => .enclosed _ _ (expression_level inner false)
  | .call callee args _, _ =>
    (Level.atLeast (expression_level callee)).append (.listed (arguments_level args))
  | .member object property _ _, _ =>
    (Level.atLeast (expression_level object)).append (.write _ (.write _ .nil))
  | .index object index _, _ =>
    (Level.atLeast (expression_level object)).append (.enclosed _ _ (expression_level index false))
  | .array items _, _ => .enclosed _ _ (.joined (.write _ .nil) (expressions_level items))
  | .struct [] _, _ => .write _ .nil
  | .struct (entry :: entries) _, _ =>
    .enclosed _ _ (.space (.joined (.write _ (.space .nil)) (structEntries_level (entry :: entries))))
  | .new _ args _, _ => Level.append (.write _ (.write _ .nil)) (.listed (arguments_level args))
  | .function arrow params body _, _ =>
    (Level.parameterPart arrow (parameters_level params)).append (.braced (children_level body))
  | .lambda arrow params value _, _ => by
    refine (Level.parameterPart arrow (parameters_level params)).append ?_
    split
    · exact .enclosed _ _ (expression_level value false)
    · exact expression_level value false

theorem expressions_level : (es : List Expression) → ∀ part ∈ expressions es, Level part
  | [] => by simp [expressions]
  | e :: es => List.forall_mem_cons.2 ⟨expression_level e false, expressions_level es⟩

theorem arguments_level : (args : List (Argument Expression)) → ∀ part ∈ arguments args, Level part
  | [] => by simp [arguments]
  | ⟨some _, value⟩ :: args =>
    List.forall_mem_cons.2 ⟨.assigned (.atLeast (expression_level value)), arguments_level args⟩
  | ⟨none, value⟩ :: args => by
    refine List.forall_mem_cons.2 ⟨?_, arguments_level args⟩
    split
    · exact .enclosed _ _ (expression_level value false)
    · exact expression_level value false

theorem structEntries_level : (entries : List (StructEntry Expression)) →
    ∀ part ∈ structEntries entries, Level part
  | [] => by simp [structEntries]
  | ⟨key, _, value⟩ :: entries => List.forall_mem_cons.2
    ⟨(Level.atLeast (expression_level key)).append (.write _ (expression_level value false)),
      structEntries_level entries⟩

theorem attributes_level : (as : List (Attribute Expression)) →
    ∀ x ∈ attributes as, Level x.value
  | [] => by simp [attributes]
  | ⟨_, value⟩ :: rest =>
    List.forall_mem_cons.2 ⟨.atLeast (expression_level value), attributes_level rest⟩

theorem parameters_level : (params : List (Parameter Expression)) →
    ∀ part ∈ parameters params, Level part
  | [] => by simp [parameters]
  | ⟨required, type?, name, none, ⟨entries⟩⟩ :: params => List.forall_mem_cons.2
    ⟨(Level.typed required type?).append (.write _ (.afterSpaces (attributes_level entries))),
      parameters_level params⟩
  | ⟨required, type?, name, some value, ⟨entries⟩⟩ :: params => List.forall_mem_cons.2
    ⟨(((Level.typed required type?).append (.write _ (.write _ .nil))).append
      (.atLeast (expression_level value))).append (.afterSpaces (attributes_level entries)),
      parameters_level params⟩

theorem statement_level : (s : Statement) → Level (statement s)
  | .script body _ => .joined (.newline .nil) (children_level body)
  | .block body _ => .braced (children_level body)
  | .expression value _ => expression_level value false
  | .declare _ none _ => .write _ (.write _ .nil)
  | .declare _ (some value) _ => .write _ (.write _ (.write _ (expression_level value false)))
  | .branch condition thenBranch none _ =>
    (Level.guard _ (expression_level condition false)).append (.terminated (statement_level thenBranch))
  | .branch condition thenBranch (some elseBranch) _ => by
    have hThen : Level (terminated thenBranch (statement thenBranch)) :=
      .terminated (statement_level thenBranch)
    have hElse : Level (terminated elseBranch (statement elseBranch)) :=
      .terminated (statement_level elseBranch)
    refine ((Level.guard _ (expression_level condition false)).append ?_).append (.write _ hElse)
    split
    · exact .braced (List.forall_mem_singleton.2 hThen)
    · exact hThen
  | .whileLoop condition body _ =>
    (Level.guard _ (expression_level condition false)).append (.terminated (statement_level body))
  | .doLoop body condition _ =>
    (Level.write _ (.terminated (statement_level body))).append
      (.write _ (.enclosed _ _ (expression_level condition false)))
  | .forLoop init? condition? update? body _ =>
    (((Level.write _ (optionalStatement_level init?)).append
      (.write _ (afterSpace_level condition?))).append (.write _ (afterSpace_level update?))).append
      (.write _ (.terminated (statement_level body)))
  | .eachLoop var target collection body _ => by
    have hTarget : Level (atLeast Strength.suffixed false target (expression · target)) :=
      .atLeast (expression_level target)
    have hVar : Level (if var then [.write "var "] else []) := by
      split
      · exact .write _ .nil
      · exact .nil
    exact (((Level.write _ hVar).append hTarget).append
      (.write _ (expression_level collection false))).append
      (.write _ (.terminated (statement_level body)))
  | .select subject cases none _ =>
    (Level.guard _ (expression_level subject false)).append (.braced (clauses_level cases))
  | .select subject cases (some body) _ => by
    have hDefault : Level (.write "default:" :: .indent :: onLines (children body) ++ [.dedent]) :=
      .write _ (.deeper (.onLines (children_level body)))
    exact (Level.guard _ (expression_level subject false)).append
      (.braced (List.forall_mem_append.2 ⟨clauses_level cases, List.forall_mem_singleton.2 hDefault⟩))
  | .breakLoop _ => .write _ .nil
  | .continueLoop _ => .write _ .nil
  | .returnValue value? _ => .write _ (afterSpace_level value?)
  | .throwValue value? _ => .write _ (afterSpace_level value?)
  | .abort value? _ => .write _ (afterSpace_level value?)
  | .includeFile value _ => .write _ (.space (expression_level value false))
  | .importPath _ _ => .write _ (.write _ .nil)
  | .tryCatch body catches none _ =>
    (Level.write _ (.braced (children_level body))).append (catchClauses_level catches)
  | .tryCatch body catches (some finally_) _ =>
    ((Level.write _ (.braced (children_level body))).append (catchClauses_level catches)).append
      (.write _ (.braced (children_level finally_)))
  | .function modifiers returnType? name params ⟨entries⟩ none _ =>
    ((Level.functionHead modifiers returnType? name).append (.listed (parameters_level params))).append
      (.ordered _ (attributes_level entries))
  | .function modifiers returnType? name params ⟨entries⟩ (some body) _ =>
    (((Level.functionHead modifiers returnType? name).append (.listed (parameters_level params))).append
      (.ordered _ (attributes_level entries))).append (.space (.braced (children_level body)))
  | .component _ ⟨entries⟩ body _ =>
    (Level.write _ (.ordered _ (attributes_level entries))).append
      (.space (.braced (children_level body)))
  | .property ⟨_, ⟨entries⟩⟩ _ => .property (attributes_level entries)
  | .tag _ ⟨entries⟩ none _ => .write _ (.ordered _ (attributes_level entries))
  | .tag _ ⟨entries⟩ (some body) _ =>
    (Level.write _ (.ordered _ (attributes_level entries))).append
      (.space (.braced (children_level body)))

theorem children_level : (ss : List Statement) → ∀ part ∈ children ss, Level part
  | [] => by simp [children]
  | s :: ss => List.forall_mem_cons.2 ⟨.terminated (statement_level s), children_level ss⟩

theorem optionalStatement_level : (s? : Option Statement) → Level (optionalStatement s?)
  | none => .nil
  | some s => statement_level s

theorem afterSpace_level : (e? : Option Expression) → Level (afterSpace e?)
  | none => .nil
  | some e => .space (expression_level e false)

theorem clauses_level : (cases : List (SwitchCase Expression Statement)) →
    ∀ part ∈ clauses cases, Level part
  | [] => by simp [clauses]
  | ⟨value, body⟩ :: cases => List.forall_mem_cons.2
    ⟨.clause (.write _ (expression_level value false)) (children_level body), clauses_level cases⟩

theorem catchClauses_level : (catches : List (CatchClause Statement)) → Level (catchClauses catches)
  | [] => .nil
  | ⟨_, _, body⟩ :: catches =>
    (((Level.write _ (.flatMap fun _ _ => .write _ (.space .nil))).append
      (.write _ (.write _ .nil))).append (.braced (children_level body))).append
      (catchClauses_level catches)

end

end Layout

/-! ## Words -/

namespace Text

theorem wordsFrom_cons_blank {c : Char} (h : isBlank c = true) (word rest : List Char) :
    wordsFrom word (c :: rest) = consWord word (wordsFrom [] rest) := by
  rw [wordsFrom, if_pos h]

theorem wordsFrom_nil_append {gap : List Char} (h : gap.all isBlank = true) (rest : List Char) :
    wordsFrom [] (gap ++ rest) = wordsFrom [] rest := by
  induction gap with
  | nil => rfl
  | cons c gap ih =>
    rw [List.all_cons, Bool.and_eq_true] at h
    rw [List.cons_append, wordsFrom_cons_blank h.1, ih h.2]
    rfl

/-- Texts that go on with the same words, whatever stands before them, do so behind a common text. -/
theorem wordsFrom_append_congr {xs ys : List Char} (h : ∀ word, wordsFrom word xs = wordsFrom word ys)
    (chars word : List Char) : wordsFrom word (chars ++ xs) = wordsFrom word (chars ++ ys) := by
  induction chars generalizing word with
  | nil => exact h word
  | cons c chars ih => simp only [List.cons_append, wordsFrom, ih]

/-- Blanks behind a blank do not show in the words. -/
theorem wordsFrom_margin {c : Char} (hBlank : isBlank c = true) {gap : List Char}
    (h : gap.all isBlank = true) (word rest : List Char) :
    wordsFrom word (c :: gap ++ rest) = wordsFrom word (c :: rest) := by
  rw [List.cons_append, wordsFrom_cons_blank hBlank, wordsFrom_cons_blank hBlank,
    wordsFrom_nil_append h]

end Text

theorem Indent.unit_isBlank (indent : Indent) : indent.unit.toList.all Text.isBlank = true := by
  cases indent with
  | tab => decide
  | spaces width =>
    have hSpace : Text.isBlank ' ' = true := by decide
    simp [unit, hSpace]

section

variable {unit : String} (h : unit.toList.all Text.isBlank = true)

include h

/-- The indentation of a line does not show in the words. -/
theorem Line.wordsFrom_indented (l : Line) (depth : Nat) (word rest : List Char) :
    Text.wordsFrom word ('\n' :: (l.indented unit depth).toList ++ rest) =
      Text.wordsFrom word ('\n' :: l.text.toList ++ rest) := by
  unfold indented
  split
  · next hEmpty => rw [String.isEmpty_iff.1 hEmpty]
  · have hMargin : (String.join (List.replicate (depth + l.depth) unit)).toList.all Text.isBlank := by
      rw [String.toList_join, List.all_flatMap, List.all_replicate]
      simp [h]
    have hBreak : Text.isBlank '\n' = true := by decide
    rw [String.toList_append, List.cons_append, List.append_assoc, ← List.cons_append]
    exact Text.wordsFrom_margin hBreak hMargin word _

theorem Page.wordsFrom_textBelow (page : Page) (depth : Nat) (word : List Char) :
    Text.wordsFrom word (page.textBelow unit depth).toList =
      Text.wordsFrom word (String.join (page.below.map fun l => "\n" ++ l.text)).toList := by
  obtain ⟨first, below⟩ := page
  unfold textBelow
  induction below generalizing word with
  | nil => rfl
  | cons l lines ih =>
    have hFirst := l.wordsFrom_indented h depth word
    have hLines := fun chars => Text.wordsFrom_append_congr ih chars word
    simp only [List.map_cons, String.join_cons, String.toList_append]
    exact (hFirst _).trans (hLines ('\n' :: l.text.toList))

/-- The words of a printed text are those of its lines, whatever the level and the unit. -/
theorem Page.words_text (page : Page) (depth : Nat) :
    Text.words (page.text unit depth) =
      Text.words (page.first.text ++ String.join (page.below.map fun l => "\n" ++ l.text)) := by
  simp only [Text.words, text, String.toList_append]
  rw [Text.wordsFrom_append_congr fun word => page.wordsFrom_textBelow h depth word]

end

/-! ## Printed nodes -/

/-- Whether there are lines, the same for all styles and levels, that are what is printed: the text of
the first, then for each other line a line feed, the units for the level and the depth of the line if
it has a text, and its text. Then the words are the same for all styles and levels, too. -/
structure PrintsLines (render : Style → Nat → String) : Prop where
  lines : ∃ page : Page, ∀ style depth, render style depth = page.text style.indent.unit depth
  words : ∀ style style' depth depth',
    Text.collapse (render style depth) = Text.collapse (render style' depth')

/-- Steps that stay on their level print the lines that are read off them. -/
theorem Step.print_eq_text {steps : List Step} (h : Layout.Level steps) (indent : Indent) (depth : Nat) :
    Step.print steps indent depth = (Step.page 0 steps).text indent.unit depth := by
  have hRun := Printer.run_eq_page (h 0) (.new indent depth) (Nat.add_zero depth).symm
  exact hRun.trans (String.empty_append ..)

example : (Step.page 0 (Layout.braced [[.write "a;"], [], [.write "b;"]])).below.map
    (fun l => (l.depth, l.text)) = [(1, "a;"), (0, ""), (1, "b;"), (0, "\x7d")] := by
  decide

theorem PrintsLines.of_level {steps : List Step} (h : Layout.Level steps) :
    PrintsLines fun style depth => Step.print steps style.indent depth where
  lines := ⟨Step.page 0 steps, fun style depth => Step.print_eq_text h style.indent depth⟩
  words style style' depth depth' := by
    have hWords (style : Style) (depth : Nat) :=
      (Step.page 0 steps).words_text style.indent.unit_isBlank depth
    simp only [Step.print_eq_text h, Text.collapse, hWords]

/-- For each statement, expression, property and attribute map there are lines, the same for all styles
and levels, such that style and level only say how the lines after the first are indented. -/
theorem render_printsLines :
    (∀ s : Statement, PrintsLines s.render) ∧ (∀ e : Expression, PrintsLines e.render) ∧
      (∀ p : Property Expression, PrintsLines p.render) ∧
      ∀ map : AttributeMap Expression, PrintsLines map.render := by
  refine ⟨fun s => .of_level (Layout.statement_level s),
    fun e => .of_level (Layout.expression_level e false),
    fun p => .of_level (.property (Layout.attributes_level p.attributes.entries)), fun map => ?_⟩
  have hParts : ∀ part ∈ (Layout.attributes map.entries).map Layout.assigned, Layout.Level part :=
    List.forall_mem_map.2 fun x hx => .assigned (Layout.attributes_level map.entries x hx)
  exact .of_level (.joined (.space .nil) hParts)

end CfScript
