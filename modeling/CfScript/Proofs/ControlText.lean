import CfScript.Proofs.PlainText

/-!
# The text of control flow

Control flow is what blocks, branches and loops are made of, with jumps inside them: `break`,
`continue`, and `return` without a value. The expressions in it are plain, and a loop starts with a
declaration or with nothing.

Its text comes in lexemes as the text of an expression does. Statements stand on lines of their own,
and the indentation of a line is written with its first text; but line feeds and indentations are
blanks, so it makes no difference to the lexemes where a line ends. `Lays` says that steps print
lexemes from wherever a printer stands.

## Main results

* `Statement.isControl`: statements of control flow;
* `Statement.lexemes`: the lexemes of such a statement, with the semicolon that ends it;
* `Statement.lexes_scriptText`: its text is put together from them.
-/

namespace CfScript

open Scan

/-! ## Control flow -/

/-- Whether the statement declares a variable under a proper name, with a plain value or none. -/
def Statement.isPlainDeclaration : Statement → Bool
  | .declare name value? _ =>
    Scan.kindOf? name.name == some .identifier && value?.all (·.isPlain)
  | _ => false

mutual

/-- Whether the statement is made of blocks, branches, loops and jumps over plain expressions. A loop
over a collection has a name for its target. -/
def Statement.isControl : Statement → Bool
  | .block body _ => controlStatements body
  | .branch condition thenBranch none _ => condition.isPlain && thenBranch.isControl
  | .branch condition thenBranch (some elseBranch) _ =>
    condition.isPlain && thenBranch.isControl && elseBranch.isControl
  | .whileLoop condition body _ => condition.isPlain && body.isControl
  | .doLoop body condition _ => body.isControl && condition.isPlain
  | .forLoop init? condition? update? body _ =>
    init?.all (·.isPlainDeclaration) && condition?.all (·.isPlain) && update?.all (·.isPlain) &&
      body.isControl
  | .eachLoop _ (.identifier id _) collection body _ =>
    Scan.kindOf? id.name == some .identifier && collection.isPlain && body.isControl
  | .breakLoop _ => true
  | .continueLoop _ => true
  | .returnValue none _ => true
  | _ => false

/-- Whether all of the statements are control flow. -/
def controlStatements : List Statement → Bool
  | [] => true
  | s :: ss => s.isControl && controlStatements ss

end

namespace Layout

/-! ## Lexemes -/

/-- The lexemes of an expression in parentheses. -/
def parenLexemes (e : Expression) : List String := "(" :: lexemes false e ++ [")"]

/-- The lexemes of a clause of a loop header, which may be empty. -/
def clauseLexemes (e? : Option Expression) : List String := (e?.map (lexemes false)).getD []

/-- The lexemes of the declaration that a loop starts with, if there is one. -/
def startLexemes : Option Statement → List String
  | some (.declare name none _) => ["var", name.name]
  | some (.declare name (some value) _) => "var" :: name.name :: "=" :: lexemes false value
  | _ => []

end Layout

open Layout

mutual

/-- The lexemes of a statement of control flow, with the semicolon that ends it. -/
def Statement.lexemes : Statement → List String
  | .block body _ => "\x7b" :: (lexemesOfEach body).flatten ++ ["\x7d"]
  | .branch condition thenBranch none _ => "if" :: parenLexemes condition ++ thenBranch.lexemes
  | .branch condition thenBranch (some elseBranch) _ =>
    "if" :: parenLexemes condition ++
      (if endsWithOpenIf thenBranch then "\x7b" :: thenBranch.lexemes ++ ["\x7d"]
        else thenBranch.lexemes) ++ "else" :: elseBranch.lexemes
  | .whileLoop condition body _ => "while" :: parenLexemes condition ++ body.lexemes
  | .doLoop body condition _ => "do" :: body.lexemes ++ "while" :: parenLexemes condition ++ [";"]
  | .forLoop init? condition? update? body _ =>
    "for" :: "(" :: startLexemes init? ++ ";" :: clauseLexemes condition? ++
      ";" :: clauseLexemes update? ++ ")" :: body.lexemes
  | .eachLoop var (.identifier id _) collection body _ =>
    "for" :: "(" :: (if var then ["var"] else []) ++ [id.name] ++
      "in" :: Layout.lexemes false collection ++ ")" :: body.lexemes
  | .breakLoop _ => ["break", ";"]
  | .continueLoop _ => ["continue", ";"]
  | .returnValue none _ => ["return", ";"]
  | _ => []

/-- The lexemes of each of the statements. -/
def lexemesOfEach : List Statement → List (List String)
  | [] => []
  | s :: ss => s.lexemes :: lexemesOfEach ss

end

/-! ## Blank lines and margins -/

namespace Printer

variable {p : Printer} {steps : List Step} {text : String}

theorem unit_write (p : Printer) (text : String) : (p.write text).unit = p.unit := by
  unfold write
  split
  · rfl
  split <;> rfl

theorem unit_run (p : Printer) (steps : List Step) : (p.run steps).unit = p.unit := by
  induction steps generalizing p with
  | nil => rfl
  | cons step steps ih =>
    rw [run_cons, ih]
    cases step with
    | write text => exact p.unit_write text
    | newline => rfl
    | indent => rfl
    | dedent => rfl

/-- Lines are indented with blanks if levels are. -/
theorem margin_isGap (h : p.unit.toList.all isGap = true) : p.margin.toList.all isGap = true := by
  rw [margin, String.toList_join, List.all_flatMap, List.all_replicate]
  simp [h]

/-- Steps that only write are printed as what they write, possibly after a margin. -/
theorem run_of_writes (hBlank : p.unit.toList.all isGap = true)
    (h : ∀ step ∈ steps, ∃ text, step = .write text) :
    ∃ gap : List Char, gap.all isGap = true ∧
      (p.run steps).text = p.text ++ String.ofList (gap ++ written steps) := by
  by_cases hPending : p.pending = false
  · exact ⟨[], rfl, Layout.run_of_writes hPending h⟩
  induction steps with
  | nil => exact ⟨[], rfl, by simp⟩
  | cons step steps ih =>
    obtain ⟨text, rfl⟩ := h step (by simp)
    have hRest := fun step hStep => h step (List.mem_cons_of_mem _ hStep)
    by_cases hEmpty : text.isEmpty = true
    · obtain ⟨gap, hGap, hText⟩ := ih hRest
      obtain rfl := String.isEmpty_iff.1 hEmpty
      exact ⟨gap, hGap, hText⟩
    · refine ⟨p.margin.toList, margin_isGap hBlank, ?_⟩
      have hWrite : p.write text =
          { p with pending := false, text := p.text ++ p.margin ++ text } := by
        rw [write, if_neg hEmpty, if_pos (by simpa using hPending)]
      rw [run_cons, step, hWrite, Layout.run_of_writes rfl hRest, written_write]
      simp [String.append_assoc]

end Printer

theorem Indent.unit_isGap (indent : Indent) : indent.unit.toList.all isGap = true := by
  cases indent with
  | tab => rfl
  | spaces width => simp [unit, isGap]

/-! ## Steps that lay lexemes out -/

namespace Layout

/-- Whether the steps print the lexemes, from any printer that indents with blanks. -/
def Lays (steps : List Step) (texts : List String) : Prop :=
  ∀ p : Printer, p.unit.toList.all isGap = true →
    ∃ chars, (p.run steps).text = p.text ++ String.ofList chars ∧ Emits (fun _ => True) chars texts

namespace Lays

variable {a b : List Step} {v w : List String} {parts : List (List Step)}
  {texts : List (List String)}

theorem of_prints (h : Prints (fun _ => True) a v) : Lays a v := by
  intro p hBlank
  obtain ⟨gap, hGap, hText⟩ := Printer.run_of_writes hBlank h.writes
  have hEmits := (Emits.gap (F := fun _ => True) hGap).append h.emits fun _ _ => trivial
  exact ⟨gap ++ written a, hText, hEmits⟩

theorem append (ha : Lays a v) (hb : Lays b w) : Lays (a ++ b) (v ++ w) := by
  intro p hBlank
  obtain ⟨front, hFront, hEmits⟩ := ha p hBlank
  obtain ⟨back, hBack, hEmits'⟩ := hb (p.run a) (by rwa [p.unit_run])
  refine ⟨front ++ back, ?_, hEmits.append hEmits' fun _ _ => trivial⟩
  rw [Printer.run_append, hBack, hFront, String.ofList_append, String.append_assoc]

theorem newline : Lays [.newline] [] := fun _ _ =>
  ⟨['\n'], String.push_eq_append _, .gap rfl⟩

theorem indent : Lays [.indent] [] := fun p _ => ⟨[], by simp [Printer.step], .nil⟩

theorem dedent : Lays [.dedent] [] := fun p _ => ⟨[], by simp [Printer.step], .nil⟩

/-- Parts on lines of their own. -/
theorem onLines (h : List.Forall₂ Lays parts texts) : Lays (onLines parts) texts.flatten := by
  induction h with
  | nil => exact .of_prints .nil
  | cons hHead _ ih => exact (newline.append hHead).append ih

/-- Parts on lines of their own, in braces. -/
theorem braced (h : List.Forall₂ Lays parts texts) :
    Lays (braced parts) ("\x7b" :: texts.flatten ++ ["\x7d"]) := by
  have hOpening : Lays [.write "\x7b"] ["\x7b"] := .of_prints (.closed .lBrace rfl)
  have hClosing : Lays [.write "\x7d"] ["\x7d"] := .of_prints (.closed .rBrace rfl)
  cases h with
  | nil =>
    exact .of_prints (.write ((Emits.closed (F := fun _ => True) .lBrace rfl).append
      (Emits.closed .rBrace rfl) fun _ _ => trivial))
  | cons hHead hTail =>
    have hLines := onLines (.cons hHead hTail)
    exact ((hOpening.append indent).append hLines).append ((dedent.append newline).append hClosing)

end Lays

/-! ## The pieces of a statement -/

theorem prints_condition {e : Expression} (h : e.isPlain = true) :
    Prints (fun _ => True) (enclosed "(" (expression false e) ") ") (parenLexemes e) := by
  have hOpening : Prints (fun _ => True) [.write "("] ["("] := .closed .lParen rfl
  have hClosing : Prints (fun _ => True) [.write ") "] [")"] := prints_spaced _ _ rfl (by decide)
  have hInner : Prints (fun _ => True) (expression false e ++ [.write ") "])
      (lexemes false e ++ [")"]) :=
    (expression_shown false e h).prints.append hClosing fun rest _ => follows_of_isBreak rfl _
  exact hOpening.append hInner fun _ _ => trivial

theorem prints_jump {word : String} (k : Keyword) (h : kindOf? word = some (.keyword k)) :
    Prints (fun _ => True) ([.write word] ++ [.write ";"]) [word, ";"] :=
  have hEnd : Prints (fun _ => True) [.write ";"] [";"] := .closed .semicolon rfl
  (Prints.operand h rfl).append hEnd fun _ _ => follows_of_isBreak rfl _

/-- A word in front of an expression in parentheses. -/
theorem lays_guard {e : Expression} (h : e.isPlain = true) {spaced word : String}
    (hText : spaced.toList = word.toList ++ [' ']) (hSolid : isSolid word = true) :
    Lays (.write spaced :: enclosed "(" (expression false e) ") ") (word :: parenLexemes e) :=
  have hWord : Prints (fun _ => True) [.write spaced] [word] := prints_spaced spaced word hText hSolid
  .of_prints (hWord.append (prints_condition h) fun _ _ => trivial)

theorem prints_loop {F : List Char → Prop} : Prints F [.write "for ("] ["for", "("] :=
  .write ((Emits.spaced (F := fun _ => True) ["for"] (by decide)).append
    (Emits.closed .lParen rfl) fun _ _ => trivial)

/-- A clause of a loop header behind the semicolon before it. -/
theorem prints_clause {e? : Option Expression} (h : e?.all (·.isPlain) = true) :
    Prints Follows (.write ";" :: afterSpace e?) (";" :: clauseLexemes e?) := by
  have hMark : Prints (fun _ => True) [.write ";"] [";"] := .closed .semicolon rfl
  cases e? with
  | none => exact hMark.before .nil
  | some e => exact hMark.before (Prints.space.before (expression_shown false e h).prints)

/-- The declaration that a loop starts with. -/
theorem prints_start {init? : Option Statement} (h : init?.all (·.isPlainDeclaration) = true) :
    Prints Follows (optionalStatement init?) (startLexemes init?) := by
  have hVar : Prints (fun _ => True) [.write "var "] ["var"] := prints_spaced _ _ rfl (by decide)
  match init?, h with
  | none, _ => exact .nil
  | some (.declare name none _), h =>
    simp only [Option.all_some, Statement.isPlainDeclaration, Option.all_none, Bool.and_true] at h
    exact hVar.before (.operand (beq_iff_eq.1 h) rfl)
  | some (.declare name (some value) _), h =>
    simp only [Option.all_some, Statement.isPlainDeclaration, Bool.and_eq_true] at h
    have hName : Prints Follows [.write name.name] [name.name] := .operand (beq_iff_eq.1 h.1) rfl
    have hValue : Prints Follows ([.write " = "] ++ expression false value)
        ("=" :: lexemes false value) :=
      (prints_padded " = " "=" rfl (by decide)).before (expression_shown false value h.2).prints
    exact hVar.before (hName.append hValue fun _ _ => follows_of_isBreak rfl _)

/-- The header of a loop and its body. -/
theorem Prints.lays_loop {header body : List Step} {v w : List String} (h : Prints Follows header v)
    (hBody : Lays body w) : Lays (header ++ .write ") " :: body) (v ++ ")" :: w) := by
  have hEnd : Prints (fun _ => True) [.write ") "] [")"] := prints_spaced _ _ rfl (by decide)
  rw [List.append_cons header, List.append_cons v]
  exact (Lays.of_prints (h.append hEnd fun _ _ => follows_of_isBreak rfl _)).append hBody

mutual

/-- The steps of a statement of control flow lay its lexemes out. -/
theorem statement_lays : (s : Statement) → s.isControl = true →
    Lays (terminated s (statement s)) s.lexemes
  | .block body _, h => .braced (children_lay body h)
  | .branch condition thenBranch none _, h => by
    simp only [Statement.isControl, Bool.and_eq_true] at h
    exact (lays_guard h.1 rfl (by decide)).append (statement_lays thenBranch h.2)
  | .branch condition thenBranch (some elseBranch) _, h => by
    simp only [Statement.isControl, Bool.and_eq_true] at h
    have hThen := statement_lays thenBranch h.1.2
    have hElse : Lays [.write " else "] ["else"] :=
      .of_prints (prints_padded _ _ rfl (by decide))
    have hBranches : Lays (if endsWithOpenIf thenBranch
          then braced [terminated thenBranch (statement thenBranch)]
          else terminated thenBranch (statement thenBranch))
        (if endsWithOpenIf thenBranch then "\x7b" :: thenBranch.lexemes ++ ["\x7d"]
          else thenBranch.lexemes) := by
      split
      · simpa using Lays.braced (.cons hThen .nil)
      · exact hThen
    exact ((lays_guard h.1.1 rfl (by decide)).append hBranches).append
      (hElse.append (statement_lays elseBranch h.2))
  | .whileLoop condition body _, h => by
    simp only [Statement.isControl, Bool.and_eq_true] at h
    exact (lays_guard h.1 rfl (by decide)).append (statement_lays body h.2)
  | .doLoop body condition _, h => by
    simp only [Statement.isControl, Bool.and_eq_true] at h
    have hDo : Lays [.write "do "] ["do"] := .of_prints (prints_spaced _ _ rfl (by decide))
    have hCondition : Prints (fun _ => True) (enclosed "(" (expression false condition) ")") _ :=
      prints_enclosed .lParen .rParen rfl rfl rfl (expression_shown false condition h.2).prints
    have hWord : Prints (fun _ => True) [.write " while "] ["while"] :=
      prints_padded _ _ rfl (by decide)
    have hWhile : Lays (.write " while " :: enclosed "(" (expression false condition) ")") _ :=
      .of_prints (hWord.append hCondition fun _ _ => trivial)
    exact ((hDo.append (statement_lays body h.1)).append hWhile).append
      (.of_prints (.closed .semicolon rfl))
  | .forLoop init? condition? update? body _, h => by
    simp only [Statement.isControl, Bool.and_eq_true] at h
    have hStart := prints_loop.before (prints_start h.1.1.1)
    have hTest := hStart.append (prints_clause h.1.1.2) fun _ _ => follows_of_isBreak rfl _
    have hHeader := hTest.append (prints_clause h.1.2) fun _ _ => follows_of_isBreak rfl _
    exact hHeader.lays_loop (statement_lays body h.2)
  | .eachLoop var (.identifier id _) collection body _, h => by
    simp only [Statement.isControl, Bool.and_eq_true] at h
    have hVar : Prints (fun _ => True) (if var then [.write "var "] else [])
        (if var then ["var"] else []) := by
      cases var with
      | true => exact prints_spaced "var " "var" rfl (by decide)
      | false => exact .nil
    have hTarget : Prints Follows [.write id.name] [id.name] := .operand (beq_iff_eq.1 h.1.1) rfl
    have hIn : Prints (fun _ => True) [.write " in "] ["in"] := prints_padded _ _ rfl (by decide)
    have hOpening := (prints_loop (F := fun _ => True)).append hVar fun _ _ => trivial
    have hHeader := (hOpening.before hTarget).append
      (hIn.before (expression_shown false collection h.1.2).prints) fun _ _ => follows_of_isBreak rfl _
    exact hHeader.lays_loop (statement_lays body h.2)
  | .breakLoop _, _ => .of_prints (prints_jump .break_ (by decide))
  | .continueLoop _, _ => .of_prints (prints_jump .continue_ (by decide))
  | .returnValue none _, _ => .of_prints (prints_jump .return_ (by decide))

/-- The steps of each of the statements lay its lexemes out. -/
theorem children_lay : (ss : List Statement) → controlStatements ss = true →
    List.Forall₂ Lays (children ss) (lexemesOfEach ss)
  | [], _ => .nil
  | s :: ss, h => by
    simp only [controlStatements, Bool.and_eq_true] at h
    exact .cons (statement_lays s h.1) (children_lay ss h.2)

end

end Layout

/-- The text of a statement of control flow is put together from its lexemes, in any style. -/
theorem Statement.lexes_scriptText {s : Statement} (h : s.isControl = true) (style : Style) :
    Scan.Lexes (scriptText (some s) style).toList s.lexemes := by
  have hSteps : s.scriptSteps = terminated s (statement s) := by
    cases s <;> rfl
  obtain ⟨chars, hText, hEmits⟩ := statement_lays s h (.new style.indent 0) style.indent.unit_isGap
  have hLexes (gap : List Char) (hGap : gap.all isGap = true) : Lexes (chars ++ gap) s.lexemes := by
    simpa using hEmits gap [] trivial (.nil hGap)
  have hPrint : (Step.print s.scriptSteps style.indent 0).toList = chars := by
    rw [Step.print, hSteps, hText]
    simp [Printer.new]
  simp only [scriptText, Option.map_some, Option.getD_some]
  split
  · rw [String.toList_append, hPrint]
    exact hLexes _ rfl
  · rw [hPrint]
    simpa using hLexes [] rfl

end CfScript
