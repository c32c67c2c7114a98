import CfScript.Ast.Property
import CfScript.Layout.Printer
import CfScript.Layout.Strength

/-!
# How a program is written

Every node of the program tree has the steps that print it. Parentheses stand where the strength of an
operand asks for them, and in three places where the text would otherwise be read as something else:
around an assignment that is a plain argument, around a struct that is the whole body of a function,
and, as braces, around a branch whose last `if` would take the `else`.

Attributes are written in the order of their element. The steps of the parts of a list are made first
and put together afterwards, so the order never matters for the recursion.

## Main results

* `printed_paren`: an expression in parentheses is written as the expression between them.
-/

namespace CfScript

namespace Layout

/-! ## Putting steps together -/

/-- The parts with a separator between each two. -/
def joined (separator : List Step) : List (List Step) → List Step
  | [] => []
  | [part] => part
  | part :: parts => part ++ separator ++ joined separator parts

/-- The parts after an opening text and before a closing one. -/
def enclosed (opening : String) (steps : List Step) (closing : String) : List Step :=
  .write opening :: steps ++ [.write closing]

/-- The parts of a list of arguments or parameters. -/
def listed (parts : List (List Step)) : List Step := enclosed "(" (joined [.write ", "] parts) ")"

/-- Each part on a line of its own. -/
def onLines (parts : List (List Step)) : List Step := parts.flatMap (.newline :: ·)

/-- A block: the parts on lines of their own, one level deeper, in braces. -/
def braced (parts : List (List Step)) : List Step :=
  if parts.isEmpty then [.write "\x7b\x7d"]
  else [.write "\x7b", .indent] ++ onLines parts ++ [.dedent, .newline, .write "\x7d"]

/-- A string between double quotes. -/
def quotedText (text : String) : List Step := [.write "\"", .write text, .write "\""]

/-- An attribute. -/
def assigned (a : Attribute (List Step)) : List Step :=
  [.write a.name.name, .write "="] ++ a.value

/-- Attributes, each after a space. -/
def afterSpaces (attributes : List (Attribute (List Step))) : List Step :=
  attributes.flatMap (.space :: assigned ·)

/-- The attributes of an element, in its order. -/
def ordered (element : Element) (attributes : List (Attribute (List Step))) : List Step :=
  afterSpaces ((AttributeMap.mk attributes).ordered element.known)

/-- A property declaration. In the long form the name and the type are attributes. -/
def property (p : Property (List Step)) : List Step :=
  match p.form with
  | .long _ _ =>
    .write "property" :: ordered .property (p.expandedWith quotedText).attributes.entries
  | .short name type? =>
    .write "property" :: (type?.toList ++ [name]).flatMap (fun id => [.space, .write id.name]) ++
      ordered .property p.attributes.entries

/-- The head of a function: modifiers, return type and name. -/
def functionHead (modifiers : List Identifier) (returnType? : Option Identifier)
    (name : Identifier) : List Step :=
  (modifiers ++ returnType?.toList).flatMap (fun id => [.write id.name, .space]) ++
    [.write "function ", .write name.name]

/-- An expression at a place: in parentheses if it is not strong enough. The function gives the steps
of the expression in a tight place or not. -/
def atLeast (least : Nat) (tight : Bool) (e : Expression) (written : Bool → List Step) : List Step :=
  if Strength.ofExpression tight e < least then enclosed "(" (written false) ")" else written tight

/-- Whether a space keeps the operator before the operand from running into it. -/
def startsWithSign : Expression → Bool
  | .unary op .. => op == .neg || op == .plus || op == .increment || op == .decrement
  | _ => false

/-- The strength that the right operand of a binary operator needs. A function with an arrow takes
everything to its right, so it needs no parentheses there. -/
def rightStrength (op : BinaryOp) (right : Expression) : Nat :=
  if right.isArrow then Strength.conditional else Strength.binary op + 1

/-- Whether the statement ends with its own brace or with another statement, so that no semicolon
follows it. -/
def isCompound : Statement → Bool
  | .script .. | .block .. | .branch .. | .whileLoop .. | .forLoop .. | .eachLoop .. | .select ..
  | .tryCatch .. | .component .. => true
  | .function _ _ _ _ _ body? _ => body?.isSome
  | .tag _ _ body? _ => body?.isSome
  | _ => false

/-- Whether an `else` after the statement would belong to an `if` inside it. -/
def endsWithOpenIf : Statement → Bool
  | .branch _ _ none _ => true
  | .branch _ _ (some elseBranch) _ => endsWithOpenIf elseBranch
  | .whileLoop _ body _ => endsWithOpenIf body
  | .forLoop _ _ _ body _ => endsWithOpenIf body
  | .eachLoop _ _ _ body _ => endsWithOpenIf body
  | _ => false

/-- A statement in the place of a statement: with a semicolon, unless it is compound. -/
def terminated (s : Statement) (steps : List Step) : List Step :=
  if isCompound s then steps else steps ++ [.write ";"]

/-! ## The steps of every node -/

mutual

/-- The steps of an expression without parentheses around it, in a tight place or not. -/
def expression (tight : Bool) : Expression → List Step
  | .identifier id _ => [.write id.name]
  | .string text quote _ =>
    [.write (String.singleton quote.char), .write text, .write (String.singleton quote.char)]
  | .number text _ => [.write text]
  | .boolean value _ => [.write (if value then "true" else "false")]
  | .null _ => [.write "null"]
  | .binary op left right _ =>
    atLeast (Strength.binary op) tight left (expression · left) ++
      [.space, .write op.text, .space] ++
      atLeast (rightStrength op right) op.tightens right (expression · right)
  | .unary .notWord operand _ =>
    .write UnaryOp.notWord.text ::
      if tight then atLeast Strength.prefixed true operand (expression · operand)
      else atLeast Strength.leadingNot false operand (expression · operand)
  | .unary op operand _ =>
    .write op.text :: (if startsWithSign operand then [.space] else []) ++
      atLeast Strength.prefixed true operand (expression · operand)
  | .postfixOp op operand _ =>
    atLeast Strength.suffixed false operand (expression · operand) ++ [.write op.text]
  | .assignment op target value _ =>
    atLeast Strength.conditional false target (expression · target) ++
      [.space, .write op.text, .space] ++ expression false value
  | .ternary condition thenValue elseValue _ =>
    atLeast Strength.loosestBinary false condition (expression · condition) ++ [.write " ? "] ++
      atLeast Strength.conditional false thenValue (expression · thenValue) ++ [.write " : "] ++
      atLeast Strength.conditional false elseValue (expression · elseValue)
  | .elvis value default _ =>
    atLeast Strength.loosestBinary false value (expression · value) ++ [.write " ?: "] ++
      atLeast Strength.conditional false default (expression · default)
  | .paren inner _ => enclosed "(" (expression false inner) ")"
  | .call callee args _ =>
    atLeast Strength.suffixed false callee (expression · callee) ++ listed (arguments args)
  | .member object property safe _ =>
    atLeast Strength.suffixed false object (expression · object) ++
      [.write (if safe then "?." else "."), .write property.name]
  | .index object index _ =>
    atLeast Strength.suffixed false object (expression · object) ++
      enclosed "[" (expression false index) "]"
  | .array items _ => enclosed "[" (joined [.write ", "] (expressions items)) "]"
  | .struct [] _ => [.write "\x7b\x7d"]
  | .struct (entry :: entries) _ =>
    enclosed "\x7b" (.space :: joined [.write ",", .space] (structEntries (entry :: entries)))
      " \x7d"
  | .new className args _ => [.write "new ", .write className] ++ listed (arguments args)
  | .function arrow params body _ =>
    (if arrow then listed (parameters params) ++ [.write " => "]
      else .write "function" :: listed (parameters params) ++ [.space]) ++ braced (children body)
  | .lambda arrow params value _ =>
    (if arrow then listed (parameters params) ++ [.write " => "]
      else .write "function" :: listed (parameters params) ++ [.space]) ++
      if value.isStruct then enclosed "(" (expression false value) ")" else expression false value

/-- The steps of each of the expressions. -/
def expressions : List Expression → List (List Step)
  | [] => []
  | e :: es => expression false e :: expressions es

/-- The steps of each of the arguments. A plain argument must not look like a named one. -/
def arguments : List (Argument Expression) → List (List Step)
  | [] => []
  | ⟨some name, value⟩ :: args =>
    assigned ⟨name, atLeast Strength.conditional false value (expression · value)⟩ ::
      arguments args
  | ⟨none, value⟩ :: args =>
    (if value.isAssignment then enclosed "(" (expression false value) ")"
      else expression false value) :: arguments args

/-- The steps of each of the struct entries. -/
def structEntries : List (StructEntry Expression) → List (List Step)
  | [] => []
  | ⟨key, separator, value⟩ :: entries =>
    (atLeast Strength.primary false key (expression · key) ++
      .write (match separator with
        | .colon => ": "
        | .equals => " = ") :: expression false value) :: structEntries entries

/-- The attributes with the steps of their values. -/
def attributes : List (Attribute Expression) → List (Attribute (List Step))
  | [] => []
  | ⟨name, value⟩ :: rest =>
    ⟨name, atLeast Strength.conditional false value (expression · value)⟩ :: attributes rest

/-- The steps of each of the parameters. -/
def parameters : List (Parameter Expression) → List (List Step)
  | [] => []
  | ⟨required, type?, name, none, ⟨entries⟩⟩ :: params =>
    ((if required then [.write "required "] else []) ++
      type?.toList.flatMap (fun id => [.write id.name, .space]) ++
      .write name.name :: afterSpaces (attributes entries)) :: parameters params
  | ⟨required, type?, name, some value, ⟨entries⟩⟩ :: params =>
    ((if required then [.write "required "] else []) ++
      type?.toList.flatMap (fun id => [.write id.name, .space]) ++
      [.write name.name, .write " = "] ++
      atLeast Strength.conditional false value (expression · value) ++
      afterSpaces (attributes entries)) :: parameters params

/-- The steps of a statement without the semicolon that ends it. -/
def statement : Statement → List Step
  | .script body _ => joined [.newline] (children body)
  | .block body _ => braced (children body)
  | .expression value _ => expression false value
  | .declare name none _ => [.write "var ", .write name.name]
  | .declare name (some value) _ =>
    [.write "var ", .write name.name, .write " = "] ++ expression false value
  | .branch condition thenBranch none _ =>
    .write "if " :: enclosed "(" (expression false condition) ") " ++
      terminated thenBranch (statement thenBranch)
  | .branch condition thenBranch (some elseBranch) _ =>
    .write "if " :: enclosed "(" (expression false condition) ") " ++
      (if endsWithOpenIf thenBranch then braced [terminated thenBranch (statement thenBranch)]
        else terminated thenBranch (statement thenBranch)) ++
      .write " else " :: terminated elseBranch (statement elseBranch)
  | .whileLoop condition body _ =>
    .write "while " :: enclosed "(" (expression false condition) ") " ++
      terminated body (statement body)
  | .doLoop body condition _ =>
    .write "do " :: terminated body (statement body) ++ .write " while " ::
      enclosed "(" (expression false condition) ")"
  | .forLoop init? condition? update? body _ =>
    .write "for (" :: optionalStatement init? ++ .write ";" :: afterSpace condition? ++
      .write ";" :: afterSpace update? ++ .write ") " :: terminated body (statement body)
  | .eachLoop var target collection body _ =>
    .write "for (" :: (if var then [.write "var "] else []) ++
      atLeast Strength.suffixed false target (expression · target) ++ .write " in " ::
      expression false collection ++ .write ") " :: terminated body (statement body)
  | .select subject cases none _ =>
    .write "switch " :: enclosed "(" (expression false subject) ") " ++ braced (clauses cases)
  | .select subject cases (some body) _ =>
    .write "switch " :: enclosed "(" (expression false subject) ") " ++
      braced (clauses cases ++ [.write "default:" :: .indent :: onLines (children body) ++ [.dedent]])
  | .breakLoop _ => [.write "break"]
  | .continueLoop _ => [.write "continue"]
  | .returnValue value? _ => .write "return" :: afterSpace value?
  | .throwValue value? _ => .write "throw" :: afterSpace value?
  | .abort value? _ => .write "abort" :: afterSpace value?
  | .includeFile value _ => [.write "include", .space] ++ expression false value
  | .importPath path _ => [.write "import ", .write path]
  | .tryCatch body catches none _ =>
    .write "try " :: braced (children body) ++ catchClauses catches
  | .tryCatch body catches (some finally_) _ =>
    .write "try " :: braced (children body) ++ catchClauses catches ++ .write " finally " ::
      braced (children finally_)
  | .function modifiers returnType? name params ⟨entries⟩ none _ =>
    functionHead modifiers returnType? name ++ listed (parameters params) ++
      ordered .function (attributes entries)
  | .function modifiers returnType? name params ⟨entries⟩ (some body) _ =>
    functionHead modifiers returnType? name ++ listed (parameters params) ++
      ordered .function (attributes entries) ++ .space :: braced (children body)
  | .component kind ⟨entries⟩ body _ =>
    .write (Element.component kind).word :: ordered (.component kind) (attributes entries) ++
      .space :: braced (children body)
  | .property ⟨form, ⟨entries⟩⟩ _ => property ⟨form, ⟨attributes entries⟩⟩
  | .tag kind ⟨entries⟩ none _ => .write kind.word :: ordered (.tag kind) (attributes entries)
  | .tag kind ⟨entries⟩ (some body) _ =>
    .write kind.word :: ordered (.tag kind) (attributes entries) ++ .space ::
      braced (children body)

/-- The steps of each of the statements in a list, with the semicolons that end them. -/
def children : List Statement → List (List Step)
  | [] => []
  | s :: ss => terminated s (statement s) :: children ss

/-- The steps of a statement, if there is one. -/
def optionalStatement : Option Statement → List Step
  | none => []
  | some s => statement s

/-- The steps of an expression after a space, if there is one. -/
def afterSpace : Option Expression → List Step
  | none => []
  | some e => .space :: expression false e

/-- The steps of each of the cases of a `switch`. -/
def clauses : List (SwitchCase Expression Statement) → List (List Step)
  | [] => []
  | ⟨value, body⟩ :: cases =>
    (.write "case " :: expression false value ++ .write ":" :: .indent ::
      onLines (children body) ++ [.dedent]) :: clauses cases

/-- The steps of the `catch` clauses. -/
def catchClauses : List (CatchClause Statement) → List Step
  | [] => []
  | ⟨type?, name, body⟩ :: catches =>
    .write " catch (" :: type?.toList.flatMap (fun type => [.write type, .space]) ++
      [.write name.name, .write ") "] ++ braced (children body) ++ catchClauses catches

end

theorem printed_paren (tight : Bool) (inner : Expression) (span : Span) :
    expression tight (.paren inner span) = enclosed "(" (expression false inner) ")" := rfl

end Layout

end CfScript
