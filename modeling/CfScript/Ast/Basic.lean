import CfScript.Ast.Attribute
import CfScript.Ast.Element
import CfScript.Ast.Operator

/-!
# The program tree

Expressions and statements as the programmer thinks of them: no punctuation, one node per operation.
Parentheses are kept, because they were written on purpose. Texts are kept as written: the value of a
string is what stands between its quotes, and a number is its digits.

Every node carries its span, which says where it stands and nothing about what it means.

The parts that occur in lists (arguments, parameters, cases) are structures over the type of the
expressions and statements in them, so that their operations can be stated once.

## Main results

* `Statement.owned_property`: a property owns the values of its attributes, then its name and type.
-/

namespace CfScript

/-- The quote around a string. -/
inductive Quote where
  | single
  | double
deriving DecidableEq, Inhabited

/-- The quote as a character. -/
def Quote.char : Quote → Char
  | single => '\''
  | double => '"'

/-- An argument of a call, possibly under a name. -/
structure Argument (α : Type) where
  name? : Option Identifier
  value : α
deriving Inhabited

/-- What stands between a key and its value. -/
inductive Separator where
  | colon
  | equals
deriving DecidableEq, Inhabited

/-- The separator as it is written. -/
def Separator.text : Separator → String
  | colon => ":"
  | equals => "="

/-- A key with a value. -/
structure StructEntry (α : Type) where
  key : α
  separator : Separator
  value : α
deriving Inhabited

/-- A parameter of a function. -/
structure Parameter (α : Type) where
  required : Bool := false
  type? : Option Identifier := none
  name : Identifier
  default? : Option α := none
  attributes : AttributeMap α := {}
deriving Inhabited

/-- How a property is declared. The long form may remember a name and a type that were set on it; the
short form always has a name. -/
inductive PropertyForm where
  | long (name? type? : Option Identifier)
  | short (name : Identifier) (type? : Option Identifier)
deriving Inhabited

/-- A property declaration. -/
structure Property (α : Type) where
  form : PropertyForm
  attributes : AttributeMap α
deriving Inhabited

/-- A case of a `switch`: a value and the statements that follow it. -/
structure SwitchCase (α β : Type) where
  value : α
  body : List β
deriving Inhabited

/-- A `catch` clause: the type of exception, if it is given, and the variable that holds it. -/
structure CatchClause (β : Type) where
  type? : Option String
  name : Identifier
  body : List β
deriving Inhabited

mutual

/-- An expression. -/
inductive Expression where
  | identifier (id : Identifier) (span : Span)
  /-- A string; the text is what stands between the quotes, with doubled quotes as written. -/
  | string (text : String) (quote : Quote) (span : Span)
  | number (text : String) (span : Span)
  | boolean (value : Bool) (span : Span)
  | null (span : Span)
  | binary (op : BinaryOp) (left right : Expression) (span : Span)
  | unary (op : UnaryOp) (operand : Expression) (span : Span)
  | postfixOp (op : PostfixOp) (operand : Expression) (span : Span)
  | assignment (op : AssignOp) (target value : Expression) (span : Span)
  | ternary (condition thenValue elseValue : Expression) (span : Span)
  /-- A value, or the default where there is none. -/
  | elvis (value default : Expression) (span : Span)
  | paren (inner : Expression) (span : Span)
  | call (callee : Expression) (args : List (Argument Expression)) (span : Span)
  /-- A member of an object; the safe access gives null on a null object. -/
  | member (object : Expression) (property : Identifier) (safe : Bool) (span : Span)
  | index (object index : Expression) (span : Span)
  | array (items : List Expression) (span : Span)
  | struct (entries : List (StructEntry Expression)) (span : Span)
  | new (className : String) (args : List (Argument Expression)) (span : Span)
  /-- A function whose body is a block, written with an arrow or with its keyword. -/
  | function (arrow : Bool) (params : List (Parameter Expression)) (body : List Statement)
    (span : Span)
  /-- A function whose body is one expression. -/
  | lambda (arrow : Bool) (params : List (Parameter Expression)) (value : Expression) (span : Span)

/-- A statement. -/
inductive Statement where
  /-- The statements of a whole script. -/
  | script (body : List Statement) (span : Span)
  | block (body : List Statement) (span : Span)
  | expression (value : Expression) (span : Span)
  | declare (name : Identifier) (value? : Option Expression) (span : Span)
  | branch (condition : Expression) (thenBranch : Statement) (elseBranch? : Option Statement)
    (span : Span)
  | whileLoop (condition : Expression) (body : Statement) (span : Span)
  | doLoop (body : Statement) (condition : Expression) (span : Span)
  /-- A counting loop; its start is a declaration or an expression. -/
  | forLoop (init? : Option Statement) (condition? update? : Option Expression) (body : Statement)
    (span : Span)
  /-- A loop over a collection; `var` says that the target is declared. -/
  | eachLoop (var : Bool) (target collection : Expression) (body : Statement) (span : Span)
  | select (subject : Expression) (cases : List (SwitchCase Expression Statement))
    (default? : Option (List Statement)) (span : Span)
  | breakLoop (span : Span)
  | continueLoop (span : Span)
  | returnValue (value? : Option Expression) (span : Span)
  | throwValue (value? : Option Expression) (span : Span)
  | abort (value? : Option Expression) (span : Span)
  | includeFile (value : Expression) (span : Span)
  /-- The path is kept as written. -/
  | importPath (path : String) (span : Span)
  | tryCatch (body : List Statement) (catches : List (CatchClause Statement))
    (finally? : Option (List Statement)) (span : Span)
  /-- A named function; one without a body is a signature. -/
  | function (modifiers : List Identifier) (returnType? : Option Identifier) (name : Identifier)
    (params : List (Parameter Expression)) (attributes : AttributeMap Expression)
    (body? : Option (List Statement)) (span : Span)
  | component (kind : ComponentKind) (attributes : AttributeMap Expression) (body : List Statement)
    (span : Span)
  | property (declaration : Property Expression) (span : Span)
  | tag (kind : TagKind) (attributes : AttributeMap Expression) (body? : Option (List Statement))
    (span : Span)

end

namespace Expression

/-- Where the expression stands. -/
def span : Expression → Span
  | identifier _ span | string _ _ span | number _ span | boolean _ span | null span
  | binary _ _ _ span | unary _ _ span | postfixOp _ _ span | assignment _ _ _ span
  | ternary _ _ _ span | elvis _ _ span | paren _ span | call _ _ span | member _ _ _ span
  | index _ _ span | array _ span | struct _ span | new _ _ span | function _ _ _ span
  | lambda _ _ _ span => span

instance : Inhabited Expression := ⟨.null .dummy⟩

/-- The expression that is just an identifier, where the identifier stands. -/
def ofIdentifier (id : Identifier) : Expression := identifier id id.span

/-- A string in double quotes that stands nowhere. -/
def quoted (text : String) : Expression := string text .double .dummy

/-- The text of a string. -/
def asString? : Expression → Option String
  | string text _ _ => some text
  | _ => none

/-- The identifier of an expression that is just an identifier. -/
def asIdentifier? : Expression → Option Identifier
  | identifier id _ => some id
  | _ => none

/-- Whether the expression is an assignment. -/
def isAssignment : Expression → Bool
  | assignment .. => true
  | _ => false

/-- Whether the expression is a struct. -/
def isStruct : Expression → Bool
  | struct .. => true
  | _ => false

/-- Whether the expression is a function written with an arrow. -/
def isArrow : Expression → Bool
  | function arrow _ _ _ => arrow
  | lambda arrow _ _ _ => arrow
  | _ => false

end Expression

namespace Property

variable {α : Type}

/-- The name outside the attributes. -/
def name? (p : Property α) : Option Identifier :=
  match p.form with
  | .long name? _ => name?
  | .short name _ => some name

/-- The type outside the attributes. -/
def type? (p : Property α) : Option Identifier :=
  match p.form with
  | .long _ type? => type?
  | .short _ type? => type?

/-- Whether the property is in the short form. -/
def isShort (p : Property α) : Bool :=
  match p.form with
  | .long _ _ => false
  | .short _ _ => true

end Property

namespace Statement

instance : Inhabited Statement := ⟨.breakLoop .dummy⟩

/-- Where the statement stands. -/
def span : Statement → Span
  | script _ span | block _ span | expression _ span | declare _ _ span | branch _ _ _ span
  | whileLoop _ _ span | doLoop _ _ span | forLoop _ _ _ _ span | eachLoop _ _ _ _ span
  | select _ _ _ span | breakLoop span | continueLoop span | returnValue _ span | throwValue _ span
  | abort _ span | includeFile _ span | importPath _ span | tryCatch _ _ _ span
  | function _ _ _ _ _ _ span | component _ _ _ span | property _ span | tag _ _ _ span => span

/-- The element that the statement declares or uses. -/
def element? : Statement → Option Element
  | function .. => some .function
  | component kind .. => some (.component kind)
  | property .. => some .property
  | tag kind .. => some (.tag kind)
  | _ => none

/-- The attributes of a statement that carries some. -/
def attributes? : Statement → Option (AttributeMap Expression)
  | function _ _ _ _ attributes _ _ => some attributes
  | component _ attributes _ _ => some attributes
  | property declaration _ => some declaration.attributes
  | tag _ attributes _ _ => some attributes
  | _ => none

/-- The statement with other attributes, if it carries some. -/
def withAttributes (attributes : AttributeMap Expression) : Statement → Statement
  | function modifiers returnType? name params _ body? span =>
    function modifiers returnType? name params attributes body? span
  | component kind _ body span => component kind attributes body span
  | property declaration span => property { declaration with attributes } span
  | tag kind _ body? span => tag kind attributes body? span
  | s => s

/-- The expressions of a parameter: its default, then the values of its attributes. -/
def ofParameter (p : Parameter Expression) : List Expression :=
  p.default?.toList ++ p.attributes.values

/-- The expressions of a property: the values of its attributes, then its name and its type. -/
def ofProperty (p : Property Expression) : List Expression :=
  p.attributes.values ++ (p.name?.toList ++ p.type?.toList).map .ofIdentifier

/-- The expressions that stand in the statement itself, not in a statement inside it. -/
def owned : Statement → List Expression
  | expression value _ => [value]
  | declare _ value? _ => value?.toList
  | branch condition .. => [condition]
  | whileLoop condition .. => [condition]
  | doLoop _ condition _ => [condition]
  | forLoop _ condition? update? _ _ => condition?.toList ++ update?.toList
  | eachLoop _ target collection _ _ => [target, collection]
  | select subject cases _ _ => subject :: cases.map (·.value)
  | returnValue value? _ => value?.toList
  | throwValue value? _ => value?.toList
  | abort value? _ => value?.toList
  | includeFile value _ => [value]
  | function _ _ _ params attributes _ _ => attributes.values ++ params.flatMap ofParameter
  | component _ attributes _ _ => attributes.values
  | property declaration _ => ofProperty declaration
  | tag _ attributes _ _ => attributes.values
  | _ => []

/-- The statements that stand in a list in the statement: those of a script, a block, a component, a
function or a tag. -/
def body? : Statement → Option (List Statement)
  | script body _ => some body
  | block body _ => some body
  | function _ _ _ _ _ body? _ => body?
  | component _ _ body _ => some body
  | tag _ _ body? _ => body?
  | _ => none

/-- The statement at a path of places in such lists. -/
def part? (s : Statement) : List Nat → Option Statement
  | [] => some s
  | i :: path => s.body?.bind fun body => body[i]?.bind (·.part? path)

theorem owned_property (declaration : Property Expression) (span : Span) :
    (property declaration span).owned =
      declaration.attributes.values ++ declaration.name?.toList.map .ofIdentifier ++
        declaration.type?.toList.map .ofIdentifier := by
  simp [owned, ofProperty]

end Statement

end CfScript
