import CfScript.Ast.Basic

/-!
# Editing a property declaration

A property is declared in the long form, `property name="a" type="b"`, or in the short form,
`property b a`. The name and the type can be set apart from the attributes in both forms, and the form
can be changed: a property that leaves the short form takes its name and type along as attributes.
What a property means is its expanded form, in which everything is an attribute; an attribute that was
written out wins over a name or type that was set.

## Main results

* `expanded_expanded`: expanding twice is expanding once;
* `name?_of_isShort`: the short form always has a name;
* `expanded_setShort`: a change of form keeps the meaning.
-/

namespace CfScript.Property

/-- A property cannot be in the short form without a name. -/
inductive EditError where
  | missingName
deriving DecidableEq, Inhabited

/-- The error in words. -/
def EditError.message : EditError → String
  | missingName => "a shorthand property must have a name"

/-- A property in the long form with nothing but attributes. -/
def ofAttributes {α : Type} (attributes : AttributeMap α) : Property α :=
  ⟨.long none none, attributes⟩

/-- The attribute that an identifier set under `name` stands for; `ofText` makes a value of a text. -/
def folded {α : Type} (ofText : String → α) (name : String) (id? : Option Identifier) :
    List (Attribute α) :=
  id?.toList.map fun id => ⟨⟨name, .dummy⟩, ofText id.name⟩

/-- The long form with the same meaning in which everything is an attribute. -/
def expandedWith {α : Type} (ofText : String → α) (p : Property α) : Property α :=
  if p.name?.isNone && p.type?.isNone then ofAttributes p.attributes
  else
    ofAttributes (.ofList
      (folded ofText "name" p.name? ++ folded ofText "type" p.type? ++ p.attributes.entries))

/-- The long form with the same meaning, where texts are strings in double quotes. -/
def expanded (p : Property Expression) : Property Expression := p.expandedWith .quoted

/-- Changes the form. Leaving the short form expands the property. -/
def setShort (p : Property Expression) (short : Bool) : Except EditError (Property Expression) :=
  match short, p.form with
  | true, .short _ _ => .ok p
  | true, .long none _ => .error .missingName
  | true, .long (some name) type? => .ok { p with form := .short name type? }
  | false, .short _ _ => .ok p.expanded
  | false, .long _ _ => .ok p

/-- Sets the name, or takes it away. -/
def setName (p : Property Expression) (name? : Option Identifier) :
    Except EditError (Property Expression) :=
  match p.form, name? with
  | .long _ type?, name? => .ok { p with form := .long name? type? }
  | .short _ type?, some name => .ok { p with form := .short name type? }
  | .short _ _, none => .error .missingName

/-- Sets the type, or takes it away. -/
def setType (p : Property Expression) (type? : Option Identifier) : Property Expression :=
  match p.form with
  | .long name? _ => { p with form := .long name? type? }
  | .short name _ => { p with form := .short name type? }

theorem name?_of_isShort {α : Type} {p : Property α} (h : p.isShort = true) :
    p.name?.isSome = true := by
  obtain ⟨form, attributes⟩ := p
  cases form with
  | long name? type? => simp [isShort] at h
  | short name type? => rfl

theorem expanded_expanded (p : Property Expression) : p.expanded.expanded = p.expanded := by
  unfold expanded expandedWith
  split <;> rfl

theorem expanded_setShort {p q : Property Expression} {short : Bool}
    (h : p.setShort short = .ok q) : q.expanded = p.expanded := by
  obtain ⟨form, attributes⟩ := p
  cases short with
  | false =>
    cases form with
    | long name? type? =>
      obtain rfl := Except.ok.inj h
      rfl
    | short name type? =>
      obtain rfl := Except.ok.inj h
      exact expanded_expanded _
  | true =>
    cases form with
    | long name? type? =>
      cases name? with
      | none => simp [setShort] at h
      | some name =>
        obtain rfl := Except.ok.inj h
        rfl
    | short name type? =>
      obtain rfl := Except.ok.inj h
      rfl

end CfScript.Property
