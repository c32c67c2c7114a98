import CfScript.Ast.Basic
import CfScript.Diagnostic.Log

/-!
# Checking the names of attributes

An attribute should be one that its element knows, or one that the caller vouches for, and should be
given once. What comes of an attribute that is not depends on the policy: nothing, a warning or an
error. The check never stops a build.

## Main results

* `validate_ignore`: under the policy that ignores, no finding is made;
* `validate_of_accepts`: a statement whose attributes are all accepted passes.
-/

namespace CfScript

/-- What comes of an attribute that should not be there. -/
inductive AttributePolicy where
  | ignore
  | warn
  | deny
deriving DecidableEq, Inhabited

/-- The severity of a finding about an attribute, if one is made. -/
def AttributePolicy.severity? : AttributePolicy → Option Severity
  | ignore => none
  | warn => some .warning
  | deny => some .error

/-- How attributes are checked. -/
structure AttributeRules where
  policy : AttributePolicy := .warn
  /-- Whether the caller knows the attribute on the element, both given by name. -/
  vouches : String → String → Bool := fun _ _ => false

namespace AttributeRules

/-- Whether an attribute may stand on an element. -/
def accepts (rules : AttributeRules) (element : Element) (name : String) : Bool :=
  element.knows name || rules.vouches element.word name

/-- The finding about an attribute. -/
def finding? (rules : AttributeRules) (code : ErrorCode) (name : Identifier) (line : LineNumber)
    (message label : String) (notes : List String) : Option Diagnostic :=
  rules.policy.severity?.map fun severity =>
    { severity, phase := .validation, code := some code, message, span := name.span, line,
      context := name.name, labels := [⟨name.span, label⟩], notes }

/-- The finding about an attribute that its element does not know. -/
def unknown? (rules : AttributeRules) (element : Element) (name : Identifier) (line : LineNumber) :
    Option Diagnostic :=
  rules.finding? .unknownAttribute name line
    ("unknown attribute '" ++ name.name ++ "' on " ++ element.word) "not a valid attribute"
    ["valid attributes: " ++ String.intercalate ", " element.known]

/-- The finding about an attribute that is given again; `owner` is the word for what it stands on. -/
def repeated? (rules : AttributeRules) (owner : String) (name : Identifier) (line : LineNumber) :
    Option Diagnostic :=
  rules.finding? .duplicateAttribute name line
    ("attribute '" ++ name.name ++ "' given more than once on " ++ owner)
    "this value replaces the earlier one" []

end AttributeRules

/-- The findings about the attributes of a statement, without those of the statements inside it. -/
def Statement.validate (s : Statement) (rules : AttributeRules) : List Diagnostic :=
  match s.element?, s.attributes? with
  | some element, some attributes =>
    ((attributes.unknown element.known).filter fun a => !rules.accepts element a.name.name).filterMap
      fun a => rules.unknown? element a.name 0
  | _, _ => []

theorem Statement.validate_ignore (s : Statement) (vouches : String → String → Bool) :
    s.validate ⟨.ignore, vouches⟩ = [] := by
  unfold validate
  split
  · simp [AttributeRules.unknown?, AttributeRules.finding?, AttributePolicy.severity?]
  · rfl

theorem Statement.validate_of_accepts (s : Statement) (rules : AttributeRules)
    (h : ∀ element, s.element? = some element → ∀ attributes, s.attributes? = some attributes →
      ∀ a ∈ attributes.entries, rules.accepts element a.name.name = true) :
    s.validate rules = [] := by
  unfold validate
  split
  · next element attributes hElement hAttributes =>
    have hAll := h element hElement attributes hAttributes
    rw [List.filter_eq_nil_iff.2, List.filterMap_nil]
    intro a ha
    simp [hAll a (List.mem_filter.1 ha).1]
  · rfl

end CfScript
