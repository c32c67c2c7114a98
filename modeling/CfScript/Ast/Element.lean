import CfScript.Text.Fold

/-!
# Elements and their attributes

A statement that carries attributes belongs to an element: a component, an interface, a function, a
property or a tag. Each element has a word that names it and a list of attribute names that are valid
on it. The order of the list is the order in which the attributes are written out.

## Main results

* `TagKind.ofWord?_word`, `Element.ofWord?_word`: a tag and an element are found by their own words;
* `Element.nodup_known`: no element lists an attribute twice.
-/

namespace CfScript

/-- What a component declaration declares. -/
inductive ComponentKind where
  | component
  | interface
deriving DecidableEq, Inhabited

/-- The tags that can be written as statements. -/
inductive TagKind where
  | lock
  | transaction
  | thread
  | saveContent
  | param
  | setting
  | location
  | exit
deriving DecidableEq, Inhabited

namespace TagKind

/-- All tags. -/
def all : List TagKind :=
  [lock, transaction, thread, saveContent, param, setting, location, exit]

/-- The word of the tag. -/
def word : TagKind → String
  | lock => "lock"
  | transaction => "transaction"
  | thread => "thread"
  | saveContent => "savecontent"
  | param => "param"
  | setting => "setting"
  | location => "location"
  | exit => "exit"

/-- The tag of a word in any letter case. -/
def ofWord? (word : String) : Option TagKind := all.find? (Text.sameName ·.word word)

/-- The attribute names that are valid on the tag. -/
def known : TagKind → List String
  | lock => ["NAME", "SCOPE", "TIMEOUT", "TYPE", "THROWONTIMEOUT"]
  | transaction => ["ACTION", "ISOLATION", "SAVEPOINT", "NESTED"]
  | thread => ["NAME", "ACTION", "PRIORITY", "TIMEOUT", "DURATION"]
  | saveContent => ["VARIABLE", "APPEND"]
  | param => ["NAME", "TYPE", "DEFAULT", "MIN", "MAX", "PATTERN", "MAXLENGTH"]
  | setting => ["ENABLECFOUTPUTONLY", "REQUESTTIMEOUT", "SHOWDEBUGOUTPUT"]
  | location => ["URL", "ADDTOKEN", "STATUSCODE"]
  | exit => ["METHOD"]

theorem ofWord?_word (kind : TagKind) : ofWord? kind.word = some kind := by
  cases kind <;> rfl

end TagKind

/-- What a statement with attributes belongs to. -/
inductive Element where
  | component (kind : ComponentKind)
  | function
  | property
  | tag (kind : TagKind)
deriving DecidableEq, Inhabited

namespace Element

/-- The word that names the element. -/
def word : Element → String
  | component .component => "component"
  | component .interface => "interface"
  | function => "function"
  | property => "property"
  | tag kind => kind.word

/-- All elements. -/
def all : List Element :=
  [component .component, component .interface, function, property] ++ TagKind.all.map tag

/-- The element that a word names. -/
def ofWord? (word : String) : Option Element := all.find? (·.word == word)

/-- The attribute names that are valid on the element, in the order in which they are written. -/
def known : Element → List String
  | component .component =>
    ["EXTENDS", "IMPLEMENTS", "OUTPUT", "DISPLAYNAME", "HINT", "ACCESSORS", "PERSISTENT",
      "SERIALIZABLE", "ALIAS", "BINDINGNAME", "NAMESPACE", "PORTTYPENAME", "SERVICEPORTNAME",
      "STYLE", "WSDLFILE", "MAPPEDSUPERCLASS", "TABLE", "ENTITYNAME", "DATASOURCE", "CACHEUSE",
      "CACHENAME", "READONLY", "DYNAMICINSERT", "DYNAMICUPDATE", "BATCHSIZE", "LAZY",
      "OPTIMISTICLOCK", "SCHEMA", "CATALOG", "DISCRIMINATORVALUE", "DISCRIMINATORCOLUMN",
      "JOINCOLUMN", "EMBEDDED", "INITMETHOD", "INVOKEIMPLICITACCESSOR", "ABSTRACT", "FINAL"]
  | component .interface => ["EXTENDS", "DISPLAYNAME", "HINT"]
  | function =>
    ["ACCESS", "RETURNTYPE", "NAME", "ROLES", "OUTPUT", "DISPLAYNAME", "HINT", "DESCRIPTION",
      "RETURNFORMAT", "SECUREJSON", "VERIFYCLIENT", "CACHEDWITHIN"]
  | property => ["NAME", "TYPE", "DEFAULT", "MIN", "MAX", "PATTERN"]
  | tag kind => kind.known

/-- Whether an attribute name is valid on the element, in any letter case. -/
def knows (element : Element) (name : String) : Bool := element.known.any (Text.sameName · name)

theorem mem_all (element : Element) : element ∈ all := by
  cases element with
  | component kind => cases kind <;> decide
  | tag kind => cases kind <;> decide
  | _ => decide

theorem ofWord?_word (element : Element) : ofWord? element.word = some element := by
  cases element with
  | component kind => cases kind <;> decide
  | tag kind => cases kind <;> decide
  | _ => decide

theorem nodup_known (element : Element) : element.known.Nodup := by
  cases element with
  | component kind => cases kind <;> decide
  | tag kind => cases kind <;> decide
  | _ => decide

end Element

end CfScript
