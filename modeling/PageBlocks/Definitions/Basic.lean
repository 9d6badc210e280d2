import PageBlocks.Value

/-!
# Definitions

What an author writes: settings, blocks with their fields in three groups, and
layouts. A slot of a field group holds a declaration or a reference to a
generator, a named preset that is expanded when the definitions are registered.
-/

namespace PageBlocks

/-- Builder-wide settings. -/
structure Settings where
  name : String := "builder"
  label : String := "BlockPress"
  description : String := ""
  /-- Types of content items that the compiled field group is attached to. -/
  postTypes : List String := ["post", "page"]
  useCache : Bool := true
  /-- Wrap cache hits in a comment that names the cache key. -/
  cacheMarkers : Bool := true
  /-- Request parameter that asks for a cache bust. -/
  bustParam : String := "bust_cache"
  /-- Add the element id and class fields to every block's configure group. -/
  coreFields : Bool := true
deriving DecidableEq, Repr, Inhabited

/-- A filter over names of entities. -/
inductive NameFilter where
  | any
  | only (names : List String)
  | except (names : List String)
deriving DecidableEq, Repr, Inhabited

namespace NameFilter

/-- Matches no name. -/
def nothing : NameFilter := .only []

def accepts (filter : NameFilter) (name : String) : Bool :=
  match filter with
  | .any => true
  | .only names => names.contains name
  | .except names => !names.contains name

/-- Names that the filter mentions. -/
def named : NameFilter → List String
  | .any => []
  | .only names => names
  | .except names => names

end NameFilter

/-- Which parents may contain a block. Without rules every parent may; once rules are given, a
type of parent that they leave out may not. -/
structure CompatibilityRules where
  block : NameFilter := .any
  layout : NameFilter := .any
deriving DecidableEq, Repr, Inhabited

/-- A reference to a generator of fields. -/
structure GeneratorRef where
  generator : String
  args : List Value := []
deriving Repr, Inhabited

/-- A test of one sibling field. -/
structure ConditionRule where
  /-- Name of the sibling. -/
  field : String
  operator : String := "=="
  value : Value
deriving Repr, Inhabited

/-- A visibility rule as written. -/
inductive Condition where
  /-- Visible when one sibling matches. -/
  | rule (r : ConditionRule)
  /-- Visible when all rules of one of the clauses hold. -/
  | anyOf (clauses : List (List ConditionRule))
deriving Repr, Inhabited

/-- The alternatives, each a list of rules that must hold together. -/
def Condition.clauses : Condition → List (List ConditionRule)
  | .rule r => [[r]]
  | .anyOf clauses => clauses

/-- What a field declares besides its name and its sub-fields. -/
structure FieldAttributes where
  label : Option String := none
  type : String
  instructions : Option String := none
  required : Bool := false
  defaultValue : Option Value := none
  /-- Visibility, by names of sibling fields. -/
  condition : Option Condition := none
  /-- Blocks offered by a collection, if not those of the owning entity. -/
  blocks : Option NameFilter := none
  /-- Options of the field type, passed through to the compiled field. -/
  options : Dict Value := .empty
deriving Inhabited

mutual
/-- A field as declared. -/
structure FieldDeclaration where
  name : Option String
  attributes : FieldAttributes
  /-- Row template of group and repeater fields. -/
  subFields : List FieldSlot

/-- A slot of a field group. -/
inductive FieldSlot where
  | generated (ref : GeneratorRef)
  | literal (declaration : FieldDeclaration)
end

instance : Inhabited FieldDeclaration := ⟨⟨none, default, []⟩⟩
instance : Inhabited FieldSlot := ⟨.generated default⟩

namespace FieldDeclaration

/-- The declared name, or the empty name. -/
def givenName (d : FieldDeclaration) : String := d.name.getD ""

/-- The declarations among the sub-field slots. -/
def literalSubFields (d : FieldDeclaration) : List FieldDeclaration :=
  d.subFields.filterMap fun slot =>
    match slot with
    | .literal declaration => some declaration
    | .generated _ => none

end FieldDeclaration

/-- The shape of a block. -/
inductive BlockKind where
  | basic
  /-- Owns one collection of nested blocks. -/
  | container
  /-- Owns a repeater whose rows each hold a collection of nested blocks. -/
  | repeating
deriving DecidableEq, Repr, Inhabited

namespace BlockKind

def all : List BlockKind := [.basic, .container, .repeating]

def name : BlockKind → String
  | .basic => "basic"
  | .container => "container"
  | .repeating => "repeating"

def ofName? (s : String) : Option BlockKind := all.find? fun k => k.name == s

end BlockKind

/-- A block as defined. -/
structure BlockDefinition where
  label : Option String := none
  description : String := ""
  kind : BlockKind := .basic
  display : String := "block"
  content : List FieldSlot := []
  customise : List FieldSlot := []
  configure : List FieldSlot := []
  /-- Blocks that may be nested in this block's collections. -/
  blocks : NameFilter := .any
  rules : CompatibilityRules := {}
deriving Inhabited

/-- A layout as defined. -/
structure LayoutDefinition where
  label : Option String := none
  description : String := ""
  instructions : String := ""
  blocks : NameFilter := .any
  buttonLabel : String := "Add Block"
deriving DecidableEq, Repr, Inhabited

/-- The contents of a definition file. -/
structure Definitions where
  settings : Settings := {}
  /-- Patterns of further definition files, relative to the data directory. -/
  includes : List String := []
  blocks : Dict BlockDefinition := .empty
  layouts : Dict LayoutDefinition := .empty
deriving Inhabited

end PageBlocks
