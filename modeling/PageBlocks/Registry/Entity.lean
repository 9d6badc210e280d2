import PageBlocks.Definitions.Basic
import PageBlocks.Definitions.Generator
import PageBlocks.Entity

/-!
# Registered entities

A registered block or layout. Its fields are resolved: every field has a name,
and no reference to a generator is left at any depth.
-/

namespace PageBlocks

/-- A resolved field. -/
structure Field where
  name : String
  attributes : FieldAttributes
  subFields : List Field
deriving Inhabited

mutual
/-- The declaration that a resolved field amounts to. -/
def Field.toDeclaration : Field → FieldDeclaration
  | ⟨name, attributes, subFields⟩ => ⟨some name, attributes, Field.toSlots subFields⟩

/-- Resolved fields as slots. -/
def Field.toSlots : List Field → List FieldSlot
  | [] => []
  | f :: fs => .literal f.toDeclaration :: Field.toSlots fs
end

/-- A field with a name, a label and a type. -/
def Field.simple (name label type : String) : Field :=
  ⟨name, { label := some label, type := type }, []⟩

/-- The resolved fields of a block, by group. -/
structure FieldGroups where
  content : List Field := []
  customise : List Field := []
  configure : List Field := []
deriving Inhabited

namespace FieldGroups

def get (fields : FieldGroups) : FieldGroup → List Field
  | .content => fields.content
  | .customise => fields.customise
  | .configure => fields.configure

def isEmpty (fields : FieldGroups) : Bool := FieldGroup.all.all fun g => (fields.get g).isEmpty

end FieldGroups

/-- What an entity is registered as. -/
inductive EntityKind where
  | block (kind : BlockKind)
  | layout
deriving DecidableEq, Repr, Inhabited

/-- A registered block or layout. -/
structure Entity where
  name : String
  label : String
  description : String
  instructions : String
  kind : EntityKind
  display : String
  buttonLabel : String
  fields : FieldGroups
  /-- Blocks that may be nested directly inside. -/
  children : NameFilter
  /-- Parents that may contain this entity. -/
  rules : CompatibilityRules
deriving Inhabited

namespace Entity

def isLayout (e : Entity) : Bool := e.kind == .layout

def isBlock (e : Entity) : Bool :=
  match e.kind with
  | .block _ => true
  | .layout => false

/-- Blocks that own a collection of nested blocks. -/
def isContainer (e : Entity) : Bool := e.kind == .block .container || e.kind == .block .repeating

def isRepeating (e : Entity) : Bool := e.kind == .block .repeating

def ref (e : Entity) : EntityRef :=
  { type := if e.isLayout then .layout else .block, name := e.name }

/-- Whether an entity may be nested directly inside a parent. Layouts never are. -/
def fitsIn (e parent : Entity) : Bool :=
  e.isBlock &&
    match parent.kind with
    | .layout => e.rules.layout.accepts parent.name
    | .block _ => e.rules.block.accepts parent.name

end Entity

/-- The closed set of blocks and layouts, with the settings and the hash of the definitions it was
built from. -/
structure Registry where
  settings : Settings
  blocks : Dict Entity
  layouts : Dict Entity
  sourceHash : String
deriving Inhabited

namespace Registry

def block? (r : Registry) (name : String) : Option Entity := r.blocks.get? name

def layout? (r : Registry) (name : String) : Option Entity := r.layouts.get? name

/-- The blocks that a filter selects. A list keeps its own order, with its repetitions; names of
unknown blocks are passed over. Any other filter walks the blocks by name. -/
def candidates (r : Registry) (filter : NameFilter) : List Entity :=
  match filter with
  | .only names => names.filterMap r.block?
  | .any | .except _ => r.blocks.values.filter fun e => filter.accepts e.name

/-- Names in a filter's list that are no blocks. -/
def unknownNames (r : Registry) (filter : NameFilter) : List String :=
  match filter with
  | .only names => names.filter fun name => (r.block? name).isNone
  | _ => []

end Registry

end PageBlocks
