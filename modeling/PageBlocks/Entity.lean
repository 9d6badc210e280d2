/-!
# Entities and field groups

The two vocabularies that definitions, compiled nodes and errors share: which
entity a node was declared by, and which of the three editor groups of a block
a field belongs to.
-/

namespace PageBlocks

/-- What kind of entity owns a node. -/
inductive EntityType where
  | builder
  | layout
  | block
deriving DecidableEq, Repr, Inhabited

namespace EntityType

def all : List EntityType := [.builder, .layout, .block]

def name : EntityType → String
  | .builder => "builder"
  | .layout => "layout"
  | .block => "block"

def ofName? (s : String) : Option EntityType := all.find? fun t => t.name == s

end EntityType

/-- An entity by type and name. -/
structure EntityRef where
  type : EntityType
  name : String
deriving DecidableEq, Repr, Inhabited

/-- An entity as messages name it. -/
def EntityRef.display (ref : EntityRef) : String := ref.type.name ++ " '" ++ ref.name ++ "'"

/-- The editor groups of a block's fields. -/
inductive FieldGroup where
  | content
  | customise
  | configure
deriving DecidableEq, Repr, Inhabited

namespace FieldGroup

/-- The groups in the order they are shown and searched. -/
def all : List FieldGroup := [.content, .customise, .configure]

def name : FieldGroup → String
  | .content => "content"
  | .customise => "customise"
  | .configure => "configure"

/-- The label of the group's tab. -/
def label : FieldGroup → String
  | .content => "Content"
  | .customise => "Customise"
  | .configure => "Configure"

def ofName? (s : String) : Option FieldGroup := all.find? fun g => g.name == s

/-- Name of the tab marker that opens the group. -/
def tabName (g : FieldGroup) : String := "blockpress_" ++ g.name

end FieldGroup

end PageBlocks
