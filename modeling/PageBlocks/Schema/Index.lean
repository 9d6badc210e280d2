import PageBlocks.Schema.FieldKind
import PageBlocks.Entity

/-!
# The flat index

What every id of a compiled tree stands for. The index is filled while a tree
is compiled and published with it; rows are read and written by it alone, so a
recorded schema can read stored rows without the definitions it came from.

Beside the entries it keeps, for every parent, the ids of its children by slot,
the ids of the layouts by name, and the ids of the controls of the builder.
-/

namespace PageBlocks

/-- What a compiled node is. -/
inductive NodeType where
  /-- The top-level collection of a layout. -/
  | layout
  /-- A block variant in a collection. -/
  | block
  | field (kind : FieldKind)
deriving DecidableEq, Repr, Inhabited

/-- What an id stands for. -/
structure IndexEntry where
  key : String
  name : String
  /-- The entity that declared the node. -/
  entity : EntityRef
  group : Option FieldGroup
  node : NodeType
  /-- Id of the block, collection or row field directly around the node. -/
  parent : Option String
  /-- The layout that the node belongs to. -/
  layout : Option String
  isBoundary : Bool
  returnFormat : Option String
deriving DecidableEq, Repr, Inhabited

namespace IndexEntry

def kind? (e : IndexEntry) : Option FieldKind :=
  match e.node with
  | .field kind => some kind
  | _ => none

def isTab (e : IndexEntry) : Bool := e.node == .field .tab

/-- Holds rows of block variants. -/
def isCollection (e : IndexEntry) : Bool :=
  match e.node with
  | .layout => true
  | .block => false
  | .field kind => kind.isBlockCollection

end IndexEntry

/-- How stored values of a node are built up. -/
inductive Shape where
  /-- Rows of block variants. -/
  | collection
  /-- Rows of sub-fields. -/
  | rows
  /-- One object of sub-fields. -/
  | fields
  /-- A value of a field kind. -/
  | leaf (kind : FieldKind)
  /-- No value of its own. -/
  | bare
deriving DecidableEq, Repr

/-- How stored values of a node are built up. -/
def NodeType.shape : NodeType → Shape
  | .layout => .collection
  | .block => .bare
  | .field kind =>
    if kind.isBlockCollection then .collection
    else if kind == .repeater then .rows
    else if kind == .group then .fields
    else .leaf kind

structure FlatIndex where
  entries : Dict IndexEntry := .empty
  /-- Ids of children, by parent and slot. -/
  children : Dict (Dict String) := .empty
  /-- Ids of the layouts' collections. -/
  layouts : Dict String := .empty
  /-- Ids of the builder's own fields, `enabled` and `layout`. -/
  controls : Dict String := .empty
deriving DecidableEq, Inhabited

namespace FlatIndex

def empty : FlatIndex := {}

def lookup (index : FlatIndex) (id : String) : Option IndexEntry := index.entries.get? id

def size (index : FlatIndex) : Nat := index.entries.size

/-- Entries ordered by the ids they carry. -/
def listing (index : FlatIndex) : List IndexEntry :=
  index.entries.values.mergeSort fun a b => !decide (b.key < a.key)

/-- Where a child stands among the children of its parent. -/
def slot (group : Option FieldGroup) (name : String) : String :=
  match group with
  | some g => g.name ++ "/" ++ name
  | none => name

/-- Id of the child with a name directly under a parent. -/
def childKey (index : FlatIndex) (parent : String) (group : Option FieldGroup) (name : String) :
    Option String :=
  (index.children.get? parent).bind fun slots => slots.get? (slot group name)

/-- The entry of the child with a name directly under a parent. -/
def child? (index : FlatIndex) (parent : String) (group : Option FieldGroup) (name : String) :
    Option IndexEntry :=
  (index.childKey parent group name).bind index.lookup

/-- The entry of an id directly under a parent. -/
def childEntry? (index : FlatIndex) (parent id : String) : Option IndexEntry :=
  (index.lookup id).filter fun e => e.parent == some parent

/-- The block variant that a row of a collection names, by the name of the block or by its id. -/
def resolveVariant (index : FlatIndex) (collection tag : String) : Option IndexEntry :=
  (index.child? collection none tag <|> index.childEntry? collection tag).filter fun e =>
    e.node == .block

def layoutKey (index : FlatIndex) (layout : String) : Option String := index.layouts.get? layout

/-- Names of the layouts, ascending. -/
def layoutNames (index : FlatIndex) : List String := index.layouts.keys

/-- The layout that a select names, by the name of the layout or by that of its field. -/
def layoutByChoice (index : FlatIndex) (choice : String) : Option String :=
  if index.layouts.contains choice then some choice
  else
    (index.layouts.entries.find? fun (_, key) =>
      (index.lookup key).any fun e => e.name == choice).map (·.1)

def controlKey (index : FlatIndex) (control : String) : Option String := index.controls.get? control

/-- The control that an entry is, if the builder itself declares it. -/
def controlName? (e : IndexEntry) : Option String :=
  if e.entity.type == .builder && e.parent.isNone then
    let lead := (e.entity.name ++ "_").toList
    if lead.isPrefixOf e.name.toList then some (String.ofList (e.name.toList.drop lead.length))
    else none
  else none

/-- The children with one more. -/
def addChild (children : Dict (Dict String)) (e : IndexEntry) : Dict (Dict String) :=
  match e.parent with
  | some parent =>
    children.insert parent
      (((children.get? parent).getD .empty).insert (slot e.group e.name) e.key)
  | none => children

/-- Registers a node, unless its id is taken. -/
def insert? (index : FlatIndex) (e : IndexEntry) : Option FlatIndex :=
  if index.entries.contains e.key then none
  else
    some {
      entries := index.entries.insert e.key e
      children := addChild index.children e
      layouts :=
        match e.node, e.layout with
        | .layout, some layout => index.layouts.insert layout e.key
        | _, _ => index.layouts
      controls :=
        match controlName? e with
        | some control => index.controls.insert control e.key
        | none => index.controls }

end FlatIndex

end PageBlocks
