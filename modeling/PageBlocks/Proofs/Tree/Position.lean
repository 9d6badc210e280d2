import PageBlocks.Schema.Compile

/-!
# Positions in a compiled tree

A node of a compiled tree does not say where it stands: which blocks are around
it, which entity declared it, to which group of its block it belongs. A
`Position` is a node with all of that. `FieldGroupNode.positions` walks a tree
and tells every node's position, by looking up the blocks that the variants are
named after and reading the declared fields beside the compiled ones;
`FieldGroupNode.nodes` is the same walk without the registry.

The entry that the index ought to hold for a node is told by its position alone
(`Position.entry`).
-/

namespace PageBlocks

/-! ## Nodes -/

/-- A node of a compiled tree. -/
inductive TreeNode where
  | field (node : FieldNode)
  | block (node : BlockNode)

namespace TreeNode

def id : TreeNode → String
  | .field n => n.key
  | .block n => n.key

def name : TreeNode → String
  | .field n => n.name
  | .block n => n.name

end TreeNode

mutual
/-- A field and all nodes below it. -/
def FieldNode.nodes : FieldNode → List TreeNode
  | ⟨key, label, name, kind, instructions, required, logic, wrapper, options, subFields,
      layouts⟩ =>
    .field ⟨key, label, name, kind, instructions, required, logic, wrapper, options, subFields,
        layouts⟩ ::
      (FieldNode.allNodes subFields ++ BlockNode.allNodes layouts)

def FieldNode.allNodes : List FieldNode → List TreeNode
  | [] => []
  | node :: rest => node.nodes ++ FieldNode.allNodes rest

/-- A variant and all nodes below it. -/
def BlockNode.nodes : BlockNode → List TreeNode
  | ⟨key, name, label, display, subFields, min, max⟩ =>
    .block ⟨key, name, label, display, subFields, min, max⟩ :: FieldNode.allNodes subFields

def BlockNode.allNodes : List (String × BlockNode) → List TreeNode
  | [] => []
  | (_, node) :: rest => node.nodes ++ BlockNode.allNodes rest
end

theorem FieldNode.nodes_eq (node : FieldNode) :
    node.nodes =
      .field node :: (FieldNode.allNodes node.subFields ++ BlockNode.allNodes node.layouts) := by
  cases node
  rw [FieldNode.nodes]

theorem BlockNode.nodes_eq (node : BlockNode) :
    node.nodes = .block node :: FieldNode.allNodes node.subFields := by
  cases node
  rw [BlockNode.nodes]

/-- All nodes of a field group. -/
def FieldGroupNode.nodes (group : FieldGroupNode) : List TreeNode :=
  FieldNode.allNodes group.fields

/-- The ids of all nodes of a field group. -/
def FieldGroupNode.ids (group : FieldGroupNode) : List String := group.nodes.map TreeNode.id

/-! ## Positions -/

/-- What is around a node below a layout. -/
structure Spot where
  layout : Entity
  /-- The blocks around the node, the innermost first. -/
  around : List Entity := []

namespace Spot

/-- The entity whose collections and fields stand here. -/
def owner (spot : Spot) : Entity := spot.around.head?.getD spot.layout

/-- Inside a block that stands here. -/
def enter (spot : Spot) (b : Entity) : Spot := { spot with around := b :: spot.around }

/-- Names of the blocks around. -/
def enclosing (spot : Spot) : List String := spot.around.map (·.name)

/-- The spot as the compiler keeps it. -/
def site (spot : Spot) : Site :=
  { layout := some spot.layout
    parent := some spot.owner
    enclosing := spot.enclosing.reverse }

theorem site_layout (l : Entity) : (Spot.mk l []).site = .inLayout l := rfl

theorem site_enter (spot : Spot) (b : Entity) : (spot.enter b).site = spot.site.nested b := by
  simp [site, enter, enclosing, Site.nested, owner]

end Spot

/-- What a node below a block stands for, with the path of names that leads to it. -/
inductive Slot where
  | tab (path : KeyPath) (group : FieldGroup)
  | field (path : KeyPath) (group : FieldGroup) (declared : Field)

namespace Slot

/-- What the nodes of one group of a block stand for, in their order. -/
def ofGroup (b : Entity) (path : KeyPath) (group : FieldGroup) (members : List Field) :
    List Slot :=
  let fields (fs : List Field) :=
    fs.map fun f => field ((path.child group.name).child f.name) group f
  if members.isEmpty then []
  else if group = .content then fields (Compile.pinned b members members)
  else .tab ((path.child "tabs").child group.name) group :: fields members

/-- What the nodes of a block stand for, in their order. -/
def ofBlock (settings : Settings) (b : Entity) (path : KeyPath) : List Slot :=
  (Compile.groups settings b).flatMap fun g => ofGroup b path g.1 g.2

/-- What the nodes of a row stand for. -/
def ofRow (path : KeyPath) (group : FieldGroup) (subFields : List Field) : List Slot :=
  subFields.map fun f => field (path.child f.name) group f

end Slot

/-- A node of a compiled tree with its path of names and what is around it. -/
inductive Position where
  /-- One of the controls of a builder. -/
  | control (builder : String) (path : KeyPath) (node : FieldNode)
  /-- The collection of a layout. -/
  | layout (path : KeyPath) (l : Entity) (node : FieldNode)
  /-- A variant of a block in a collection. -/
  | variant (spot : Spot) (path : KeyPath) (collection : String) (b : Entity) (node : BlockNode)
  /-- The marker that opens a group of a block. -/
  | tab (spot : Spot) (path : KeyPath) (parent : String) (group : FieldGroup) (node : FieldNode)
  /-- A declared field of a block, at any depth below it. -/
  | field (spot : Spot) (path : KeyPath) (parent : String) (group : FieldGroup)
      (declared : Field) (node : FieldNode)

namespace Position

def node : Position → TreeNode
  | .control _ _ n => .field n
  | .layout _ _ n => .field n
  | .variant _ _ _ _ n => .block n
  | .tab _ _ _ _ n => .field n
  | .field _ _ _ _ _ n => .field n

def id (p : Position) : String := p.node.id

/-- The path of names that leads to a node. -/
def path : Position → KeyPath
  | .control _ path _ => path
  | .layout path _ _ => path
  | .variant _ path _ _ _ => path
  | .tab _ path _ _ _ => path
  | .field _ path _ _ _ _ => path

/-- The kind of id that a node has. -/
def keyKind : Position → KeyKind
  | .variant .. => .block
  | _ => .field

/-- What a node is, for the index. -/
def type : Position → NodeType
  | .control _ _ n => .field n.kind
  | .layout .. => .layout
  | .variant .. => .block
  | .tab _ _ _ _ n => .field n.kind
  | .field _ _ _ _ _ n => .field n.kind

/-- The entity that declares a node. -/
def entity : Position → EntityRef
  | .control builder _ _ => { type := .builder, name := builder }
  | .layout _ l _ => l.ref
  | .variant _ _ _ b _ => b.ref
  | .tab spot _ _ _ _ => spot.owner.ref
  | .field spot _ _ _ _ _ => spot.owner.ref

/-- The group of a block that a node belongs to. -/
def group : Position → Option FieldGroup
  | .tab _ _ _ group _ => some group
  | .field _ _ _ group _ _ => some group
  | _ => none

/-- The id of the node directly around. -/
def parent : Position → Option String
  | .control .. => none
  | .layout .. => none
  | .variant _ _ collection _ _ => some collection
  | .tab _ _ parent _ _ => some parent
  | .field _ _ parent _ _ _ => some parent

/-- The layout that a node is or belongs to. -/
def layoutName : Position → Option String
  | .control .. => none
  | .layout _ l _ => some l.name
  | .variant spot _ _ _ _ => some spot.layout.name
  | .tab spot _ _ _ _ => some spot.layout.name
  | .field spot _ _ _ _ _ => some spot.layout.name

/-- Layouts and variants bound what belongs to a block. -/
def isBoundary : Position → Bool
  | .layout .. => true
  | .variant .. => true
  | _ => false

/-- The form in which the value of a field is handed out, where it has an option for that. -/
def returnFormat : Position → Option String
  | .control _ _ n => n.optionText? "return_format"
  | .layout .. => none
  | .variant .. => none
  | .tab _ _ _ _ n => n.optionText? "return_format"
  | .field _ _ _ _ _ n => n.optionText? "return_format"

/-- What the index ought to say about a node. -/
def entry (p : Position) : IndexEntry :=
  { key := p.id
    name := p.node.name
    entity := p.entity
    group := p.group
    node := p.type
    parent := p.parent
    layout := p.layoutName
    isBoundary := p.isBoundary
    returnFormat := p.returnFormat }

end Position

/-! ## Walking a tree -/

section Walk

variable (registry : Registry)

mutual
/-- A field and all nodes below it, in their positions. -/
def fieldPositions (spot : Spot) (path : KeyPath) (parent : String) (group : FieldGroup)
    (declared : Field) : FieldNode → List Position
  | ⟨key, label, name, kind, instructions, required, logic, wrapper, options, subFields,
      layouts⟩ =>
    .field spot path parent group declared
        ⟨key, label, name, kind, instructions, required, logic, wrapper, options, subFields,
          layouts⟩ ::
      (slotPositions spot key (Slot.ofRow path group declared.subFields) subFields ++
        variantPositions spot path key layouts)

/-- Nodes beside what they stand for, and all nodes below them. -/
def slotPositions (spot : Spot) (parent : String) : List Slot → List FieldNode → List Position
  | .tab path group :: slots, node :: nodes =>
    .tab spot path parent group node :: slotPositions spot parent slots nodes
  | .field path group f :: slots, node :: nodes =>
    fieldPositions spot path parent group f node ++ slotPositions spot parent slots nodes
  | _, _ => []

/-- The variants of a collection and all nodes below them. -/
def variantPositions (spot : Spot) (path : KeyPath) (collection : String) :
    List (String × BlockNode) → List Position
  | [] => []
  | (_, node) :: rest =>
    blockPositions spot path collection node ++ variantPositions spot path collection rest

/-- A variant and all nodes below it, by the block it is named after. -/
def blockPositions (spot : Spot) (path : KeyPath) (collection : String) :
    BlockNode → List Position
  | ⟨key, name, label, display, subFields, min, max⟩ =>
    match registry.block? name with
    | none => []
    | some b =>
      .variant spot (path.child name) collection b
          ⟨key, name, label, display, subFields, min, max⟩ ::
        slotPositions (spot.enter b) key
          (Slot.ofBlock registry.settings b (path.child name)) subFields
end

/-- The layouts' collections and all nodes below them. -/
def layoutPositions (path : KeyPath) : List Entity → List FieldNode → List Position
  | l :: ls, node :: nodes =>
    (.layout (path.child l.name) l node ::
        variantPositions registry ⟨l, []⟩ (path.child l.name) node.key node.layouts) ++
      layoutPositions path ls nodes
  | _, _ => []

theorem fieldPositions_eq (spot : Spot) (path : KeyPath) (parent : String) (group : FieldGroup)
    (f : Field) (node : FieldNode) :
    fieldPositions registry spot path parent group f node =
      .field spot path parent group f node ::
        (slotPositions registry spot node.key (Slot.ofRow path group f.subFields)
            node.subFields ++
          variantPositions registry spot path node.key node.layouts) := by
  cases node
  rw [fieldPositions]

theorem blockPositions_eq (spot : Spot) (path : KeyPath) (collection : String)
    {node : BlockNode} {b : Entity} (h : registry.block? node.name = some b) :
    blockPositions registry spot path collection node =
      .variant spot (path.child node.name) collection b node ::
        slotPositions registry (spot.enter b) node.key
          (Slot.ofBlock registry.settings b (path.child node.name)) node.subFields := by
  cases node
  rw [blockPositions]
  rw [h]

end Walk

/-- All nodes of a field group, in their positions. -/
def FieldGroupNode.positions (registry : Registry) (group : FieldGroupNode) : List Position :=
  let root := Compile.root registry
  match group.fields with
  | enabled :: select :: layouts =>
    .control registry.settings.name ((root.child "settings").child "enabled") enabled ::
      .control registry.settings.name ((root.child "settings").child "layout") select ::
      layoutPositions registry (root.child "layouts") registry.layouts.values layouts
  | _ => []

end PageBlocks
