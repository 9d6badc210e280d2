import PageBlocks.Proofs.Tree.Position
import PageBlocks.Proofs.Registry.Sound

/-!
# The rules of a compiled tree

What is true of every position in a compiled tree, stated by the registry
alone: which nodes may stand directly below which (`Position.Child`), what a
single node is like (`Position.Sound`), and which blocks a collection offers
(`Offers`).
-/

namespace PageBlocks

/-- The variants of a collection are exactly the registered blocks that its filter accepts, that
fit into the entity it belongs to and that are not around it; each occurs once, under its id. -/
structure Offers (registry : Registry) (spot : Spot) (filter : NameFilter)
    (variants : List (String × BlockNode)) : Prop where
  exact : ∀ name, name ∈ variants.map (·.2.name) ↔
    ∃ b, registry.block? name = some b ∧ filter.accepts name = true ∧
      b.fitsIn spot.owner = true ∧ name ∉ spot.enclosing
  once : (variants.map (·.2.name)).Nodup
  keyed : ∀ v ∈ variants, v.1 = v.2.key

namespace Position

/-- The second of two positions may stand directly below the first. -/
inductive Child (settings : Settings) : Position → Position → Prop
  | ofLayout {path : KeyPath} {l b : Entity} {node : FieldNode} {variant : BlockNode} :
      Child settings (.layout path l node)
        (.variant ⟨l, []⟩ (path.child b.name) node.key b variant)
  | ofCollection {spot : Spot} {path : KeyPath} {parent : String} {group : FieldGroup}
      {f : Field} {node : FieldNode} {b : Entity} {variant : BlockNode}
      (hkind : node.kind.isBlockCollection = true) :
      Child settings (.field spot path parent group f node)
        (.variant spot (path.child b.name) node.key b variant)
  | tab {spot : Spot} {path : KeyPath} {collection : String} {b : Entity} {block : BlockNode}
      {group : FieldGroup} {node : FieldNode} (hgroup : group ≠ .content) :
      Child settings (.variant spot path collection b block)
        (.tab (spot.enter b) ((path.child "tabs").child group.name) block.key group node)
  | ofBlock {spot : Spot} {path : KeyPath} {collection : String} {b : Entity}
      {block : BlockNode} {group : FieldGroup} {members : List Field} {f : Field}
      {node : FieldNode} (hgroup : (group, members) ∈ Compile.groups settings b)
      (hf : f ∈ members) :
      Child settings (.variant spot path collection b block)
        (.field (spot.enter b) ((path.child group.name).child f.name) block.key group f node)
  | ofRow {spot : Spot} {path : KeyPath} {parent : String} {group : FieldGroup} {row : Field}
      {node : FieldNode} {f : Field} {sub : FieldNode}
      (hkind : node.kind.hasSubFields = true) (hf : f ∈ row.subFields) :
      Child settings (.field spot path parent group row node)
        (.field spot (path.child f.name) node.key group f sub)

/-- What a node in its position is like. -/
inductive Sound (registry : Registry) : Position → Prop
  | control {path : KeyPath} {node : FieldNode} (hkey : node.key = path.encode .field)
      (hkind : node.kind = .trueFalse ∨ node.kind = .select) :
      Sound registry (.control registry.settings.name path node)
  | layout {path : KeyPath} {l : Entity} {node : FieldNode}
      (hlayout : registry.layout? l.name = some l) (hkey : node.key = path.encode .field)
      (hname : node.name = Compile.layoutSlug registry l) (hkind : node.kind = .flexibleContent)
      (hoffers : Offers registry ⟨l, []⟩ l.children node.layouts) :
      Sound registry (.layout path l node)
  | variant {spot : Spot} {path : KeyPath} {collection : String} {b : Entity}
      {node : BlockNode} (hblock : registry.block? b.name = some b)
      (hkey : node.key = path.encode .block) (hname : node.name = b.name)
      (hfits : b.fitsIn spot.owner = true) (hnew : b.name ∉ spot.enclosing)
      (hunique : ∀ g ∈ Compile.groups registry.settings b,
        (Compile.takenNames g.1 g.2).Nodup) :
      Sound registry (.variant spot path collection b node)
  | tab {spot : Spot} {path : KeyPath} {parent : String} {group : FieldGroup}
      {node : FieldNode} (hkey : node.key = path.encode .field) (hname : node.name = group.tabName)
      (hkind : node.kind = .tab) : Sound registry (.tab spot path parent group node)
  | field {spot : Spot} {path : KeyPath} {parent : String} {group : FieldGroup} {f : Field}
      {node : FieldNode} (hkey : node.key = path.encode .field) (hname : node.name = f.name)
      (hkind : FieldKind.ofName? f.attributes.type = some node.kind) (hnamed : f.Named)
      (hunique : node.kind.hasSubFields = true → (f.subFields.map (·.name)).Nodup)
      (hoffers : node.kind.isBlockCollection = true →
        Offers registry spot (f.attributes.blocks.getD spot.owner.children) node.layouts) :
      Sound registry (.field spot path parent group f node)

/-- A collection: where it stands, the blocks it is to offer, and its variants. -/
structure Collection where
  spot : Spot
  filter : NameFilter
  variants : List (String × BlockNode)

/-- The collection that a node is. A declared field may say which blocks it offers; else it offers
those of the block around it, as the collection of a layout offers those of the layout. -/
def collection? : Position → Option Collection
  | .layout _ l node => some ⟨⟨l, []⟩, l.children, node.layouts⟩
  | .field spot _ _ _ f node =>
    if node.kind.isBlockCollection then
      some ⟨spot, f.attributes.blocks.getD spot.owner.children, node.layouts⟩
    else none
  | _ => none

/-- The id of a node is made from its path. -/
theorem Sound.id_eq {registry : Registry} {p : Position} (h : p.Sound registry) :
    p.id = p.path.encode p.keyKind := by
  cases h <;> assumption

end Position

end PageBlocks
