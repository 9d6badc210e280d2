import PageBlocks.Proofs.Tree.Published

/-!
# The order of a block's fields

Storage knows the fields of a block by their places. The content fields come
first, in the order in which they are declared, but for the one field that holds
nested blocks: of a container the first collection, of a repeating block the
first repeater. That field is moved to the front, or made up when there is none.
Behind the content stand the other groups, each behind its tab, in their
declared order.

> `ContentOrder`: the content fields of a block, in the order in which they are
> stored, told by the declared fields alone;
>
> `block_laid`: a block that compiles has one node for each field, in this order;
>
> `block_fields`: so has every variant in a compiled tree.

Places are told in two steps. Which field comes first is a matter of the
declared fields (`contentOrder_pinned`). That nodes and fields go together is
shown before anything is moved; moving the pairs then moves both.
-/

namespace PageBlocks

open Compilation Attempt

namespace Compile

/-! ## The first of some items -/

section First

variable {α : Type} {p : α → Bool} {before after : List α} {item : α}

/-- A list in which some item passes a test is split by the first that does. -/
theorem exists_first {items : List α} (h : items.any p = true) :
    ∃ before item after, items = before ++ item :: after ∧ (∀ a ∈ before, p a = false) ∧
      p item = true := by
  have hsome : (items.find? p).isSome = true := by
    obtain ⟨a, ha, hpa⟩ := List.any_eq_true.mp h
    exact List.find?_isSome.mpr ⟨a, ha, hpa⟩
  obtain ⟨item, hfound⟩ := Option.isSome_iff_exists.mp hsome
  obtain ⟨hitem, before, after, hsplit, hbefore⟩ := List.find?_eq_some_iff_append.mp hfound
  exact ⟨before, item, after, hsplit, fun a ha => by simpa using hbefore a ha, hitem⟩

theorem none_of_not_any {items : List α} (h : ¬items.any p = true) : ∀ a ∈ items, p a = false := by
  intro a ha
  exact Bool.eq_false_iff.mpr fun hpa => h (List.any_eq_true.mpr ⟨a, ha, hpa⟩)

theorem findIdx?_first (hbefore : ∀ a ∈ before, p a = false) (hitem : p item = true) :
    (before ++ item :: after).findIdx? p = some before.length := by
  have hnone : before.findIdx? p = none := List.findIdx?_eq_none_iff.mpr hbefore
  simp [List.findIdx?_append, hnone, List.findIdx?_cons, hitem]

theorem toFront_first : toFront (before ++ item :: after) before.length =
    item :: (before ++ after) := by
  unfold toFront
  simp [List.eraseIdx_append_of_length_le]

theorem modifyFirst_first {f : α → α} (hbefore : ∀ a ∈ before, p a = false)
    (hitem : p item = true) :
    modifyFirst p f (before ++ item :: after) = before ++ f item :: after := by
  induction before with
  | nil => rw [List.nil_append, modifyFirst, if_pos hitem, List.nil_append]
  | cons a rest ih =>
    have ha : ¬p a = true := Bool.eq_false_iff.mp (hbefore a (List.mem_cons_self ..))
    have hrest := ih fun b hb => hbefore b (List.mem_cons_of_mem _ hb)
    rw [List.cons_append, modifyFirst, if_neg ha, hrest, List.cons_append]

end First

/-! ## The stored order of content -/

/-- The content fields of a kind of entity in the order in which they are stored, by those that are
declared. -/
inductive ContentOrder : EntityKind → List Field → List Field → Prop
  | plain {kind : EntityKind} {declared : List Field} (hkind : holderKind? kind = none) :
      ContentOrder kind declared declared
  /-- The first collection of a container comes first. -/
  | container {before after : List Field} {collection : Field}
      (hbefore : ∀ f ∈ before, hasType .flexibleContent f = false)
      (hcollection : hasType .flexibleContent collection = true) :
      ContentOrder (.block .container) (before ++ collection :: after)
        (collection :: (before ++ after))
  /-- A container without one is given one. -/
  | containerGiven {declared : List Field}
      (hnone : ∀ f ∈ declared, hasType .flexibleContent f = false) :
      ContentOrder (.block .container) declared
        (.simple "blocks" "Blocks" FieldKind.flexibleContent.name :: declared)
  /-- The first repeater of a repeating block comes first, with a collection in its rows. -/
  | repeating {before after : List Field} {row : Field}
      (hbefore : ∀ f ∈ before, hasType .repeater f = false)
      (hrow : hasType .repeater row = true) :
      ContentOrder (.block .repeating) (before ++ row :: after)
        (withCollection row :: (before ++ after))
  /-- A repeating block without one is given one. -/
  | repeatingGiven {declared : List Field}
      (hnone : ∀ f ∈ declared, hasType .repeater f = false) :
      ContentOrder (.block .repeating) declared
        (withCollection (.simple "items" "Items" FieldKind.repeater.name) :: declared)

@[simp] theorem hasType_simple (kind : FieldKind) (name label : String) :
    hasType kind (.simple name label kind.name) = true := beq_self_eq_true _

/-- Completing the rows of a field leaves its type as it is. -/
@[simp] theorem hasType_withCollection (kind : FieldKind) (row : Field) :
    hasType kind (withCollection row) = hasType kind row := by
  unfold withCollection
  split
  · rfl
  · rfl

/-- Rows that were completed have a collection. -/
theorem exists_collection_withCollection (row : Field) :
    ∃ f ∈ (withCollection row).subFields, hasType .flexibleContent f = true := by
  unfold withCollection
  split
  next hany => exact List.any_eq_true.mp hany
  next => exact ⟨_, List.mem_cons_self .., hasType_simple ..⟩

/-- The first field of the type that nested blocks are held in comes first. -/
theorem pinned_first {b : Entity} {kind : FieldKind} {before after : List Field} {holder : Field}
    (hkind : holderKind? b.kind = some kind) (hbefore : ∀ f ∈ before, hasType kind f = false)
    (hholder : hasType kind holder = true) :
    pinned b (before ++ holder :: after) (before ++ holder :: after) =
      holder :: (before ++ after) := by
  unfold pinned
  rw [hkind]
  dsimp only
  rw [findIdx?_first hbefore hholder]
  exact toFront_first

section Pinned

variable {b : Entity}

/-- A holder that was made up stands first already. -/
theorem pinned_given {kind : FieldKind} {holder : Field} (hkind : holderKind? b.kind = some kind)
    (hholder : hasType kind holder = true) :
    pinned b (holder :: b.fields.content) (holder :: b.fields.content) =
      holder :: b.fields.content := by
  have hbefore : ∀ f ∈ ([] : List Field), hasType kind f = false :=
    fun _ h => absurd h List.not_mem_nil
  exact pinned_first hkind hbefore hholder

/-- A block that nests nothing keeps its content as it is. -/
theorem contentOrder_plain (hkind : holderKind? b.kind = none)
    (hcontent : content b = b.fields.content) :
    ContentOrder b.kind b.fields.content (pinned b (content b) (content b)) := by
  have hpinned : pinned b b.fields.content b.fields.content = b.fields.content := by
    rw [pinned, hkind]
  rw [hcontent, hpinned]
  exact .plain hkind

theorem contentOrder_container (hkind : b.kind = .block .container) :
    ContentOrder (.block .container) b.fields.content (pinned b (content b) (content b)) := by
  have hholder : holderKind? b.kind = some .flexibleContent := by rw [hkind]; rfl
  by_cases hany : b.fields.content.any (hasType .flexibleContent) = true
  · have hcontent : content b = b.fields.content := by
      rw [content, hkind]
      exact if_pos hany
    obtain ⟨before, collection, after, hsplit, hbefore, hcollection⟩ := exists_first hany
    rw [hcontent, hsplit, pinned_first hholder hbefore hcollection]
    exact .container hbefore hcollection
  · have hcontent : content b =
        .simple "blocks" "Blocks" FieldKind.flexibleContent.name :: b.fields.content := by
      rw [content, hkind]
      exact if_neg hany
    rw [hcontent, pinned_given hholder (hasType_simple ..)]
    exact .containerGiven (none_of_not_any hany)

theorem contentOrder_repeating (hkind : b.kind = .block .repeating) :
    ContentOrder (.block .repeating) b.fields.content (pinned b (content b) (content b)) := by
  have hholder : holderKind? b.kind = some .repeater := by rw [hkind]; rfl
  by_cases hany : b.fields.content.any (hasType .repeater) = true
  · have hcontent : content b =
        modifyFirst (hasType .repeater) withCollection b.fields.content := by
      rw [content, hkind]
      exact if_pos hany
    obtain ⟨before, row, after, hsplit, hbefore, hrow⟩ := exists_first hany
    have hcompleted : hasType .repeater (withCollection row) = true :=
      (hasType_withCollection ..).trans hrow
    rw [hcontent, hsplit, modifyFirst_first hbefore hrow, pinned_first hholder hbefore hcompleted]
    exact .repeating hbefore hrow
  · have hcontent : content b =
        withCollection (.simple "items" "Items" FieldKind.repeater.name) :: b.fields.content := by
      rw [content, hkind]
      exact if_neg hany
    have hcompleted : hasType .repeater
        (withCollection (.simple "items" "Items" FieldKind.repeater.name)) = true :=
      (hasType_withCollection ..).trans (hasType_simple ..)
    rw [hcontent, pinned_given hholder hcompleted]
    exact .repeatingGiven (none_of_not_any hany)

end Pinned

/-- The content fields of a block are pinned in the stored order. -/
theorem contentOrder_pinned (b : Entity) :
    ContentOrder b.kind b.fields.content (pinned b (content b) (content b)) := by
  cases hkind : b.kind with
  | layout => exact hkind ▸ contentOrder_plain (by rw [hkind]; rfl) (by rw [content, hkind])
  | block kind =>
    cases kind with
    | basic => exact hkind ▸ contentOrder_plain (by rw [hkind]; rfl) (by rw [content, hkind])
    | container => exact contentOrder_container hkind
    | repeating => exact contentOrder_repeating hkind

/-! ## Nodes beside fields -/

/-- A node that was made of a declared field under a path. -/
structure MadeOf (path : KeyPath) (f : Field) (node : FieldNode) : Prop where
  key : node.key = (path.child f.name).encode .field
  name : node.name = f.name
  kind : FieldKind.ofName? f.attributes.type = some node.kind

/-- A node that was made of a declared field, with one node for each of the field's own sub-fields
in their order, if fields of its type have any. -/
inductive NodeOf : KeyPath → Field → FieldNode → Prop
  | leaf {path : KeyPath} {f : Field} {node : FieldNode} (hmade : MadeOf path f node)
      (hkind : node.kind.hasSubFields = false) (hnone : node.subFields = []) : NodeOf path f node
  | rows {path : KeyPath} {f : Field} {node : FieldNode} (hmade : MadeOf path f node)
      (hkind : node.kind.hasSubFields = true) (hlength : f.subFields.length = node.subFields.length)
      (hsubs : ∀ pair ∈ f.subFields.zip node.subFields,
        NodeOf (path.child f.name) pair.1 pair.2) :
      NodeOf path f node

/-- One node for each of some fields, in their order. -/
structure NodesOf (path : KeyPath) (fs : List Field) (nodes : List FieldNode) : Prop where
  length : fs.length = nodes.length
  each : ∀ pair ∈ fs.zip nodes, NodeOf path pair.1 pair.2

theorem NodeOf.made {path : KeyPath} {f : Field} {node : FieldNode} (h : NodeOf path f node) :
    MadeOf path f node := by
  cases h with
  | leaf hmade => exact hmade
  | rows hmade => exact hmade

/-- A field of a type gives a node of that kind. -/
theorem MadeOf.kind_eq {path : KeyPath} {f : Field} {node : FieldNode} {kind : FieldKind}
    (h : MadeOf path f node) (htype : hasType kind f = true) : node.kind = kind := by
  have hkind := h.kind
  rw [show f.attributes.type = kind.name from beq_iff_eq.mp htype, FieldKind.ofName?_name] at hkind
  exact (Option.some.inj hkind).symm

namespace NodesOf

variable {path : KeyPath} {f : Field} {fs : List Field} {node : FieldNode}
  {nodes : List FieldNode}

theorem nil : NodesOf path [] [] where
  length := rfl
  each := fun _ h => absurd h List.not_mem_nil

theorem cons (h : NodeOf path f node) (hrest : NodesOf path fs nodes) :
    NodesOf path (f :: fs) (node :: nodes) where
  length := by rw [List.length_cons, List.length_cons, hrest.length]
  each := fun pair hpair => by
    rcases List.mem_cons.mp hpair with rfl | hpair
    · exact h
    · exact hrest.each pair hpair

theorem first (h : NodesOf path (f :: fs) nodes) :
    ∃ node rest, nodes = node :: rest ∧ NodeOf path f node := by
  cases nodes with
  | nil => cases h.length
  | cons node rest => exact ⟨node, rest, rfl, h.each (f, node) (List.mem_cons_self ..)⟩

/-- Every field has a node. -/
theorem exists_node (h : NodesOf path fs nodes) (hf : f ∈ fs) :
    ∃ node ∈ nodes, NodeOf path f node := by
  obtain ⟨i, hi, rfl⟩ := List.getElem_of_mem hf
  have hi' : i < nodes.length := h.length ▸ hi
  have hpair : (fs[i], nodes[i]) ∈ fs.zip nodes := by
    have hzip : i < (fs.zip nodes).length := by
      rw [List.length_zip]
      omega
    rw [← List.getElem_zip (h := hzip)]
    exact List.getElem_mem hzip
  exact ⟨nodes[i], List.getElem_mem hi', h.each _ hpair⟩

/-- Nodes have the names of their fields. -/
theorem names (h : NodesOf path fs nodes) : nodes.map (·.name) = fs.map (·.name) := by
  induction fs generalizing nodes with
  | nil => rw [List.length_eq_zero_iff.mp h.length.symm]; rfl
  | cons f fs ih =>
    cases nodes with
    | nil => cases h.length
    | cons node nodes =>
      have hname := (h.each (f, node) (List.mem_cons_self ..)).made.name
      have hrest : NodesOf path fs nodes :=
        { length := Nat.succ.inj h.length
          each := fun pair hpair => h.each pair (List.mem_cons_of_mem _ hpair) }
      rw [List.map_cons, List.map_cons, hname, ih hrest]

/-- Moving a field moves its node: the pairs are moved, and their order is that of both. -/
theorem pinned (b : Entity) {members : List Field} (h : NodesOf path fs nodes) :
    NodesOf path (Compile.pinned b members fs) (Compile.pinned b members nodes) := by
  have hfst : (Compile.pinned b members (fs.zip nodes)).map Prod.fst =
      Compile.pinned b members fs := by
    rw [pinned_map, List.map_fst_zip (Nat.le_of_eq h.length)]
  have hsnd : (Compile.pinned b members (fs.zip nodes)).map Prod.snd =
      Compile.pinned b members nodes := by
    rw [pinned_map, List.map_snd_zip (Nat.le_of_eq h.length.symm)]
  have hzip := List.zip_of_prod hfst hsnd
  constructor
  · rw [← hfst, ← hsnd, List.length_map, List.length_map]
  · intro pair hpair
    rw [← hzip] at hpair
    exact h.each pair ((pinned_perm b members _).mem_iff.mp hpair)

end NodesOf

section Fields

variable {fill : Filling} {site : Site} {owner : Entity} {group : FieldGroup}

mutual
theorem node_of_field :
    ∀ (f : Field) {siblings : List Sibling} {path : KeyPath} {parent : String} {node : FieldNode}
      {es : List IndexEntry}, Makes (field fill site owner group siblings path parent f) node es →
      NodeOf path f node
  | ⟨name, attributes, subFields⟩, siblings, path, parent, node, es, h => by
    obtain ⟨kind, logic, rows, layouts, held, hkind, -, hholds, hnode, -⟩ := makes_field h
    have hnodeKind : node.kind = kind := by rw [hnode]; rfl
    have hrows : node.subFields = rows := by rw [hnode]
    have hmade : MadeOf path ⟨name, attributes, subFields⟩ node :=
      { key := by rw [hnode]; rfl
        name := by rw [hnode]; rfl
        kind := by rw [hnodeKind]; exact hkind }
    cases hholds with
    | nothing _ hnoRows => exact .leaf hmade (hnodeKind ▸ hnoRows) hrows
    | variants _ => exact .leaf hmade (by rw [hnodeKind]; rfl) hrows
    | rows hsub _ hfields =>
      have hsubs := nodes_of_fields subFields hfields
      rw [← hrows] at hsubs
      exact .rows hmade (hnodeKind ▸ hsub) hsubs.length hsubs.each

theorem nodes_of_fields :
    ∀ (fs : List Field) {siblings : List Sibling} {path : KeyPath} {parent : String}
      {nodes : List FieldNode} {es : List IndexEntry},
      Makes (fields fill site owner group siblings path parent fs) nodes es → NodesOf path fs nodes
  | [], siblings, path, parent, nodes, es, h => by
    obtain ⟨rfl, -⟩ := makes_fields_nil h
    exact .nil
  | f :: fs, siblings, path, parent, nodes, es, h => by
    obtain ⟨node, rest, es₁, es₂, hnode, hrest, rfl, -⟩ := makes_fields_cons h
    exact .cons (node_of_field f hnode) (nodes_of_fields fs hrest)
end

end Fields

/-! ## Blocks -/

/-- The nodes of a group behind the tab that opens it, if there are any. -/
def opened (group : FieldGroup) (path : KeyPath) (nodes : List FieldNode) : List FieldNode :=
  if nodes.isEmpty then [] else tabNode group path :: nodes

/-- A block's node beside the declared fields of the block. The nodes of the content are those of
the content fields in the stored order; the nodes of the other groups are in their declared order,
with the core fields last. -/
structure LaidOut (settings : Settings) (path : KeyPath) (b : Entity) (node : BlockNode)
    (ordered : List Field) (content customise configure : List FieldNode) : Prop where
  key : node.key = path.encode .block
  name : node.name = b.name
  order : ContentOrder b.kind b.fields.content ordered
  ofContent : NodesOf (path.child FieldGroup.content.name) ordered content
  ofCustomise : NodesOf (path.child FieldGroup.customise.name) b.fields.customise customise
  ofConfigure : NodesOf (path.child FieldGroup.configure.name)
    (b.fields.configure ++ if settings.coreFields then coreFields else []) configure
  subFields : node.subFields =
    content ++ (opened .customise path customise ++ opened .configure path configure)
  distinct : (content.map (·.name)).Nodup ∧
    ((opened .customise path customise).map (·.name)).Nodup ∧
    ((opened .configure path configure).map (·.name)).Nodup
  container : b.kind = .block .container →
    ∃ collection rest, content = collection :: rest ∧ collection.kind = .flexibleContent
  repeating : b.kind = .block .repeating →
    ∃ row rest, content = row :: rest ∧ row.kind = .repeater ∧
      ∃ sub ∈ row.subFields, sub.kind = .flexibleContent

/-- A container's content begins with a collection. -/
theorem ContentOrder.container_first {declared ordered : List Field} {path : KeyPath}
    {nodes : List FieldNode} (h : ContentOrder (.block .container) declared ordered)
    (hnodes : NodesOf path ordered nodes) :
    ∃ collection rest, nodes = collection :: rest ∧ collection.kind = .flexibleContent := by
  cases h with
  | plain hkind => cases hkind
  | container _ hcollection =>
    obtain ⟨node, rest, hsplit, hnode⟩ := hnodes.first
    exact ⟨node, rest, hsplit, hnode.made.kind_eq hcollection⟩
  | containerGiven _ =>
    obtain ⟨node, rest, hsplit, hnode⟩ := hnodes.first
    exact ⟨node, rest, hsplit, hnode.made.kind_eq (hasType_simple ..)⟩

/-- A completed row has a node with a collection in it. -/
theorem row_of_withCollection {path : KeyPath} {row : Field} {node : FieldNode}
    (hrow : hasType .repeater row = true) (h : NodeOf path (withCollection row) node) :
    node.kind = .repeater ∧ ∃ sub ∈ node.subFields, sub.kind = .flexibleContent := by
  have hkind : node.kind = .repeater :=
    h.made.kind_eq ((hasType_withCollection ..).trans hrow)
  refine ⟨hkind, ?_⟩
  obtain ⟨f, hf, htype⟩ := exists_collection_withCollection row
  cases h with
  | leaf _ hno =>
    rw [hkind] at hno
    cases hno
  | rows _ _ hlength hsubs =>
    obtain ⟨sub, hsub, hof⟩ := NodesOf.exists_node ⟨hlength, hsubs⟩ hf
    exact ⟨sub, hsub, hof.made.kind_eq htype⟩

/-- A repeating block's content begins with a repeater that holds a collection. -/
theorem ContentOrder.repeating_first {declared ordered : List Field} {path : KeyPath}
    {nodes : List FieldNode} (h : ContentOrder (.block .repeating) declared ordered)
    (hnodes : NodesOf path ordered nodes) :
    ∃ row rest, nodes = row :: rest ∧ row.kind = .repeater ∧
      ∃ sub ∈ row.subFields, sub.kind = .flexibleContent := by
  cases h with
  | plain hkind => cases hkind
  | repeating _ hrow =>
    obtain ⟨node, rest, hsplit, hnode⟩ := hnodes.first
    exact ⟨node, rest, hsplit, row_of_withCollection hrow hnode⟩
  | repeatingGiven _ =>
    obtain ⟨node, rest, hsplit, hnode⟩ := hnodes.first
    exact ⟨node, rest, hsplit, row_of_withCollection (hasType_simple ..) hnode⟩

section Blocks

variable {fill : Filling} {site : Site} {b : Entity} {path : KeyPath} {key : String}
  {siblings : List Sibling} {group : FieldGroup} {members : List Field} {nodes : List FieldNode}
  {es : List IndexEntry}

theorem GroupHolds.ofContent
    (h : GroupHolds fill site b path key siblings .content members nodes es) :
    NodesOf (path.child FieldGroup.content.name) (pinned b members members) nodes := by
  cases h with
  | empty =>
    rw [List.perm_nil.mp (pinned_perm b [] [])]
    exact .nil
  | content _ hfields => exact (nodes_of_fields _ hfields).pinned b
  | tabbed hgroup => exact absurd rfl hgroup

theorem GroupHolds.ofOther (h : GroupHolds fill site b path key siblings group members nodes es)
    (hgroup : group ≠ .content) :
    ∃ made, NodesOf (path.child group.name) members made ∧ nodes = opened group path made := by
  cases h with
  | empty => exact ⟨[], .nil, rfl⟩
  | content => exact absurd rfl hgroup
  | @tabbed _ _ made _ _ hmembers hfields =>
    have hmade := nodes_of_fields _ hfields
    refine ⟨made, hmade, ?_⟩
    have hsome : ¬made.isEmpty = true := by
      intro hempty
      have hzero := hmade.length
      rw [List.isEmpty_iff.mp hempty] at hzero
      exact hmembers (List.length_eq_zero_iff.mp hzero)
    rw [opened, if_neg hsome]

/-- The names of a group that is not the content are those that were checked, the tab's moved to
the front. -/
theorem opened_nodup (hmade : NodesOf (path.child group.name) members nodes)
    (hgroup : group ≠ .content) (hunique : (takenNames group members).Nodup) :
    ((opened group path nodes).map (·.name)).Nodup := by
  cases nodes with
  | nil => exact List.nodup_nil
  | cons node rest =>
    have hmembers : members.isEmpty = false := by
      cases members with
      | nil => cases hmade.length
      | cons => rfl
    have htaken : takenNames group members = members.map (·.name) ++ [group.tabName] := by
      rw [takenNames, if_pos ⟨hgroup, by rw [hmembers]; rfl⟩]
    have hperm : ((opened group path (node :: rest)).map (·.name)).Perm
        (takenNames group members) := by
      rw [htaken, ← hmade.names]
      exact (List.perm_append_singleton ..).symm
    exact hperm.nodup_iff.mpr hunique

/-- A block that compiles, in whatever site and with whatever in its collections, has its fields in
the stored order. -/
theorem block_laid {settings : Settings} {collection : Option String} {node : BlockNode}
    (h : Makes (block settings fill site collection path b) node es) :
    ∃ ordered content customise configure,
      LaidOut settings path b node ordered content customise configure := by
  obtain ⟨held, parts, hunique, hparts, hnode, -⟩ := makes_block h
  unfold groups at hunique hparts
  obtain ⟨content, rest₁, _, _, hcontent, hrest₁, rfl, -⟩ := makes_mapM_cons hparts
  obtain ⟨_, rest₂, _, _, hcustomise, hrest₂, rfl, -⟩ := makes_mapM_cons hrest₁
  obtain ⟨_, rest₃, _, _, hconfigure, hrest₃, rfl, -⟩ := makes_mapM_cons hrest₂
  obtain ⟨rfl, -⟩ := makes_mapM_nil hrest₃
  dsimp only at hcontent hcustomise hconfigure
  have hof := (makes_groupNodes hcontent).ofContent
  obtain ⟨customise, hof₂, rfl⟩ := (makes_groupNodes hcustomise).ofOther (by decide)
  obtain ⟨configure, hof₃, rfl⟩ := (makes_groupNodes hconfigure).ofOther (by decide)
  have horder := contentOrder_pinned b
  have hnames : (content.map (·.name)).Nodup := by
    have htaken := checkUnique_nodup (hunique (.content, Compile.content b) (by simp))
    have hperm := (pinned_perm b (Compile.content b) (Compile.content b)).map fun f => f.name
    rw [hof.names, hperm.nodup_iff]
    simpa [takenNames] using htaken
  exact ⟨_, content, customise, configure,
    { key := by rw [hnode]
      name := by rw [hnode]
      order := horder
      ofContent := hof
      ofCustomise := hof₂
      ofConfigure := hof₃
      subFields := by rw [hnode]; simp
      distinct := ⟨hnames,
        opened_nodup hof₂ (by decide)
          (checkUnique_nodup (hunique (.customise, _) (by simp))),
        opened_nodup hof₃ (by decide)
          (checkUnique_nodup (hunique (.configure, _) (by simp)))⟩
      container := fun hkind => (hkind ▸ horder).container_first hof
      repeating := fun hkind => (hkind ▸ horder).repeating_first hof }⟩

end Blocks

/-! ## Variants of a compiled tree -/

/-- A node that, if it is a variant, `block` made of the block that it is named after. -/
def Stems (registry : Registry) (n : TreeNode) : Prop :=
  ∀ node, n = .block node → ∃ fill site collection path b es,
    registry.block? node.name = some b ∧
      Makes (block registry.settings fill site collection path b) node es

theorem stems_field {registry : Registry} (node : FieldNode) : Stems registry (.field node) :=
  fun _ h => nomatch h

/-- A way to fill collections with variants that `block` made. -/
def FillsFrom (registry : Registry) (fill : Filling) : Prop :=
  ∀ {site : Site} {filter : NameFilter} {path : KeyPath} {key : String}
    {found : List (String × BlockNode)} {es : List IndexEntry},
    Makes (fill site filter path key) found es →
    ∀ n ∈ BlockNode.allNodes found, Stems registry n

section Fields

variable {registry : Registry} {fill : Filling} {site : Site} {owner : Entity} {group : FieldGroup}

mutual
theorem field_stems (hfill : FillsFrom registry fill) :
    ∀ (f : Field) {siblings : List Sibling} {path : KeyPath} {parent : String} {node : FieldNode}
      {es : List IndexEntry}, Makes (field fill site owner group siblings path parent f) node es →
      ∀ n ∈ node.nodes, Stems registry n
  | ⟨name, attributes, subFields⟩, siblings, path, parent, node, es, h => by
    obtain ⟨kind, logic, rows, layouts, held, -, -, hholds, hnode, -⟩ := makes_field h
    have hrows : node.subFields = rows := by rw [hnode]
    have hlayouts : node.layouts = layouts := by rw [hnode]
    intro n hn
    rw [FieldNode.nodes_eq, hrows, hlayouts] at hn
    rcases List.mem_cons.mp hn with rfl | hn
    · exact stems_field node
    · cases hholds with
      | nothing =>
        rw [FieldNode.allNodes, BlockNode.allNodes] at hn
        exact absurd hn List.not_mem_nil
      | variants hfound =>
        rw [FieldNode.allNodes, List.nil_append] at hn
        exact hfill hfound n hn
      | rows _ _ hfields =>
        rw [BlockNode.allNodes, List.append_nil] at hn
        exact fields_stem hfill subFields hfields n hn

theorem fields_stem (hfill : FillsFrom registry fill) :
    ∀ (fs : List Field) {siblings : List Sibling} {path : KeyPath} {parent : String}
      {nodes : List FieldNode} {es : List IndexEntry},
      Makes (fields fill site owner group siblings path parent fs) nodes es →
      ∀ n ∈ FieldNode.allNodes nodes, Stems registry n
  | [], siblings, path, parent, nodes, es, h => by
    obtain ⟨rfl, -⟩ := makes_fields_nil h
    rw [FieldNode.allNodes]
    exact fun _ h => absurd h List.not_mem_nil
  | f :: fs, siblings, path, parent, nodes, es, h => by
    obtain ⟨node, rest, es₁, es₂, hnode, hrest, rfl, -⟩ := makes_fields_cons h
    intro n hn
    rw [FieldNode.allNodes] at hn
    rcases List.mem_append.mp hn with hn | hn
    · exact field_stems hfill f hnode n hn
    · exact fields_stem hfill fs hrest n hn
end

end Fields

section Blocks

variable {registry : Registry} {fill : Filling} {site : Site} {b : Entity} {path : KeyPath}
  {key : String} {siblings : List Sibling}

theorem group_stems (hfill : FillsFrom registry fill) {group : FieldGroup} {members : List Field}
    {nodes : List FieldNode} {es : List IndexEntry}
    (h : GroupHolds fill site b path key siblings group members nodes es) :
    ∀ n ∈ FieldNode.allNodes nodes, Stems registry n := by
  intro n hn
  cases h with
  | empty =>
    rw [FieldNode.allNodes] at hn
    exact absurd hn List.not_mem_nil
  | content _ hfields =>
    rw [FieldNode.allNodes_eq_flatMap, ((pinned_perm b members _).flatMap_right _).mem_iff,
      ← FieldNode.allNodes_eq_flatMap] at hn
    exact fields_stem hfill members hfields n hn
  | tabbed _ _ hfields =>
    rw [FieldNode.allNodes, FieldNode.nodes_eq] at hn
    rcases List.mem_append.mp hn with hn | hn
    · obtain rfl : n = .field (tabNode _ path) := by
        simpa [tabNode, FieldNode.plain, FieldNode.allNodes, BlockNode.allNodes] using hn
      exact stems_field _
    · exact fields_stem hfill members hfields n hn

theorem groups_stem (hfill : FillsFrom registry fill) :
    ∀ {gs : List (FieldGroup × List Field)} {parts : List (List FieldNode)}
      {es : List IndexEntry},
      Makes (gs.mapM fun g => groupNodes fill site b path key siblings g.1 g.2) parts es →
      ∀ n ∈ FieldNode.allNodes parts.flatten, Stems registry n
  | [], parts, es, h => by
    obtain ⟨rfl, -⟩ := makes_mapM_nil h
    rw [List.flatten_nil, FieldNode.allNodes]
    exact fun _ h => absurd h List.not_mem_nil
  | g :: gs, parts, es, h => by
    obtain ⟨nodes, rest, es₁, es₂, hnodes, hrest, rfl, -⟩ := makes_mapM_cons h
    intro n hn
    rw [List.flatten_cons, FieldNode.allNodes_eq_flatMap, List.flatMap_append,
      ← FieldNode.allNodes_eq_flatMap, ← FieldNode.allNodes_eq_flatMap] at hn
    rcases List.mem_append.mp hn with hn | hn
    · exact group_stems hfill (makes_groupNodes hnodes) n hn
    · exact groups_stem hfill hrest n hn

/-- The variant that was made stems from its block, and what is inside from the blocks inside. -/
theorem block_stems (hfill : FillsFrom registry fill) {collection : Option String}
    {node : BlockNode} {es : List IndexEntry} (hblock : registry.block? b.name = some b)
    (h : Makes (block registry.settings fill site collection path b) node es) :
    ∀ n ∈ node.nodes, Stems registry n := by
  obtain ⟨held, parts, -, hparts, hnode, -⟩ := makes_block h
  have hname : node.name = b.name := by rw [hnode]
  have hsubs : node.subFields = parts.flatten := by rw [hnode]
  intro n hn
  rw [BlockNode.nodes_eq, hsubs] at hn
  rcases List.mem_cons.mp hn with rfl | hn
  · intro made hmade
    cases hmade
    exact ⟨fill, site, collection, path, b, es, hname ▸ hblock, h⟩
  · exact groups_stem hfill hparts n hn

end Blocks

section Collections

variable {registry : Registry}
  {make : Site → Option String → KeyPath → Entity → Compilation BlockNode}

theorem candidates_stem
    (hmake : ∀ {site collection path b node es}, registry.block? b.name = some b →
      Makes (make site collection path b) node es → ∀ n ∈ BlockNode.nodes node, Stems registry n)
    {site : Site} {parent : Entity} {path : KeyPath} {key : String} :
    ∀ {candidates : List Entity} {parts : List (List (String × BlockNode))}
      {es : List IndexEntry},
      (∀ c ∈ candidates, registry.block? c.name = some c) →
      Makes (candidates.mapM (variant make site parent path key)) parts es →
      ∀ v ∈ parts.flatten, ∀ n ∈ v.2.nodes, Stems registry n
  | [], parts, es, _, h => by
    obtain ⟨rfl, -⟩ := makes_mapM_nil h
    exact fun _ hv => absurd hv List.not_mem_nil
  | c :: cs, parts, es, hcs, h => by
    obtain ⟨found, rest, es₁, es₂, hfound, hrest, rfl, -⟩ := makes_mapM_cons h
    intro v hv
    rw [List.flatten_cons] at hv
    rcases List.mem_append.mp hv with hv | hv
    · rcases makes_variant hfound with ⟨-, rfl, -⟩ | ⟨-, node, hnode, rfl⟩
      · exact absurd hv List.not_mem_nil
      · obtain rfl := List.mem_singleton.mp hv
        exact hmake (hcs c (List.mem_cons_self ..)) hnode
    · exact candidates_stem hmake (fun c' hc' => hcs c' (List.mem_cons_of_mem _ hc')) hrest v hv

theorem offered_fillsFrom (hr : registry.Sound)
    (hmake : ∀ {site collection path b node es}, registry.block? b.name = some b →
      Makes (make site collection path b) node es →
      ∀ n ∈ BlockNode.nodes node, Stems registry n) :
    FillsFrom registry (offered registry make) := by
  intro site filter path key found es h n hn
  obtain ⟨l, parent, parts, -, -, hparts, rfl⟩ := makes_offered h
  rw [BlockNode.allNodes_eq_flatMap] at hn
  obtain ⟨v, hv, hn⟩ := List.mem_flatMap.mp hn
  exact candidates_stem hmake (fun c hc => (hr.mem_candidates.mp hc).1) hparts v
    (Entries.mem_ofList hv) n hn

theorem variants_fillFrom (hr : registry.Sound) : ∀ count, FillsFrom registry
    (variants registry count) := by
  intro count
  induction count with
  | zero =>
    rw [variants]
    exact offered_fillsFrom hr fun _ h => (makes_throw h).elim
  | succ count ih =>
    rw [variants]
    exact offered_fillsFrom hr fun hblock h => block_stems ih hblock h

theorem layouts_stem (hr : registry.Sound) {path : KeyPath} :
    ∀ {ls : List Entity} {nodes : List FieldNode} {es : List IndexEntry},
      Makes (ls.mapM (layout registry path)) nodes es →
      ∀ n ∈ FieldNode.allNodes (nodes.map (selected registry)), Stems registry n
  | [], nodes, es, h => by
    obtain ⟨rfl, -⟩ := makes_mapM_nil h
    rw [List.map_nil, FieldNode.allNodes]
    exact fun _ h => absurd h List.not_mem_nil
  | l :: ls, nodes, es, h => by
    obtain ⟨node, rest, es₁, es₂, hnode, hrest, rfl, -⟩ := makes_mapM_cons h
    obtain ⟨variants, held, hvariants, rfl, -⟩ := makes_layout hnode
    intro n hn
    rw [List.map_cons, FieldNode.allNodes, FieldNode.nodes_eq] at hn
    rcases List.mem_append.mp hn with hn | hn
    · rcases List.mem_cons.mp hn with rfl | hn
      · exact stems_field _
      · have hinner : n ∈ BlockNode.allNodes variants := by
          simpa [selected, layoutNode, FieldNode.plain, FieldNode.allNodes] using hn
        exact variants_fillFrom hr _ hvariants n hinner
    · exact layouts_stem hr hrest n hn

/-- Every variant in a field group was made by `block` of a registered block. -/
theorem fieldGroup_stems (hr : registry.Sound) {group : FieldGroupNode} {es : List IndexEntry}
    (h : Makes (fieldGroup registry) group es) : ∀ n ∈ group.nodes, Stems registry n := by
  obtain ⟨layouts, held, hlayouts, hgroup, -⟩ := makes_fieldGroup h
  have hcontrol : ∀ node : FieldNode, node.subFields = [] → node.layouts = [] →
      ∀ n ∈ node.nodes, Stems registry n := by
    intro node hsubs hvariants n hn
    rw [FieldNode.nodes_eq, hsubs, hvariants, FieldNode.allNodes, BlockNode.allNodes] at hn
    rw [List.mem_singleton.mp hn]
    exact stems_field node
  have hnodes : group.nodes = (enabledField registry).nodes ++
      ((selectField registry).nodes ++ FieldNode.allNodes (layouts.map (selected registry))) := by
    rw [hgroup, FieldGroupNode.nodes, FieldGroupNode.ofPostTypes, FieldNode.allNodes,
      FieldNode.allNodes]
  intro n hn
  rw [hnodes] at hn
  rcases List.mem_append.mp hn with hn | hn
  · exact hcontrol _ rfl rfl n hn
  · rcases List.mem_append.mp hn with hn | hn
    · exact hcontrol _ rfl rfl n hn
    · exact layouts_stem hr hlayouts n hn

end Collections

end Compile

/-- A block that compiles, wherever it stands and whatever its collections are filled with, has one
node for each of its fields in the stored order; and so has every variant of a compiled schema. -/
theorem block_fields :
    (∀ settings fill site collection path b node,
      (Compile.block settings fill site collection path b).run.value = .ok node →
      ∃ ordered content customise configure,
        Compile.LaidOut settings path b node ordered content customise configure) ∧
      ∀ definitions resources registry now schema,
        Gives (Registry.build definitions resources) registry →
        Gives (compile registry now) schema →
        ∀ node, .block node ∈ schema.group.nodes →
          ∃ path b, registry.block? node.name = some b ∧
            ∃ ordered content customise configure, Compile.LaidOut registry.settings path b node
              ordered content customise configure := by
  constructor
  · intro settings fill site collection path b node h
    exact Compile.block_laid ⟨h, rfl⟩
  · intro definitions resources registry now schema hbuilt hcompiled node hnode
    obtain ⟨entries, hmakes, -⟩ := compile_gives hcompiled
    obtain ⟨fill, site, collection, path, b, es, hblock, hmade⟩ :=
      Compile.fieldGroup_stems (Registry.build_sound hbuilt) hmakes _ hnode node rfl
    exact ⟨path, b, hblock, Compile.block_laid hmade⟩

/-- A page of panels, each with a collection between a heading and a footer. -/
def panelDefinitions : Definitions :=
  { blocks := .ofList
      [("panel",
        { kind := .container
          content :=
            [.literal ⟨some "heading", { type := "text" }, []⟩,
              .literal ⟨some "items", { type := "flexible_content" }, []⟩,
              .literal ⟨some "footer", { type := "text" }, []⟩] })]
    layouts := .ofList [("page", {})] }

def panelRegistry : Registry := (Registry.build panelDefinitions .empty).result

def panelSchema : CompiledSchema := (compile panelRegistry default).result

/-- Whether a node is a variant with fields of some names in this order. -/
def TreeNode.shows (names : List String) : TreeNode → Bool
  | .field _ => false
  | .block node => node.subFields.map (·.name) == names

/-- In the tree the collection of a panel stands first and the core fields behind their tab. A
block that declares nothing is laid out as well, by itself. -/
theorem panel_fields :
    (∃ panel, .block panel ∈ panelSchema.group.nodes ∧
      panel.subFields.map (·.name) =
        ["items", "heading", "footer", "blockpress_configure", "element_id", "element_class"] ∧
      ∃ path b ordered content customise configure,
        Compile.LaidOut panelRegistry.settings path b panel ordered content customise configure) ∧
      ∃ b node ordered content customise configure,
        Compile.LaidOut {} (.root "alone") b node ordered content customise configure := by
  obtain ⟨hbuilt, hcompiled, p, hp, hpanel⟩ :
      (Registry.build panelDefinitions .empty).run.value.toOption.isSome = true ∧
        (compile panelRegistry default).run.value.toOption.isSome = true ∧
        ∃ p ∈ panelSchema.group.nodes, p.shows
          ["items", "heading", "footer", "blockpress_configure", "element_id",
            "element_class"] = true := by
    decide +kernel
  cases p with
  | field => cases hpanel
  | block panel =>
    obtain ⟨path, b, -, hlaid⟩ :=
      block_fields.2 _ _ _ _ _ (gives_result hbuilt) (gives_result hcompiled) panel hp
    exact ⟨⟨panel, hp, beq_iff_eq.mp hpanel, path, b, hlaid⟩, default, _,
      block_fields.1 {} (fun _ _ _ _ => pure []) {} none (.root "alone") default _ rfl⟩

end PageBlocks
