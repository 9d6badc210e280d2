import PageBlocks.Proofs.Entries
import PageBlocks.Proofs.Tree.Making
import PageBlocks.Proofs.Tree.Rules
import Mathlib.Data.List.Nodup
import Mathlib.Data.List.Perm.Basic

/-!
# The compiler follows the rules

One induction over the compiler, for everything that is said about compiled
trees: the entries registered on the way are those that the positions of the
made nodes call for, every position is sound, and every node stands below one
that may hold it.

> `fieldGroup_described`: all of this for the field group of a registry.

The induction has the compiler's own shape. Inside a variant it follows the
declared fields, given that collections are filled by the rules (`Fills`); the
collections follow by induction on the number of blocks that may still nest.
-/

namespace PageBlocks

/-- Entries and nodes that positions below some others account for. -/
structure Described (registry : Registry) (above : List Position) (entries : List IndexEntry)
    (positions : List Position) (nodes : List TreeNode) : Prop where
  entries : entries.Perm (positions.map Position.entry)
  nodes : positions.map Position.node = nodes
  sound : ∀ p ∈ positions, p.Sound registry
  below : ∀ p ∈ positions, p.parent = none ∨
    ∃ q ∈ above ++ positions, Position.Child registry.settings q p

namespace Described

variable {registry : Registry} {above : List Position} {es es' : List IndexEntry}
  {ps ps' : List Position} {ns ns' : List TreeNode}

theorem nil : Described registry above [] [] [] where
  entries := List.Perm.refl _
  nodes := rfl
  sound := fun _ h => absurd h List.not_mem_nil
  below := fun _ h => absurd h List.not_mem_nil

theorem append (h : Described registry above es ps ns) (h' : Described registry above es' ps' ns') :
    Described registry above (es ++ es') (ps ++ ps') (ns ++ ns') where
  entries := by
    rw [List.map_append]
    exact h.entries.append h'.entries
  nodes := by rw [List.map_append, h.nodes, h'.nodes]
  sound := fun p hp => by
    rcases List.mem_append.mp hp with hp | hp
    · exact h.sound p hp
    · exact h'.sound p hp
  below := fun p hp => by
    rcases List.mem_append.mp hp with hp | hp
    · rcases h.below p hp with hnone | ⟨q, hq, hchild⟩
      · exact Or.inl hnone
      · refine Or.inr ⟨q, ?_, hchild⟩
        rw [← List.append_assoc]
        exact List.mem_append_left _ hq
    · rcases h'.below p hp with hnone | ⟨q, hq, hchild⟩
      · exact Or.inl hnone
      · refine Or.inr ⟨q, ?_, hchild⟩
        rcases List.mem_append.mp hq with hq | hq
        · exact List.mem_append_left _ hq
        · exact List.mem_append_right _ (List.mem_append_right _ hq)

theorem of_perm (h : Described registry above es ps ns) (hes : es'.Perm es) :
    Described registry above es' ps ns :=
  { h with entries := hes.trans h.entries }

/-- A node on top of everything below it. -/
theorem cons {p : Position} (hsound : p.Sound registry)
    (hbelow : p.parent = none ∨ ∃ q ∈ above, Position.Child registry.settings q p)
    (h : Described registry [p] es ps ns) :
    Described registry above (es ++ [p.entry]) (p :: ps) (p.node :: ns) where
  entries := (List.perm_append_singleton ..).trans (h.entries.cons _)
  nodes := by rw [List.map_cons, h.nodes]
  sound := fun q hq => by
    rcases List.mem_cons.mp hq with rfl | hq
    · exact hsound
    · exact h.sound q hq
  below := fun q hq => by
    rcases List.mem_cons.mp hq with rfl | hq
    · rcases hbelow with hnone | ⟨q', hq', hchild⟩
      · exact Or.inl hnone
      · exact Or.inr ⟨q', List.mem_append_left _ hq', hchild⟩
    · rcases h.below q hq with hnone | ⟨q', hq', hchild⟩
      · exact Or.inl hnone
      · exact Or.inr ⟨q', List.mem_append_right _ hq', hchild⟩

theorem under {p q : Position} (hsound : p.Sound registry)
    (hchild : Position.Child registry.settings q p) (h : Described registry [p] es ps ns) :
    Described registry [q] (es ++ [p.entry]) (p :: ps) (p.node :: ns) :=
  h.cons hsound (Or.inr ⟨q, List.mem_cons_self .., hchild⟩)

/-- The ids of described entries are those of the nodes. -/
theorem keys_perm (h : Described registry above es ps ns) :
    (es.map IndexEntry.key).Perm (ns.map TreeNode.id) := by
  have hkeys : (es.map IndexEntry.key).Perm ((ps.map Position.entry).map IndexEntry.key) :=
    h.entries.map _
  rw [List.map_map] at hkeys
  rw [← h.nodes, List.map_map]
  exact hkeys

end Described

/-! ## Items of a list, each described -/

/-- Every item of a list has its share of the entries, and is described. -/
def Laid {ι : Type} (registry : Registry) (above : List Position) (positions : ι → List Position)
    (nodes : ι → List TreeNode) (items : List ι) (entries : List IndexEntry) : Prop :=
  ∃ parts : List (ι × List IndexEntry), parts.map (·.1) = items ∧
    entries.Perm (parts.flatMap (·.2)) ∧
    ∀ part ∈ parts, Described registry above part.2 (positions part.1) (nodes part.1)

namespace Laid

variable {ι : Type} {registry : Registry} {above : List Position} {positions : ι → List Position}
  {nodes : ι → List TreeNode} {items items' : List ι} {es es' : List IndexEntry}

theorem nil : Laid registry above positions nodes [] [] :=
  ⟨[], rfl, List.Perm.refl _, fun _ h => absurd h List.not_mem_nil⟩

theorem cons {item : ι} (h : Described registry above es (positions item) (nodes item))
    (hrest : Laid registry above positions nodes items es') :
    Laid registry above positions nodes (item :: items) (es ++ es') := by
  obtain ⟨parts, rfl, hperm, hall⟩ := hrest
  refine ⟨(item, es) :: parts, rfl, hperm.append_left es, fun part hpart => ?_⟩
  rcases List.mem_cons.mp hpart with rfl | hpart
  · exact h
  · exact hall part hpart

/-- Items may change places. -/
theorem of_perm (h : Laid registry above positions nodes items es) (hperm : items'.Perm items) :
    Laid registry above positions nodes items' es := by
  obtain ⟨parts, rfl, hes, hall⟩ := h
  -- The shares go with their items.
  obtain ⟨parts', rfl, hparts⟩ :=
    (congrFun (congrFun (List.eq_map_comp_perm (·.1)) items') parts).mpr hperm
  refine ⟨parts', rfl, hes.trans (hparts.symm.flatMap_right _), fun part hpart => ?_⟩
  exact hall part (hparts.mem_iff.mp hpart)

theorem described (h : Laid registry above positions nodes items es) :
    Described registry above es (items.flatMap positions) (items.flatMap nodes) := by
  obtain ⟨parts, rfl, hes, hall⟩ := h
  refine Described.of_perm ?_ hes
  clear hes
  induction parts with
  | nil => exact Described.nil
  | cons part parts ih =>
    exact (hall part (List.mem_cons_self ..)).append
      (ih fun p hp => hall p (List.mem_cons_of_mem _ hp))

end Laid

/-! ## Lists beside lists -/

theorem FieldNode.allNodes_eq_flatMap :
    ∀ nodes : List FieldNode, FieldNode.allNodes nodes = nodes.flatMap FieldNode.nodes
  | [] => by rw [FieldNode.allNodes]; rfl
  | node :: rest => by
    rw [FieldNode.allNodes, FieldNode.allNodes_eq_flatMap rest, List.flatMap_cons]

theorem BlockNode.allNodes_eq_flatMap :
    ∀ variants : List (String × BlockNode),
      BlockNode.allNodes variants = variants.flatMap fun v => v.2.nodes
  | [] => by rw [BlockNode.allNodes]; rfl
  | (_, node) :: rest => by
    rw [BlockNode.allNodes, BlockNode.allNodes_eq_flatMap rest, List.flatMap_cons]

section Walk

variable {registry : Registry} {spot : Spot} {path : KeyPath} {parent : String}

theorem variantPositions_eq_flatMap :
    ∀ variants : List (String × BlockNode),
      variantPositions registry spot path parent variants =
        variants.flatMap fun v => blockPositions registry spot path parent v.2
  | [] => by rw [variantPositions]; rfl
  | (_, node) :: rest => by
    rw [variantPositions, variantPositions_eq_flatMap rest, List.flatMap_cons]

theorem slotPositions_nil (slots : List Slot) :
    slotPositions registry spot parent slots [] = [] := by
  cases slots with
  | nil => simp [slotPositions]
  | cons slot slots => cases slot <;> simp [slotPositions]

theorem slotPositions_append :
    ∀ {slots : List Slot} {nodes : List FieldNode} (slots' : List Slot) (nodes' : List FieldNode),
      slots.length = nodes.length →
      slotPositions registry spot parent (slots ++ slots') (nodes ++ nodes') =
        slotPositions registry spot parent slots nodes ++
          slotPositions registry spot parent slots' nodes'
  | [], [], slots', nodes', _ => by
    rw [slotPositions_nil]
    rfl
  | .tab _ _ :: slots, _ :: nodes, slots', nodes', h => by
    rw [List.cons_append, List.cons_append, slotPositions, slotPositions,
      slotPositions_append slots' nodes' (Nat.succ.inj h), List.cons_append]
  | .field _ _ _ :: slots, _ :: nodes, slots', nodes', h => by
    rw [List.cons_append, List.cons_append, slotPositions, slotPositions,
      slotPositions_append slots' nodes' (Nat.succ.inj h), List.append_assoc]

/-- Fields beside their nodes. -/
theorem slotPositions_fields (at' : Field → KeyPath) (group : FieldGroup) :
    ∀ items : List (Field × FieldNode),
      slotPositions registry spot parent
          ((items.map (·.1)).map fun f => Slot.field (at' f) group f) (items.map (·.2)) =
        items.flatMap fun item =>
          fieldPositions registry spot (at' item.1) parent group item.1 item.2
  | [] => slotPositions_nil _
  | item :: items => by
    rw [List.map_cons, List.map_cons, List.map_cons, slotPositions,
      slotPositions_fields at' group items, List.flatMap_cons]

end Walk

namespace Compile

theorem toFront_map {α β : Type} (f : α → β) (items : List α) (position : Nat) :
    (toFront items position).map f = toFront (items.map f) position := by
  unfold toFront
  rw [List.getElem?_map]
  cases items[position]? with
  | none => rfl
  | some item => simp [List.eraseIdx_map]

theorem toFront_perm {α : Type} (items : List α) (position : Nat) :
    (toFront items position).Perm items := by
  unfold toFront
  split
  next item hitem =>
    obtain ⟨hlt, rfl⟩ := List.getElem?_eq_some_iff.mp hitem
    exact List.getElem_cons_eraseIdx_perm hlt
  next => exact List.Perm.refl _

theorem pinned_map {α β : Type} (b : Entity) (fs : List Field) (f : α → β) (items : List α) :
    (pinned b fs items).map f = pinned b fs (items.map f) := by
  unfold pinned
  split
  next => rfl
  next =>
    split
    next => exact toFront_map f items _
    next => rfl

theorem pinned_perm {α : Type} (b : Entity) (fs : List Field) (items : List α) :
    (pinned b fs items).Perm items := by
  unfold pinned
  split
  next => exact List.Perm.refl _
  next =>
    split
    next => exact toFront_perm items _
    next => exact List.Perm.refl _

end Compile

theorem firstRepeated?_eq_none {names : List String} :
    ∀ {seen : List String}, firstRepeated? seen names = none →
      names.Nodup ∧ ∀ name ∈ names, name ∉ seen := by
  induction names with
  | nil => exact fun _ => ⟨List.nodup_nil, fun _ h => absurd h List.not_mem_nil⟩
  | cons name rest ih =>
    intro seen h
    rw [firstRepeated?] at h
    split at h
    next => cases h
    next hseen =>
      obtain ⟨hnodup, hnew⟩ := ih h
      refine ⟨List.nodup_cons.mpr ⟨fun hmem => ?_, hnodup⟩, fun other hother hmem => ?_⟩
      · exact hnew name hmem (List.mem_cons_self ..)
      · rcases List.mem_cons.mp hother with rfl | hother
        · exact hseen (List.contains_iff_mem.mpr hmem)
        · exact hnew other hother (List.mem_cons_of_mem _ hmem)

/-- Names that passed the check of a list are distinct. -/
theorem checkUnique_nodup {entity group : String} {names : List String}
    (h : checkUnique entity group names = .ok ()) : names.Nodup := by
  unfold checkUnique at h
  split at h
  next => cases h
  next hnone => exact (firstRepeated?_eq_none hnone).1

/-! ## Fields -/

namespace Compile

open Compilation

/-- A way to fill collections that keeps to the rules. -/
def Fills (registry : Registry) (fill : Filling) : Prop :=
  ∀ {spot : Spot} {filter : NameFilter} {path : KeyPath} {key : String}
    {found : List (String × BlockNode)} {es : List IndexEntry} {above : Position},
    Makes (fill spot.site filter path key) found es → (es.map IndexEntry.key).Nodup →
    (∀ b n, Position.Child registry.settings above
      (.variant spot (path.child b.name) key b n)) →
    Described registry [above] es (variantPositions registry spot path key found)
        (BlockNode.allNodes found) ∧
      Offers registry spot filter found

theorem not_collection_of_hasSubFields {kind : FieldKind} (h : kind.hasSubFields = true) :
    ¬kind.isBlockCollection = true := by
  intro hcol
  rw [eq_flexibleContent hcol] at h
  exact absurd h (by decide)

section Fields

variable {registry : Registry} {fill : Filling} {spot : Spot} {group : FieldGroup}

mutual
theorem field_described (hfill : Fills registry fill) :
    ∀ (f : Field) {siblings : List Sibling} {path : KeyPath} {parent : String} {node : FieldNode}
      {es : List IndexEntry} {above : Position},
      Makes (field fill spot.site spot.owner group siblings path parent f) node es →
      (es.map IndexEntry.key).Nodup → f.Named →
      (∀ n, Position.Child registry.settings above
        (.field spot (path.child f.name) parent group f n)) →
      Described registry [above] es
        (fieldPositions registry spot (path.child f.name) parent group f node) node.nodes
  | ⟨name, attributes, subFields⟩, siblings, path, parent, node, es, above, h, hkeys, hnamed,
      hchild => by
    obtain ⟨kind, logic, rows, layouts, held, hkind, -, hholds, hnode, rfl⟩ := makes_field h
    -- What the position of the field says of it is what the node was made with.
    have hkey : node.key = (path.child name).encode .field := by rw [hnode]; rfl
    have hname : node.name = name := by rw [hnode]; rfl
    have hrows : node.subFields = rows := by rw [hnode]
    have hlayouts : node.layouts = layouts := by rw [hnode]
    have hnodeKind : node.kind = kind := by rw [hnode]; rfl
    rw [← hnodeKind] at hkind
    have hheld : (held.map IndexEntry.key).Nodup :=
      hkeys.sublist ((List.sublist_append_left ..).map _)
    rw [fieldPositions_eq, FieldNode.nodes_eq, hrows, hlayouts]
    cases hholds with
    | nothing hcollection hnoRows =>
      rw [slotPositions_nil, variantPositions, FieldNode.allNodes, BlockNode.allNodes]
      refine Described.under (.field hkey hname hkind hnamed ?_ ?_) (hchild _) Described.nil
      · exact fun hsub => absurd (hnodeKind ▸ hsub) (by rw [hnoRows]; decide)
      · exact fun hcol => absurd (hnodeKind ▸ hcol) (by rw [hcollection]; decide)
    | variants hfound =>
      have hbelow : ∀ b n, Position.Child registry.settings
          (.field spot (path.child name) parent group ⟨name, attributes, subFields⟩ node)
          (.variant spot ((path.child name).child b.name) ((path.child name).encode .field) b n) :=
        fun b n => hkey ▸ .ofCollection (by rw [hnodeKind]; rfl)
      -- The blocks inside are the business of the filling, which keeps to the rules.
      obtain ⟨hinner, hoffers⟩ := hfill hfound hheld hbelow
      rw [slotPositions_nil, FieldNode.allNodes]
      refine Described.under (.field hkey hname hkind hnamed ?_ fun _ => ?_) (hchild _) ?_
      · exact fun hsub => absurd (hnodeKind ▸ hsub) (by decide)
      · exact hlayouts.symm ▸ hoffers
      · exact hkey.symm ▸ hinner
    | rows hsub hunique hfields =>
      have hbelow : ∀ f ∈ subFields, ∀ n, Position.Child registry.settings
          (.field spot (path.child name) parent group ⟨name, attributes, subFields⟩ node)
          (.field spot ((path.child name).child f.name) ((path.child name).encode .field) group
            f n) :=
        fun f hf n => hkey ▸ .ofRow (hnodeKind ▸ hsub) hf
      have hsubs := hnamed.subFields
      obtain ⟨items, rfl, rfl, hlaid⟩ :=
        fields_described hfill subFields hfields hheld hsubs hbelow
      rw [Slot.ofRow, slotPositions_fields (fun f => (path.child name).child f.name),
        variantPositions, FieldNode.allNodes_eq_flatMap, BlockNode.allNodes, List.append_nil,
        List.append_nil, List.flatMap_map]
      refine Described.under (.field hkey hname hkind hnamed ?_ ?_) (hchild _) ?_
      · exact fun _ => checkUnique_nodup hunique
      · exact fun hcol => absurd (hnodeKind ▸ hcol) (not_collection_of_hasSubFields hsub)
      · exact hkey.symm ▸ hlaid.described

theorem fields_described (hfill : Fills registry fill) :
    ∀ (fs : List Field) {siblings : List Sibling} {path : KeyPath} {parent : String}
      {nodes : List FieldNode} {es : List IndexEntry} {above : Position},
      Makes (fields fill spot.site spot.owner group siblings path parent fs) nodes es →
      (es.map IndexEntry.key).Nodup → (∀ f ∈ fs, f.Named) →
      (∀ f ∈ fs, ∀ n, Position.Child registry.settings above
        (.field spot (path.child f.name) parent group f n)) →
      ∃ items : List (Field × FieldNode), items.map (·.1) = fs ∧ items.map (·.2) = nodes ∧
        Laid registry [above]
          (fun item => fieldPositions registry spot (path.child item.1.name) parent group item.1
            item.2)
          (fun item => item.2.nodes) items es
  | [], siblings, path, parent, nodes, es, above, h, _, _, _ => by
    obtain ⟨rfl, rfl⟩ := makes_fields_nil h
    exact ⟨[], rfl, rfl, Laid.nil⟩
  | f :: fs, siblings, path, parent, nodes, es, above, h, hkeys, hnamed, hchild => by
    obtain ⟨node, rest, es₁, es₂, hnode, hrest, rfl, rfl⟩ := makes_fields_cons h
    rw [List.map_append] at hkeys
    obtain ⟨hkeys₁, hkeys₂, -⟩ := List.nodup_append.mp hkeys
    obtain ⟨items, rfl, rfl, hlaid⟩ := fields_described hfill fs hrest hkeys₂
      (fun g hg => hnamed g (List.mem_cons_of_mem _ hg))
      (fun g hg => hchild g (List.mem_cons_of_mem _ hg))
    refine ⟨(f, node) :: items, rfl, rfl, Laid.cons ?_ hlaid⟩
    exact field_described hfill f hnode hkeys₁ (hnamed f (List.mem_cons_self ..))
      (hchild f (List.mem_cons_self ..))
end

end Fields

/-! ## Blocks -/

section Blocks

variable {registry : Registry} {fill : Filling} {spot : Spot} {b : Entity} {path : KeyPath}

theorem group_described (hfill : Fills registry fill) {collection : String} {block : BlockNode}
    {siblings : List Sibling} {group : FieldGroup} {members : List Field}
    {nodes : List FieldNode} {es : List IndexEntry}
    (h : GroupHolds fill (spot.site.nested b) b path block.key siblings group members nodes es)
    (hkeys : (es.map IndexEntry.key).Nodup) (hnamed : ∀ f ∈ members, f.Named)
    (hgroup : (group, members) ∈ groups registry.settings b) :
    Described registry [.variant spot path collection b block] es
        (slotPositions registry (spot.enter b) block.key (Slot.ofGroup b path group members) nodes)
        (FieldNode.allNodes nodes) ∧
      (Slot.ofGroup b path group members).length = nodes.length := by
  rw [← Spot.site_enter] at h
  have hbelow : ∀ f ∈ members, ∀ n, Position.Child registry.settings
      (.variant spot path collection b block)
      (.field (spot.enter b) ((path.child group.name).child f.name) block.key group f n) :=
    fun f hf n => .ofBlock hgroup hf
  rw [FieldNode.allNodes_eq_flatMap]
  cases h with
  | empty =>
    rw [slotPositions_nil]
    exact ⟨Described.nil, rfl⟩
  | content hmembers hfields =>
    -- Pinning a field moves its node and its slot alike, so slots and nodes still go together.
    obtain ⟨items, hfs, hnodes, hlaid⟩ := fields_described hfill _ hfields hkeys hnamed hbelow
    have hslots : Slot.ofGroup b path .content members =
        ((pinned b members items).map (·.1)).map fun f =>
          Slot.field ((path.child FieldGroup.content.name).child f.name) .content f := by
      rw [Slot.ofGroup, if_neg (by simpa using hmembers), if_pos rfl, pinned_map, hfs]
    rw [hslots, ← hnodes, ← pinned_map, slotPositions_fields, List.flatMap_map]
    exact ⟨(hlaid.of_perm (pinned_perm b members items)).described, by simp⟩
  | tabbed hgroup' hmembers hfields =>
    rw [List.map_cons, List.nodup_cons] at hkeys
    obtain ⟨items, hfs, hnodes, hlaid⟩ := fields_described hfill _ hfields hkeys.2 hnamed hbelow
    have hslots : Slot.ofGroup b path group members =
        Slot.tab ((path.child "tabs").child group.name) group ::
          (items.map (·.1)).map fun f =>
            Slot.field ((path.child group.name).child f.name) group f := by
      rw [Slot.ofGroup, if_neg (by simpa using hmembers), if_neg hgroup', hfs]
    rw [hslots, ← hnodes, slotPositions, slotPositions_fields, List.flatMap_cons,
      List.flatMap_map]
    have htab : Described registry [.variant spot path collection b block]
        [fieldEntry (tabNode group path) b.ref (some group) (some block.key)
          (spot.enter b).site.layoutName]
        [.tab (spot.enter b) ((path.child "tabs").child group.name) block.key group
          (tabNode group path)]
        (tabNode group path).nodes :=
      Described.under (.tab rfl rfl rfl) (.tab hgroup') Described.nil
    exact ⟨htab.append hlaid.described, by simp⟩

theorem groups_described (hfill : Fills registry fill) {collection : String} {block : BlockNode}
    {siblings : List Sibling} :
    ∀ {gs : List (FieldGroup × List Field)} {parts : List (List FieldNode)}
      {es : List IndexEntry},
      Makes (gs.mapM fun g =>
        groupNodes fill (spot.site.nested b) b path block.key siblings g.1 g.2) parts es →
      (es.map IndexEntry.key).Nodup → (∀ g ∈ gs, g ∈ groups registry.settings b) →
      (∀ g ∈ gs, ∀ f ∈ g.2, f.Named) →
      Described registry [.variant spot path collection b block] es
        (slotPositions registry (spot.enter b) block.key
          (gs.flatMap fun g => Slot.ofGroup b path g.1 g.2) parts.flatten)
        (FieldNode.allNodes parts.flatten)
  | [], parts, es, h, _, _, _ => by
    obtain ⟨rfl, rfl⟩ := makes_mapM_nil h
    rw [List.flatten_nil, slotPositions_nil, FieldNode.allNodes]
    exact Described.nil
  | g :: gs, parts, es, h, hkeys, hgroups, hnamed => by
    obtain ⟨nodes, rest, es₁, es₂, hnodes, hrest, rfl, rfl⟩ := makes_mapM_cons h
    rw [List.map_append] at hkeys
    obtain ⟨hkeys₁, hkeys₂, -⟩ := List.nodup_append.mp hkeys
    obtain ⟨hhere, hlength⟩ := group_described hfill (makes_groupNodes hnodes) hkeys₁
      (hnamed g (List.mem_cons_self ..)) (hgroups g (List.mem_cons_self ..))
    rw [List.flatMap_cons, List.flatten_cons, slotPositions_append _ _ hlength,
      FieldNode.allNodes_eq_flatMap, List.flatMap_append, ← FieldNode.allNodes_eq_flatMap,
      ← FieldNode.allNodes_eq_flatMap]
    exact hhere.append (groups_described hfill hrest hkeys₂
      (fun g' hg' => hgroups g' (List.mem_cons_of_mem _ hg'))
      (fun g' hg' => hnamed g' (List.mem_cons_of_mem _ hg')))

theorem mem_modifyFirst {α : Type} {p : α → Bool} {f : α → α} {x : α} :
    ∀ {items : List α}, x ∈ modifyFirst p f items → x ∈ items ∨ ∃ a ∈ items, x = f a
  | [], h => absurd h List.not_mem_nil
  | a :: rest, h => by
    rw [modifyFirst] at h
    split at h
    next =>
      rcases List.mem_cons.mp h with rfl | h
      · exact Or.inr ⟨a, List.mem_cons_self .., rfl⟩
      · exact Or.inl (List.mem_cons_of_mem _ h)
    next =>
      rcases List.mem_cons.mp h with rfl | h
      · exact Or.inl (List.mem_cons_self ..)
      · rcases mem_modifyFirst h with h | ⟨a', ha', rfl⟩
        · exact Or.inl (List.mem_cons_of_mem _ h)
        · exact Or.inr ⟨a', List.mem_cons_of_mem _ ha', rfl⟩

/-- Whatever holds of plain fields, of the declared ones and of rows that took in a collection
holds of all fields that are compiled for a block. -/
theorem groups_forall {Q : Field → Prop} {settings : Settings} {b : Entity}
    (hplain : ∀ f : Field, isValidName f.name = true → f.attributes.blocks = none →
      f.attributes.options = .empty → f.attributes.defaultValue = none → f.subFields = [] → Q f)
    (hrow : ∀ row, Q row → Q (withCollection row))
    (hgiven : ∀ g, ∀ f ∈ b.fields.get g, Q f) :
    ∀ g ∈ groups settings b, ∀ f ∈ g.2, Q f := by
  have hcontent : ∀ f ∈ content b, Q f := by
    intro f hf
    unfold content at hf
    dsimp only at hf
    split at hf
    next =>
      split at hf
      next => exact hgiven .content f hf
      next =>
        rcases List.mem_cons.mp hf with rfl | hf
        · exact hplain _ (by decide +kernel) rfl rfl rfl rfl
        · exact hgiven .content f hf
    next =>
      split at hf
      next =>
        rcases mem_modifyFirst hf with hf | ⟨row, hmem, rfl⟩
        · exact hgiven .content f hf
        · exact hrow row (hgiven .content row hmem)
      next =>
        rcases List.mem_cons.mp hf with rfl | hf
        · exact hrow _ (hplain _ (by decide +kernel) rfl rfl rfl rfl)
        · exact hgiven .content f hf
    next => exact hgiven .content f hf
  have hcore : ∀ f ∈ coreFields, Q f := by
    intro f hf
    simp only [coreFields, List.mem_cons, List.not_mem_nil, or_false] at hf
    rcases hf with rfl | rfl
    · exact hplain _ (by decide +kernel) rfl rfl rfl rfl
    · exact hplain _ (by decide +kernel) rfl rfl rfl rfl
  intro g hg f hf
  simp only [groups, List.mem_cons, List.not_mem_nil, or_false] at hg
  rcases hg with rfl | rfl | rfl
  · exact hcontent f hf
  · exact hgiven .customise f hf
  · rcases List.mem_append.mp hf with hf | hf
    · exact hgiven .configure f hf
    · split at hf
      next => exact hcore f hf
      next => exact absurd hf List.not_mem_nil

theorem withCollection_named {row : Field} (h : row.Named) : (withCollection row).Named := by
  unfold withCollection
  split
  next => exact h
  next =>
    refine .mk h.name fun s hs => ?_
    rcases List.mem_cons.mp hs with rfl | hs
    · exact .mk (by decide +kernel) fun _ h => absurd h List.not_mem_nil
    · exact h.subFields s hs

/-- The fields that the kind of a block calls for have valid names as well. -/
theorem groups_named {settings : Settings} (h : b.Named) :
    ∀ g ∈ groups settings b, ∀ f ∈ g.2, f.Named := by
  refine groups_forall (fun f hname _ _ _ hsubs => .mk hname fun s hs => ?_)
    (fun _ => withCollection_named) h.fields
  rw [hsubs] at hs
  exact absurd hs List.not_mem_nil

theorem block_described (hr : registry.Sound) (hfill : Fills registry fill) {key : String}
    {node : BlockNode} {es : List IndexEntry} {above : Position}
    (h : Makes (block registry.settings fill spot.site (some key) (path.child b.name) b) node es)
    (hkeys : (es.map IndexEntry.key).Nodup) (hblock : registry.block? b.name = some b)
    (hfits : b.fitsIn spot.owner = true) (hnew : b.name ∉ spot.enclosing)
    (hchild : Position.Child registry.settings above
      (.variant spot (path.child b.name) key b node)) :
    Described registry [above] es (blockPositions registry spot path key node) node.nodes ∧
      node.name = b.name ∧ node.key = (path.child b.name).encode .block := by
  obtain ⟨held, parts, hunique, hparts, hnode, rfl⟩ := makes_block h
  have hkey : node.key = (path.child b.name).encode .block := by rw [hnode]
  have hname : node.name = b.name := by rw [hnode]
  have hsubs : node.subFields = parts.flatten := by rw [hnode]
  have hheld : (held.map IndexEntry.key).Nodup :=
    hkeys.sublist ((List.sublist_append_left ..).map _)
  refine ⟨?_, hname, hkey⟩
  rw [blockPositions_eq registry spot path key (hname ▸ hblock), BlockNode.nodes_eq, hsubs, hname]
  rw [← hkey] at hparts
  have hentry : blockEntry spot.site (some key) (path.child b.name) b =
      (Position.variant spot (path.child b.name) key b node).entry := by
    rw [blockEntry, ← hkey, ← hname]
    rfl
  rw [hentry]
  -- The variant is sound by the checks before it was made; its groups stand below it.
  refine Described.under (.variant hblock hkey hname hfits hnew ?_) hchild ?_
  · exact fun g hg => checkUnique_nodup (hunique g hg)
  · exact groups_described hfill hparts hheld (fun _ hg => hg)
      (groups_named (hr.block hblock).2.2)

end Blocks

/-! ## Collections -/

section Collections

variable {registry : Registry}
  {make : Site → Option String → KeyPath → Entity → Compilation BlockNode}

/-- A way to make variants that keeps to the rules. -/
def MakesVariants (registry : Registry)
    (make : Site → Option String → KeyPath → Entity → Compilation BlockNode) : Prop :=
  ∀ {spot : Spot} {path : KeyPath} {key : String} {b : Entity} {node : BlockNode}
    {es : List IndexEntry} {above : Position},
    Makes (make spot.site (some key) (path.child b.name) b) node es →
    (es.map IndexEntry.key).Nodup → registry.block? b.name = some b →
    b.fitsIn spot.owner = true → b.name ∉ spot.enclosing →
    Position.Child registry.settings above (.variant spot (path.child b.name) key b node) →
    Described registry [above] es (blockPositions registry spot path key node) node.nodes ∧
      node.name = b.name ∧ node.key = (path.child b.name).encode .block

/-- Whether a candidate is offered at a spot. -/
def admits (spot : Spot) (candidate : Entity) : Bool :=
  candidate.fitsIn spot.owner && !spot.enclosing.contains candidate.name

/-- A block that is offered does not stand around the collection already. -/
theorem nodup_of_offered {parent candidate : Entity} {enclosing : List String}
    (hnodup : enclosing.Nodup) (h : refusal? parent enclosing candidate = none) :
    (enclosing ++ [candidate.name]).Nodup := by
  have hfresh : candidate.name ∉ enclosing := by
    intro hmem
    unfold refusal? at h
    split at h
    · cases h
    · rw [if_pos (List.contains_iff_mem.mpr hmem)] at h
      cases h
  refine List.nodup_append.mpr ⟨hnodup, List.nodup_singleton _, fun name hname other hother => ?_⟩
  rw [List.mem_singleton.mp hother]
  rintro rfl
  exact hfresh hname

theorem refusal?_eq_none_iff {spot : Spot} {candidate : Entity} :
    refusal? spot.owner spot.site.enclosing candidate = none ↔ admits spot candidate = true := by
  have henclosing : spot.site.enclosing.contains candidate.name =
      spot.enclosing.contains candidate.name := List.contains_reverse
  unfold refusal? admits
  rw [henclosing]
  cases candidate.fitsIn spot.owner <;> cases spot.enclosing.contains candidate.name <;> simp

theorem candidates_described (hmake : MakesVariants registry make) {spot : Spot} {path : KeyPath}
    {key : String} {above : Position}
    (hchild : ∀ b n, Position.Child registry.settings above
      (.variant spot (path.child b.name) key b n)) :
    ∀ {candidates : List Entity} {parts : List (List (String × BlockNode))}
      {es : List IndexEntry},
      Makes (candidates.mapM (variant make spot.site spot.owner path key)) parts es →
      (es.map IndexEntry.key).Nodup → (∀ c ∈ candidates, registry.block? c.name = some c) →
      Laid registry [above] (fun v => blockPositions registry spot path key v.2)
          (fun v => v.2.nodes) parts.flatten es ∧
        parts.flatten.map (·.2.name) = (candidates.filter (admits spot)).map (·.name) ∧
        ∀ v ∈ parts.flatten, v.1 = v.2.key ∧ v.1 = (path.child v.2.name).encode .block
  | [], parts, es, h, _, _ => by
    obtain ⟨rfl, rfl⟩ := makes_mapM_nil h
    exact ⟨Laid.nil, rfl, fun _ hv => absurd hv List.not_mem_nil⟩
  -- A refused candidate adds nothing, an admitted one its variant.
  | c :: cs, parts, es, h, hkeys, hblocks => by
    obtain ⟨found, rest, es₁, es₂, hfound, hrest, rfl, rfl⟩ := makes_mapM_cons h
    rw [List.map_append] at hkeys
    obtain ⟨hkeys₁, hkeys₂, -⟩ := List.nodup_append.mp hkeys
    obtain ⟨hlaid, hnames, hids⟩ := candidates_described hmake hchild hrest hkeys₂
      fun c' hc' => hblocks c' (List.mem_cons_of_mem _ hc')
    rcases makes_variant hfound with ⟨hrefused, rfl, rfl⟩ | ⟨hoffered, node, hnode, rfl⟩
    · have hno : ¬admits spot c = true := fun h => hrefused (refusal?_eq_none_iff.mpr h)
      rw [List.flatten_cons, List.nil_append, List.nil_append, List.filter_cons_of_neg hno]
      exact ⟨hlaid, hnames, hids⟩
    · have hyes : admits spot c = true := refusal?_eq_none_iff.mp hoffered
      have hfits : c.fitsIn spot.owner = true := (Bool.and_eq_true_iff.mp hyes).1
      have hnew : c.name ∉ spot.enclosing := by
        simpa [admits, hfits] using hyes
      obtain ⟨hhere, hname, hkey⟩ := hmake hnode hkeys₁ (hblocks c (List.mem_cons_self ..)) hfits
        hnew (hchild c node)
      rw [List.flatten_cons, List.singleton_append, List.filter_cons_of_pos hyes]
      refine ⟨Laid.cons hhere hlaid, ?_, fun v hv => ?_⟩
      · rw [List.map_cons, List.map_cons, hnames, hname]
      · rcases List.mem_cons.mp hv with rfl | hv
        · exact ⟨rfl, by rw [hname, hkey]⟩
        · exact hids v hv

theorem variant_keys_sublist :
    ∀ variants : List (String × BlockNode),
      (variants.map (·.2.key)).Sublist
        ((variants.flatMap fun v => v.2.nodes).map TreeNode.id)
  | [] => List.Sublist.refl _
  | v :: rest => by
    rw [List.flatMap_cons, List.map_append, List.map_cons, BlockNode.nodes_eq, List.map_cons]
    exact ((variant_keys_sublist rest).trans (List.sublist_append_right ..)).cons_cons _

theorem offered_fills (hr : registry.Sound) (hmake : MakesVariants registry make) :
    Fills registry (offered registry make) := by
  intro spot filter path key found es above h hkeys hchild
  obtain ⟨l, parent, parts, -, hparent, hparts, rfl⟩ := makes_offered h
  obtain rfl : spot.owner = parent := Option.some.inj hparent
  obtain ⟨hlaid, hnames, hids⟩ := candidates_described hmake hchild hparts hkeys
    fun c hc => (hr.mem_candidates.mp hc).1
  -- The ids of the variants are among those of the entries, so the dictionary keeps them all.
  have hdistinct : (parts.flatten.map (·.2.key)).Nodup :=
    ((hlaid.described.keys_perm.nodup_iff.mp hkeys)).sublist (variant_keys_sublist _)
  have hfst : parts.flatten.map (·.1) = parts.flatten.map (·.2.key) :=
    List.map_congr_left fun v hv => (hids v hv).1
  have hperm : (Entries.ofList parts.flatten).Perm parts.flatten :=
    Entries.ofList_perm (hfst ▸ hdistinct)
  refine ⟨?_, ?_, ?_, ?_⟩
  · rw [variantPositions_eq_flatMap, BlockNode.allNodes_eq_flatMap]
    exact (hlaid.of_perm hperm).described
  · intro name
    rw [(hperm.map (·.2.name)).mem_iff, hnames, List.mem_map]
    constructor
    · rintro ⟨b, hb, rfl⟩
      obtain ⟨hcandidate, hadmits⟩ := List.mem_filter.mp hb
      obtain ⟨hblock, haccepts⟩ := hr.mem_candidates.mp hcandidate
      have hfits : b.fitsIn spot.owner = true := (Bool.and_eq_true_iff.mp hadmits).1
      exact ⟨b, hblock, haccepts, hfits, by simpa [admits, hfits] using hadmits⟩
    · rintro ⟨b, hblock, haccepts, hfits, hnew⟩
      obtain rfl := (hr.block hblock).1
      refine ⟨b, List.mem_filter.mpr ⟨hr.mem_candidates.mpr ⟨hblock, haccepts⟩, ?_⟩, rfl⟩
      simp [admits, hfits, hnew]
  -- The ids come from the names, so names are no less distinct than ids.
  · rw [(hperm.map (·.2.name)).nodup_iff]
    have hids' : parts.flatten.map (·.1) =
        (parts.flatten.map (·.2.name)).map fun name => (path.child name).encode .block := by
      rw [List.map_map]
      exact List.map_congr_left fun v hv => (hids v hv).2
    rw [← hfst, hids'] at hdistinct
    exact List.Nodup.of_map _ hdistinct
  · exact fun v hv => (hids v (hperm.mem_iff.mp hv)).1

/-- However many blocks may still nest, collections are filled by the rules. -/
theorem variants_fills (hr : registry.Sound) : ∀ count, Fills registry (variants registry count)
  | 0 => by
    rw [variants]
    exact offered_fills hr fun h => (makes_throw h).elim
  | count + 1 => by
    rw [variants]
    exact offered_fills hr (block_described hr (variants_fills hr count))

theorem fill_fills (hr : registry.Sound) : Fills registry (fill registry) := variants_fills hr _

end Collections

/-! ## Layouts and the field group -/

section Layouts

variable {registry : Registry}

theorem layout_described (hr : registry.Sound) {path : KeyPath} {l : Entity} {node : FieldNode}
    {es : List IndexEntry} (h : Makes (layout registry path l) node es)
    (hkeys : (es.map IndexEntry.key).Nodup) (hlayout : registry.layout? l.name = some l) :
    Described registry [] es
      (.layout (path.child l.name) l (selected registry node) ::
        variantPositions registry ⟨l, []⟩ (path.child l.name) node.key node.layouts)
      (selected registry node).nodes := by
  obtain ⟨variants, held, hvariants, rfl, rfl⟩ := makes_layout h
  have hheld : (held.map IndexEntry.key).Nodup :=
    hkeys.sublist ((List.sublist_append_left ..).map _)
  rw [← Spot.site_layout] at hvariants
  have hbelow : ∀ b n, Position.Child registry.settings
      (.layout (path.child l.name) l (selected registry (layoutNode registry path l variants)))
      (.variant ⟨l, []⟩ ((path.child l.name).child b.name) ((path.child l.name).encode .field)
        b n) :=
    fun _ _ => .ofLayout
  obtain ⟨hinner, hoffers⟩ := fill_fills hr hvariants hheld hbelow
  rw [FieldNode.nodes_eq]
  exact Described.cons (.layout hlayout rfl rfl rfl hoffers) (Or.inl rfl) hinner

theorem layouts_described (hr : registry.Sound) {path : KeyPath} :
    ∀ {ls : List Entity} {nodes : List FieldNode} {es : List IndexEntry},
      Makes (ls.mapM (layout registry path)) nodes es → (es.map IndexEntry.key).Nodup →
      (∀ l ∈ ls, registry.layout? l.name = some l) →
      Described registry [] es (layoutPositions registry path ls (nodes.map (selected registry)))
        (FieldNode.allNodes (nodes.map (selected registry)))
  | [], nodes, es, h, _, _ => by
    obtain ⟨rfl, rfl⟩ := makes_mapM_nil h
    rw [List.map_nil, FieldNode.allNodes]
    exact Described.nil
  | l :: ls, nodes, es, h, hkeys, hlayouts => by
    obtain ⟨node, rest, es₁, es₂, hnode, hrest, rfl, rfl⟩ := makes_mapM_cons h
    rw [List.map_append] at hkeys
    obtain ⟨hkeys₁, hkeys₂, -⟩ := List.nodup_append.mp hkeys
    rw [List.map_cons, layoutPositions, FieldNode.allNodes]
    exact (layout_described hr hnode hkeys₁ (hlayouts l (List.mem_cons_self ..))).append
      (layouts_described hr hrest hkeys₂ fun l' hl' => hlayouts l' (List.mem_cons_of_mem _ hl'))

theorem control_described {path : KeyPath} {node : FieldNode}
    (hkey : node.key = path.encode .field) (hkind : node.kind = .trueFalse ∨ node.kind = .select)
    (hsubs : node.subFields = []) (hlayouts : node.layouts = []) :
    Described registry [] [fieldEntry node (builderRef registry) none none none]
      [.control registry.settings.name path node] node.nodes := by
  rw [FieldNode.nodes_eq, hsubs, hlayouts, FieldNode.allNodes, BlockNode.allNodes]
  exact Described.cons (.control hkey hkind) (Or.inl rfl) Described.nil

/-- The field group of a registry follows the rules, and the entries are those that its positions
call for. -/
theorem fieldGroup_described (hr : registry.Sound) {group : FieldGroupNode}
    {es : List IndexEntry} (h : Makes (fieldGroup registry) group es)
    (hkeys : (es.map IndexEntry.key).Nodup) :
    Described registry [] es (group.positions registry) group.nodes := by
  obtain ⟨layouts, held, hlayouts, hgroup, rfl⟩ := makes_fieldGroup h
  have hheld : (held.map IndexEntry.key).Nodup :=
    hkeys.sublist (((List.sublist_append_left ..).cons _).map _)
  have henabled : Described registry []
      [fieldEntry (enabledField registry) (builderRef registry) none none none]
      [.control registry.settings.name (((root registry).child "settings").child "enabled")
        (enabledField registry)]
      (enabledField registry).nodes :=
    control_described rfl (Or.inl rfl) rfl rfl
  have hselect : Described registry []
      [fieldEntry (selectField registry) (builderRef registry) none none none]
      [.control registry.settings.name (((root registry).child "settings").child "layout")
        (selectField registry)]
      (selectField registry).nodes :=
    control_described rfl (Or.inr rfl) rfl rfl
  have hall := (henabled.append hselect).append
    (layouts_described hr hlayouts hheld fun l hl => hr.mem_layouts.mp hl)
  have hnodes : group.nodes =
      (enabledField registry).nodes ++ (selectField registry).nodes ++
        FieldNode.allNodes (layouts.map (selected registry)) := by
    rw [hgroup, FieldGroupNode.nodes, FieldGroupNode.ofPostTypes, FieldNode.allNodes,
      FieldNode.allNodes, List.append_assoc]
  rw [hnodes, hgroup]
  -- The second control is registered after the layouts and stands before them.
  exact hall.of_perm ((List.perm_append_comm).cons _)

end Layouts

end Compile

end PageBlocks
