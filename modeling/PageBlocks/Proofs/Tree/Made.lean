import PageBlocks.Proofs.Tree.Published

/-!
# What nodes are made of

The rules of a compiled tree say where a node may stand. What a node took over
from its declaration (its options, its logic, the order of its variants) is
told here, again position by position, along with the siblings that the logic
of a field was resolved among: they are in the tree, each under the id that the
table of siblings gives for it.

> `fieldGroup_grown`: all of this for the field group of a registry.

The induction is the one that shows that the compiler follows the rules; it
needs nothing about ids.
-/

namespace PageBlocks

/-- The path of the collection of a layout. -/
def Compile.layoutPath (registry : Registry) (l : Entity) : KeyPath :=
  ((root registry).child "layouts").child l.name

namespace Position

/-- The fields that a condition directly below a node may name. -/
def siblings (settings : Settings) : Position → List Sibling
  | .variant _ path _ b _ => Compile.siblingsOf settings b path
  | .field _ path _ group f node =>
    if node.kind.hasSubFields then Sibling.ofFields group path f.subFields else []
  | _ => []

/-- A declared field as its siblings know it. -/
def sibling? : Position → Option Sibling
  | .field _ _ _ group f node => some ⟨group, f.name, node.key⟩
  | _ => none

/-- What a node consists of, among some other nodes. -/
inductive Made (registry : Registry) (others : List Position) : Position → Prop
  | enabled {path : KeyPath} :
      Made registry others
        (.control registry.settings.name path (Compile.enabledField registry))
  | select {path : KeyPath} :
      Made registry others (.control registry.settings.name path (Compile.selectField registry))
  | layout {l : Entity} {variants : List (String × BlockNode)}
      (hsorted : Entries.Sorted variants) :
      Made registry others (.layout (Compile.layoutPath registry l) l
        (Compile.selected registry
          (Compile.layoutNode registry ((Compile.root registry).child "layouts") l variants)))
  | variant {spot : Spot} {path : KeyPath} {collection : String} {b : Entity}
      {node : BlockNode} : Made registry others (.variant spot path collection b node)
  | tab {spot : Spot} {path own : KeyPath} {parent : String} {group : FieldGroup} :
      Made registry others (.tab spot own parent group (Compile.tabNode group path))
  | field {spot : Spot} {path : KeyPath} {parent : String} {group : FieldGroup} {f : Field}
      {kind : FieldKind} {logic : ConditionalLogic} {rows : List FieldNode}
      {layouts : List (String × BlockNode)}
      (hlogic : ∃ q ∈ others, q.id = parent ∧
        Condition.resolve spot.owner.name f.name (q.siblings registry.settings) group
          f.attributes.condition = .ok logic)
      (hsorted : Entries.Sorted layouts) :
      Made registry others (.field spot path parent group f
        { FieldNode.ofAttributes kind (path.encode .field) f.name f.attributes with
          logic := logic, subFields := rows, layouts := layouts })

theorem Made.mono {registry : Registry} {others others' : List Position} {p : Position}
    (h : p.Made registry others) (hsub : ∀ q ∈ others, q ∈ others') : p.Made registry others' := by
  cases h with
  | enabled => exact .enabled
  | select => exact .select
  | layout hsorted => exact .layout hsorted
  | variant => exact .variant
  | tab => exact .tab
  | field hlogic hsorted =>
    obtain ⟨q, hq, hlogic⟩ := hlogic
    exact .field ⟨q, hsub q hq, hlogic⟩ hsorted

end Position

/-- Every sibling of some fields below a node stands below it, among some positions. -/
def Answers (parent : String) (siblings : List Sibling) (positions : List Position) : Prop :=
  ∀ s ∈ siblings, ∃ p ∈ positions, p.parent = some parent ∧ p.sibling? = some s

namespace Answers

variable {parent : String} {ss ss' : List Sibling} {ps ps' : List Position}

theorem nil : Answers parent [] ps := fun _ h => absurd h List.not_mem_nil

theorem mono (h : Answers parent ss ps) (hsub : ∀ p ∈ ps, p ∈ ps') : Answers parent ss ps' := by
  intro s hs
  obtain ⟨p, hp, hfound⟩ := h s hs
  exact ⟨p, hsub p hp, hfound⟩

theorem append (h : Answers parent ss ps) (h' : Answers parent ss' ps') :
    Answers parent (ss ++ ss') (ps ++ ps') := by
  intro s hs
  rcases List.mem_append.mp hs with hs | hs
  · exact h.mono (fun _ hp => List.mem_append_left _ hp) s hs
  · exact h'.mono (fun _ hp => List.mem_append_right _ hp) s hs

end Answers

/-- Positions below some others, each made among all of them, with all the siblings that fields
below any of them may name. -/
structure Grown (registry : Registry) (above positions : List Position) : Prop where
  made : ∀ p ∈ positions, p.Made registry (above ++ positions)
  siblings : ∀ q ∈ positions, Answers q.id (q.siblings registry.settings) positions

namespace Grown

variable {registry : Registry} {above : List Position} {ps ps' : List Position}

theorem nil : Grown registry above [] where
  made := fun _ h => absurd h List.not_mem_nil
  siblings := fun _ h => absurd h List.not_mem_nil

theorem append (h : Grown registry above ps) (h' : Grown registry above ps') :
    Grown registry above (ps ++ ps') where
  made := fun p hp => by
    rcases List.mem_append.mp hp with hp | hp
    · refine (h.made p hp).mono fun q hq => ?_
      rw [← List.append_assoc]
      exact List.mem_append_left _ hq
    · refine (h'.made p hp).mono fun q hq => ?_
      rcases List.mem_append.mp hq with hq | hq
      · exact List.mem_append_left _ hq
      · exact List.mem_append_right _ (List.mem_append_right _ hq)
  siblings := fun q hq => by
    rcases List.mem_append.mp hq with hq | hq
    · exact (h.siblings q hq).mono fun _ hp => List.mem_append_left _ hp
    · exact (h'.siblings q hq).mono fun _ hp => List.mem_append_right _ hp

theorem flatMap {ι : Type} {positions : ι → List Position} :
    ∀ {items : List ι}, (∀ item ∈ items, Grown registry above (positions item)) →
      Grown registry above (items.flatMap positions)
  | [], _ => nil
  | item :: items, h => by
    rw [List.flatMap_cons]
    exact (h item (List.mem_cons_self ..)).append
      (flatMap fun i hi => h i (List.mem_cons_of_mem _ hi))

/-- A node on top of everything below it. -/
theorem cons {p : Position} (hmade : p.Made registry above)
    (hsiblings : Answers p.id (p.siblings registry.settings) ps) (h : Grown registry [p] ps) :
    Grown registry above (p :: ps) where
  made := fun q hq => by
    rcases List.mem_cons.mp hq with rfl | hq
    · exact hmade.mono fun _ hq' => List.mem_append_left _ hq'
    · exact (h.made q hq).mono fun _ hq' => List.mem_append_right _ hq'
  siblings := fun q hq => by
    rcases List.mem_cons.mp hq with rfl | hq
    · exact hsiblings.mono fun _ hq' => List.mem_cons_of_mem _ hq'
    · exact (h.siblings q hq).mono fun _ hq' => List.mem_cons_of_mem _ hq'

end Grown

namespace Compile

open Compilation

/-- A way to fill collections whose variants are grown, in the order of their ids. -/
def Grows (registry : Registry) (fill : Filling) : Prop :=
  ∀ {spot : Spot} {filter : NameFilter} {path : KeyPath} {key : String}
    {found : List (String × BlockNode)} {es : List IndexEntry} (above : List Position),
    Makes (fill spot.site filter path key) found es →
    Entries.Sorted found ∧ Grown registry above (variantPositions registry spot path key found)

/-! ## Fields -/

section Fields

variable {registry : Registry} {fill : Filling} {spot : Spot} {group : FieldGroup}

/-- Fields beside the nodes that were made of them are the siblings that they are known as. -/
theorem answers_fields {path : KeyPath} {parent : String} {fs : List Field}
    {items : List (Field × FieldNode)} (hfs : ∀ f ∈ fs, f ∈ items.map (·.1))
    (hkeys : ∀ item ∈ items, item.2.key = (path.child item.1.name).encode .field) :
    Answers parent (Sibling.ofFields group path fs)
      (items.flatMap fun item =>
        fieldPositions registry spot (path.child item.1.name) parent group item.1 item.2) := by
  intro s hs
  unfold Sibling.ofFields at hs
  obtain ⟨f, hf, rfl⟩ := List.mem_map.mp hs
  obtain ⟨item, hitem, rfl⟩ := List.mem_map.mp (hfs f hf)
  refine ⟨.field spot (path.child item.1.name) parent group item.1 item.2,
    List.mem_flatMap.mpr ⟨item, hitem, ?_⟩, rfl, ?_⟩
  · rw [fieldPositions_eq]
    exact List.mem_cons_self ..
  · rw [Position.sibling?, hkeys item hitem]

mutual
theorem field_grown (hfill : Grows registry fill) :
    ∀ (f : Field) {path : KeyPath} {node : FieldNode} {es : List IndexEntry} {above : Position},
      Makes (field fill spot.site spot.owner group (above.siblings registry.settings) path above.id
        f) node es →
      node.key = (path.child f.name).encode .field ∧
        Grown registry [above]
          (fieldPositions registry spot (path.child f.name) above.id group f node)
  | ⟨name, attributes, subFields⟩, path, node, es, above, h => by
    obtain ⟨kind, logic, rows, layouts, held, -, hlogic, hholds, hnode, -⟩ := makes_field h
    have hkey : node.key = (path.child name).encode .field := by rw [hnode]; rfl
    have hrows : node.subFields = rows := by rw [hnode]
    have hlayouts : node.layouts = layouts := by rw [hnode]
    have hkind : node.kind = kind := by rw [hnode]; rfl
    refine ⟨hkey, ?_⟩
    -- Whatever it holds, the field itself is what its declaration says.
    have hmade : Entries.Sorted layouts → Position.Made registry [above]
        (.field spot (path.child name) above.id group ⟨name, attributes, subFields⟩ node) := by
      intro hsorted
      rw [hnode]
      exact .field ⟨above, List.mem_cons_self .., rfl, hlogic⟩ hsorted
    rw [fieldPositions_eq, hrows, hlayouts]
    cases hholds with
    | nothing _ hnoRows =>
      rw [slotPositions_nil, variantPositions]
      refine Grown.cons (hmade Entries.sorted_nil) ?_ Grown.nil
      rw [Position.siblings, hkind, hnoRows]
      exact Answers.nil
    | variants hfound =>
      obtain ⟨hsorted, hinner⟩ := hfill [_] hfound
      rw [slotPositions_nil, hkey]
      refine Grown.cons (hmade hsorted) ?_ hinner
      rw [Position.siblings, hkind]
      exact Answers.nil
    | rows hsub _ hfields =>
      have hsiblings : Position.siblings registry.settings
          (.field spot (path.child name) above.id group ⟨name, attributes, subFields⟩ node) =
          Sibling.ofFields group (path.child name) subFields := by
        rw [Position.siblings, hkind, if_pos hsub]
      rw [← hkey, ← hsiblings] at hfields
      obtain ⟨items, hfs, rfl, hitems⟩ := fields_grown hfill subFields _ hfields
      have hslots : Slot.ofRow (path.child name) group subFields =
          (items.map (·.1)).map fun f =>
            Slot.field ((path.child name).child f.name) group f := by
        rw [Slot.ofRow, hfs]
      rw [hslots, slotPositions_fields (fun f => (path.child name).child f.name),
        variantPositions, List.append_nil]
      refine Grown.cons (hmade Entries.sorted_nil) ?_
        (Grown.flatMap fun item hitem => (hitems item hitem).2)
      rw [hsiblings]
      exact answers_fields (fun f hf => hfs ▸ hf) fun item hitem => (hitems item hitem).1

theorem fields_grown (hfill : Grows registry fill) :
    ∀ (fs : List Field) (above : Position) {path : KeyPath} {nodes : List FieldNode}
      {es : List IndexEntry},
      Makes (fields fill spot.site spot.owner group (above.siblings registry.settings) path above.id
        fs) nodes es →
      ∃ items : List (Field × FieldNode), items.map (·.1) = fs ∧ items.map (·.2) = nodes ∧
        ∀ item ∈ items, item.2.key = (path.child item.1.name).encode .field ∧
          Grown registry [above]
            (fieldPositions registry spot (path.child item.1.name) above.id group item.1 item.2)
  | [], above, path, nodes, es, h => by
    obtain ⟨rfl, -⟩ := makes_fields_nil h
    exact ⟨[], rfl, rfl, fun _ h => absurd h List.not_mem_nil⟩
  | f :: fs, above, path, nodes, es, h => by
    obtain ⟨node, rest, es₁, es₂, hnode, hrest, rfl, rfl⟩ := makes_fields_cons h
    obtain ⟨items, rfl, rfl, hitems⟩ := fields_grown hfill fs above hrest
    refine ⟨(f, node) :: items, rfl, rfl, fun item hitem => ?_⟩
    rcases List.mem_cons.mp hitem with rfl | hitem
    · exact field_grown hfill f hnode
    · exact hitems item hitem
end

end Fields

/-! ## Blocks -/

section Blocks

variable {registry : Registry} {fill : Filling} {spot : Spot} {b : Entity} {path : KeyPath}

theorem group_grown (hfill : Grows registry fill) (collection : String) {block : BlockNode}
    {group : FieldGroup} {members : List Field} {nodes : List FieldNode} {es : List IndexEntry}
    (h : GroupHolds fill (spot.site.nested b) b path block.key (siblingsOf registry.settings b path)
      group members nodes es) :
    Grown registry [.variant spot path collection b block]
        (slotPositions registry (spot.enter b) block.key (Slot.ofGroup b path group members)
          nodes) ∧
      Answers block.key (Sibling.ofFields group (path.child group.name) members)
        (slotPositions registry (spot.enter b) block.key (Slot.ofGroup b path group members)
          nodes) ∧
      (Slot.ofGroup b path group members).length = nodes.length := by
  rw [← Spot.site_enter] at h
  cases h with
  | empty =>
    rw [slotPositions_nil]
    exact ⟨Grown.nil, Answers.nil, rfl⟩
  | content hmembers hfields =>
    obtain ⟨items, hfs, hnodes, hitems⟩ :=
      fields_grown hfill _ (.variant spot path collection b block) hfields
    have hslots : Slot.ofGroup b path .content members =
        ((pinned b members items).map (·.1)).map fun f =>
          Slot.field ((path.child FieldGroup.content.name).child f.name) .content f := by
      rw [Slot.ofGroup, if_neg (by simpa using hmembers), if_pos rfl, pinned_map, hfs]
    rw [hslots, ← hnodes, ← pinned_map, slotPositions_fields]
    -- Pinning moves a field, and loses none.
    have hpinned := pinned_perm b members items
    have hall := fun item hitem => hitems item (hpinned.mem_iff.mp hitem)
    refine ⟨Grown.flatMap fun item hitem => (hall item hitem).2, ?_, by simp⟩
    refine answers_fields (fun f hf => ?_) fun item hitem => (hall item hitem).1
    rw [(hpinned.map (·.1)).mem_iff, hfs]
    exact hf
  | tabbed hgroup hmembers hfields =>
    obtain ⟨items, hfs, hnodes, hitems⟩ :=
      fields_grown hfill _ (.variant spot path collection b block) hfields
    have hslots : Slot.ofGroup b path group members =
        Slot.tab ((path.child "tabs").child group.name) group ::
          (items.map (·.1)).map fun f =>
            Slot.field ((path.child group.name).child f.name) group f := by
      rw [Slot.ofGroup, if_neg (by simpa using hmembers), if_neg hgroup, hfs]
    rw [hslots, ← hnodes, slotPositions, slotPositions_fields]
    have hinner : Grown registry [.variant spot path collection b block] (items.flatMap fun item =>
        fieldPositions registry (spot.enter b) ((path.child group.name).child item.1.name) block.key
          group item.1 item.2) :=
      Grown.flatMap fun item hitem => (hitems item hitem).2
    have htab : Grown registry [.variant spot path collection b block]
        [.tab (spot.enter b) ((path.child "tabs").child group.name) block.key group
          (tabNode group path)] :=
      Grown.cons .tab Answers.nil Grown.nil
    refine ⟨htab.append hinner, ?_, by simp⟩
    exact (answers_fields (fun f hf => hfs ▸ hf) fun item hitem => (hitems item hitem).1).mono
      fun p hp => List.mem_cons_of_mem _ hp

theorem groups_grown (hfill : Grows registry fill) (collection : String) {block : BlockNode} :
    ∀ {gs : List (FieldGroup × List Field)} {parts : List (List FieldNode)}
      {es : List IndexEntry},
      Makes (gs.mapM fun g => groupNodes fill (spot.site.nested b) b path block.key
        (siblingsOf registry.settings b path) g.1 g.2) parts es →
      Grown registry [.variant spot path collection b block]
          (slotPositions registry (spot.enter b) block.key
            (gs.flatMap fun g => Slot.ofGroup b path g.1 g.2) parts.flatten) ∧
        Answers block.key
          (gs.flatMap fun g => Sibling.ofFields g.1 (path.child g.1.name) g.2)
          (slotPositions registry (spot.enter b) block.key
            (gs.flatMap fun g => Slot.ofGroup b path g.1 g.2) parts.flatten)
  | [], parts, es, h => by
    obtain ⟨rfl, -⟩ := makes_mapM_nil h
    rw [List.flatten_nil, slotPositions_nil]
    exact ⟨Grown.nil, Answers.nil⟩
  | g :: gs, parts, es, h => by
    obtain ⟨nodes, rest, es₁, es₂, hnodes, hrest, rfl, rfl⟩ := makes_mapM_cons h
    obtain ⟨hhere, hanswers, hlength⟩ :=
      group_grown hfill collection (makes_groupNodes hnodes)
    obtain ⟨hthere, hanswers'⟩ := groups_grown hfill collection hrest
    rw [List.flatMap_cons, List.flatMap_cons, List.flatten_cons, slotPositions_append _ _ hlength]
    exact ⟨hhere.append hthere, hanswers.append hanswers'⟩

theorem block_grown (hfill : Grows registry fill) {collection : String} {node : BlockNode}
    {es : List IndexEntry} {above : List Position}
    (h : Makes (block registry.settings fill spot.site (some collection) (path.child b.name) b)
      node es) (hblock : registry.block? b.name = some b) :
    Grown registry above (blockPositions registry spot path collection node) := by
  obtain ⟨held, parts, -, hparts, hnode, -⟩ := makes_block h
  have hkey : node.key = (path.child b.name).encode .block := by rw [hnode]
  have hname : node.name = b.name := by rw [hnode]
  have hsubs : node.subFields = parts.flatten := by rw [hnode]
  rw [blockPositions_eq registry spot path collection (hname ▸ hblock), hsubs, hname]
  rw [← hkey] at hparts
  obtain ⟨hinner, hanswers⟩ := groups_grown hfill collection hparts
  exact Grown.cons .variant hanswers hinner

end Blocks

/-! ## Collections -/

section Collections

variable {registry : Registry}
  {make : Site → Option String → KeyPath → Entity → Compilation BlockNode}

/-- A way to make variants that are grown. -/
def GrowsVariants (registry : Registry)
    (make : Site → Option String → KeyPath → Entity → Compilation BlockNode) : Prop :=
  ∀ {spot : Spot} {path : KeyPath} {key : String} {b : Entity} {node : BlockNode}
    {es : List IndexEntry} (above : List Position),
    Makes (make spot.site (some key) (path.child b.name) b) node es →
    registry.block? b.name = some b →
    Grown registry above (blockPositions registry spot path key node)

theorem candidates_grown (hmake : GrowsVariants registry make) {spot : Spot} {path : KeyPath}
    {key : String} (above : List Position) :
    ∀ {candidates : List Entity} {parts : List (List (String × BlockNode))}
      {es : List IndexEntry},
      Makes (candidates.mapM (variant make spot.site spot.owner path key)) parts es →
      (∀ c ∈ candidates, registry.block? c.name = some c) →
      ∀ v ∈ parts.flatten, Grown registry above (blockPositions registry spot path key v.2)
  | [], parts, es, h, _ => by
    obtain ⟨rfl, -⟩ := makes_mapM_nil h
    exact fun _ hv => absurd hv List.not_mem_nil
  | c :: cs, parts, es, h, hblocks => by
    obtain ⟨found, rest, es₁, es₂, hfound, hrest, rfl, rfl⟩ := makes_mapM_cons h
    intro v hv
    rw [List.flatten_cons] at hv
    rcases List.mem_append.mp hv with hv | hv
    · rcases makes_variant hfound with ⟨-, rfl, -⟩ | ⟨-, node, hnode, rfl⟩
      · exact absurd hv List.not_mem_nil
      · obtain rfl := List.mem_singleton.mp hv
        exact hmake above hnode (hblocks c (List.mem_cons_self ..))
    · exact candidates_grown hmake above hrest (fun c' hc' => hblocks c' (List.mem_cons_of_mem _ hc'))
        v hv

theorem offered_grows (hr : registry.Sound) (hmake : GrowsVariants registry make) :
    Grows registry (offered registry make) := by
  intro spot filter path key found es above h
  obtain ⟨l, parent, parts, -, hparent, hparts, rfl⟩ := makes_offered h
  obtain rfl : spot.owner = parent := Option.some.inj hparent
  have hall := candidates_grown hmake above hparts fun c hc => (hr.mem_candidates.mp hc).1
  refine ⟨Entries.sorted_ofList _, ?_⟩
  rw [variantPositions_eq_flatMap]
  exact Grown.flatMap fun v hv => hall v (Entries.mem_ofList hv)

/-- However many blocks may still nest, collections are filled with what is grown. -/
theorem variants_grows (hr : registry.Sound) : ∀ count, Grows registry (variants registry count)
  | 0 => by
    rw [variants]
    exact offered_grows hr fun _ h => (makes_throw h).elim
  | count + 1 => by
    rw [variants]
    exact offered_grows hr fun _ h hblock => block_grown (variants_grows hr count) h hblock

end Collections

/-! ## Layouts and the field group -/

section Layouts

variable {registry : Registry}

theorem layout_grown (hr : registry.Sound) {l : Entity} {node : FieldNode}
    {es : List IndexEntry}
    (h : Makes (layout registry ((root registry).child "layouts") l) node es) :
    Grown registry []
      (.layout (layoutPath registry l) l (selected registry node) ::
        variantPositions registry ⟨l, []⟩ (layoutPath registry l) node.key node.layouts) := by
  obtain ⟨variants, held, hvariants, rfl, -⟩ := makes_layout h
  rw [← Spot.site_layout] at hvariants
  obtain ⟨hsorted, hinner⟩ := variants_grows hr _ [_] hvariants
  exact Grown.cons (.layout hsorted) Answers.nil hinner

theorem layouts_grown (hr : registry.Sound) :
    ∀ {ls : List Entity} {nodes : List FieldNode} {es : List IndexEntry},
      Makes (ls.mapM (layout registry ((root registry).child "layouts"))) nodes es →
      Grown registry [] (layoutPositions registry ((root registry).child "layouts") ls
        (nodes.map (selected registry)))
  | [], nodes, es, h => by
    obtain ⟨rfl, -⟩ := makes_mapM_nil h
    exact Grown.nil
  | l :: ls, nodes, es, h => by
    obtain ⟨node, rest, es₁, es₂, hnode, hrest, rfl, rfl⟩ := makes_mapM_cons h
    rw [List.map_cons, layoutPositions]
    exact (layout_grown hr hnode).append (layouts_grown hr hrest)

/-- Everything in the field group of a registry is grown. -/
theorem fieldGroup_grown (hr : registry.Sound) {group : FieldGroupNode} {es : List IndexEntry}
    (h : Makes (fieldGroup registry) group es) :
    Grown registry [] (group.positions registry) := by
  obtain ⟨layouts, held, hlayouts, hgroup, -⟩ := makes_fieldGroup h
  rw [hgroup]
  have henabled : Grown registry [] [.control registry.settings.name
      (((root registry).child "settings").child "enabled") (enabledField registry)] :=
    Grown.cons .enabled Answers.nil Grown.nil
  have hselect : Grown registry [] [.control registry.settings.name
      (((root registry).child "settings").child "layout") (selectField registry)] :=
    Grown.cons .select Answers.nil Grown.nil
  exact (henabled.append hselect).append (layouts_grown hr hlayouts)

end Layouts

end Compile

/-- Everything in a compiled tree is grown. -/
theorem compile_grown {definitions : Definitions} {resources : Resources}
    {registry : Registry} {now : Instant} {schema : CompiledSchema}
    (hbuilt : Attempt.Gives (Registry.build definitions resources) registry)
    (hcompiled : Attempt.Gives (compile registry now) schema) :
    Grown registry [] (schema.group.positions registry) := by
  obtain ⟨entries, hmakes, -⟩ := compile_gives hcompiled
  exact Compile.fieldGroup_grown (Registry.build_sound hbuilt) hmakes

/-- The controls come first in a compiled tree, and the collections of the layouts after them. -/
theorem compile_fields {registry : Registry} {now : Instant} {schema : CompiledSchema}
    (h : Attempt.Gives (compile registry now) schema) :
    ∃ layouts, schema.group.fields = Compile.enabledField registry ::
      Compile.selectField registry :: layouts := by
  obtain ⟨entries, hmakes, -⟩ := compile_gives h
  obtain ⟨layouts, -, -, hgroup, -⟩ := Compile.makes_fieldGroup hmakes
  exact ⟨_, by rw [hgroup]; rfl⟩

theorem FieldGroupNode.mem_nodes {group : FieldGroupNode} {node : FieldNode}
    (h : node ∈ group.fields) : .field node ∈ group.nodes := by
  rw [FieldGroupNode.nodes, FieldNode.allNodes_eq_flatMap]
  refine List.mem_flatMap.mpr ⟨node, h, ?_⟩
  rw [FieldNode.nodes_eq]
  exact List.mem_cons_self ..

/-- The controls are nodes of a compiled tree. -/
theorem compile_control_nodes {registry : Registry} {now : Instant} {schema : CompiledSchema}
    (h : Attempt.Gives (compile registry now) schema) :
    .field (Compile.enabledField registry) ∈ schema.group.nodes ∧
      .field (Compile.selectField registry) ∈ schema.group.nodes := by
  obtain ⟨layouts, hfields⟩ := compile_fields h
  refine ⟨FieldGroupNode.mem_nodes ?_, FieldGroupNode.mem_nodes ?_⟩
  · rw [hfields]
    exact List.mem_cons_self ..
  · rw [hfields]
    exact List.mem_cons_of_mem _ (List.mem_cons_self ..)

end PageBlocks
