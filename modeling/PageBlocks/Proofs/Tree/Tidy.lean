import PageBlocks.Proofs.Tree.Visited

/-!
# Names beside each other

Rows and values are kept by name, so nodes beside each other must not share one.
The names of a group were checked together with the name of its tab before its
nodes were made, and so were the names of the sub-fields of a field. Nothing was
checked at the top: the field of a layout named `enabled` or `layout` has the
name of a control.

> `compile_tidy`: below the top no two nodes of a group share a name;
>
> `compile_top_names`: at the top none do unless a layout is named like that.
-/

namespace PageBlocks

open Compilation

/-- Fields with the groups of a block that they belong to, by the entries that were registered for
them. -/
def Filed (entries : List IndexEntry) (parts : List (FieldGroup × List FieldNode)) : Prop :=
  ∀ part ∈ parts, (part.2.map (·.name)).Nodup ∧
    ∀ node ∈ part.2, ∃ e ∈ entries, e.key = node.key ∧ e.group = some part.1

/-- A node below which no two nodes of a group share a name. -/
def TreeNode.Tidy (entries : List IndexEntry) : TreeNode → Prop
  | .field n => (n.subFields.map (·.name)).Nodup
  | .block n => ∃ parts : List (FieldGroup × List FieldNode),
      n.subFields = parts.flatMap (·.2) ∧ (parts.map (·.1)).Nodup ∧ Filed entries parts

theorem Filed.mono {es es' : List IndexEntry} {parts : List (FieldGroup × List FieldNode)}
    (h : Filed es parts) (hsub : es ⊆ es') : Filed es' parts := by
  intro part hpart
  refine ⟨(h part hpart).1, fun node hnode => ?_⟩
  obtain ⟨e, he, hfound⟩ := (h part hpart).2 node hnode
  exact ⟨e, hsub he, hfound⟩

theorem TreeNode.Tidy.mono {es es' : List IndexEntry} {n : TreeNode} (h : n.Tidy es)
    (hsub : es ⊆ es') : n.Tidy es' := by
  cases n with
  | field n => exact h
  | block n =>
    obtain ⟨parts, hparts, hgroups, hfiled⟩ := h
    exact ⟨parts, hparts, hgroups, hfiled.mono hsub⟩

namespace Compile

/-- A way to fill collections with tidy nodes. -/
def Tidies (fill : Filling) : Prop :=
  ∀ {site : Site} {filter : NameFilter} {path : KeyPath} {key : String}
    {found : List (String × BlockNode)} {es : List IndexEntry},
    Makes (fill site filter path key) found es → ∀ n ∈ BlockNode.allNodes found, n.Tidy es

/-! ## Fields -/

section Fields

variable {fill : Filling} {site : Site} {owner : Entity} {group : FieldGroup}

mutual
theorem field_tidy (hfill : Tidies fill) :
    ∀ (f : Field) {siblings : List Sibling} {path : KeyPath} {parent : String} {node : FieldNode}
      {es : List IndexEntry},
      Makes (field fill site owner group siblings path parent f) node es →
      node.name = f.name ∧ (∃ e ∈ es, e.key = node.key ∧ e.group = some group) ∧
        ∀ n ∈ node.nodes, n.Tidy es
  | ⟨name, attributes, subFields⟩, siblings, path, parent, node, es, h => by
    obtain ⟨kind, logic, rows, layouts, held, -, -, hholds, hnode, rfl⟩ := makes_field h
    have hname : node.name = name := by rw [hnode]; rfl
    have hrows : node.subFields = rows := by rw [hnode]
    have hlayouts : node.layouts = layouts := by rw [hnode]
    refine ⟨hname, ⟨_, List.mem_append_right _ (List.mem_cons_self ..), rfl, rfl⟩, ?_⟩
    have hheld : held ⊆ held ++
        [fieldEntry node owner.ref (some group) (some parent) site.layoutName] :=
      List.subset_append_left ..
    intro n hn
    rw [FieldNode.nodes_eq, hrows, hlayouts] at hn
    rcases List.mem_cons.mp hn with rfl | hn
    · show (node.subFields.map (·.name)).Nodup
      rw [hrows]
      cases hholds with
      | nothing => exact List.nodup_nil
      | variants => exact List.nodup_nil
      | rows _ hunique hfields =>
        rw [(fields_tidy hfill subFields hfields).1]
        exact checkUnique_nodup hunique
    · cases hholds with
      | nothing =>
        rw [FieldNode.allNodes, BlockNode.allNodes] at hn
        exact absurd hn List.not_mem_nil
      | variants hfound =>
        rw [FieldNode.allNodes, List.nil_append] at hn
        exact (hfill hfound n hn).mono hheld
      | rows _ _ hfields =>
        rw [BlockNode.allNodes, List.append_nil] at hn
        exact ((fields_tidy hfill subFields hfields).2.2 n hn).mono hheld

theorem fields_tidy (hfill : Tidies fill) :
    ∀ (fs : List Field) {siblings : List Sibling} {path : KeyPath} {parent : String}
      {nodes : List FieldNode} {es : List IndexEntry},
      Makes (fields fill site owner group siblings path parent fs) nodes es →
      nodes.map (·.name) = fs.map (·.name) ∧
        (∀ node ∈ nodes, ∃ e ∈ es, e.key = node.key ∧ e.group = some group) ∧
        ∀ n ∈ FieldNode.allNodes nodes, n.Tidy es
  | [], siblings, path, parent, nodes, es, h => by
    obtain ⟨rfl, -⟩ := makes_fields_nil h
    rw [FieldNode.allNodes]
    exact ⟨rfl, fun _ h => absurd h List.not_mem_nil, fun _ h => absurd h List.not_mem_nil⟩
  | f :: fs, siblings, path, parent, nodes, es, h => by
    obtain ⟨node, rest, es₁, es₂, hnode, hrest, rfl, rfl⟩ := makes_fields_cons h
    obtain ⟨hname, ⟨e, he, hentry⟩, htidy⟩ := field_tidy hfill f hnode
    obtain ⟨hnames, hentries, hall⟩ := fields_tidy hfill fs hrest
    refine ⟨by rw [List.map_cons, List.map_cons, hname, hnames], fun node' hnode' => ?_,
      fun n hn => ?_⟩
    · rcases List.mem_cons.mp hnode' with rfl | hnode'
      · exact ⟨e, List.mem_append_left _ he, hentry⟩
      · obtain ⟨e', he', hentry'⟩ := hentries node' hnode'
        exact ⟨e', List.mem_append_right _ he', hentry'⟩
    · rw [FieldNode.allNodes] at hn
      rcases List.mem_append.mp hn with hn | hn
      · exact (htidy n hn).mono (List.subset_append_left ..)
      · exact (hall n hn).mono (List.subset_append_right ..)
end

end Fields

/-! ## Blocks -/

section Blocks

variable {fill : Filling} {site : Site} {b : Entity} {path : KeyPath} {key : String}
  {siblings : List Sibling}

/-- The nodes of a group have the names that were checked, that of the tab among them. -/
theorem group_tidy (hfill : Tidies fill) {group : FieldGroup} {members : List Field}
    {nodes : List FieldNode} {es : List IndexEntry}
    (h : GroupHolds fill site b path key siblings group members nodes es)
    (hunique : (takenNames group members).Nodup) :
    Filed es [(group, nodes)] ∧ ∀ n ∈ FieldNode.allNodes nodes, n.Tidy es := by
  have hfiled : ∀ {nodes : List FieldNode} {es : List IndexEntry},
      (nodes.map (·.name)).Nodup →
      (∀ node ∈ nodes, ∃ e ∈ es, e.key = node.key ∧ e.group = some group) →
      Filed es [(group, nodes)] := by
    intro nodes es hnames hentries part hpart
    rw [List.mem_singleton.mp hpart]
    exact ⟨hnames, hentries⟩
  cases h with
  | empty =>
    rw [FieldNode.allNodes]
    exact ⟨hfiled List.nodup_nil fun _ h => absurd h List.not_mem_nil,
      fun _ h => absurd h List.not_mem_nil⟩
  | @content _ made _ hmembers hfields =>
    obtain ⟨hnames, hentries, hall⟩ := fields_tidy hfill members hfields
    have hpinned := pinned_perm b members made
    refine ⟨hfiled ?_ fun node hnode => hentries node (hpinned.mem_iff.mp hnode), fun n hn => ?_⟩
    · rw [(hpinned.map (·.name)).nodup_iff, hnames]
      exact (List.nodup_append.mp hunique).1
    · rw [FieldNode.allNodes_eq_flatMap, (hpinned.flatMap_right _).mem_iff,
        ← FieldNode.allNodes_eq_flatMap] at hn
      exact hall n hn
  | @tabbed _ _ made _ hgroup hmembers hfields =>
    obtain ⟨hnames, hentries, hall⟩ := fields_tidy hfill members hfields
    have htaken : takenNames group members = members.map (·.name) ++ [group.tabName] := by
      unfold takenNames
      rw [if_pos ⟨hgroup, by simpa using hmembers⟩]
    rw [htaken] at hunique
    obtain ⟨hmembersNodup, -, hapart⟩ := List.nodup_append.mp hunique
    refine ⟨hfiled ?_ fun node hnode => ?_, fun n hn => ?_⟩
    · rw [List.map_cons, List.nodup_cons, hnames]
      refine ⟨fun hmem => ?_, hmembersNodup⟩
      exact hapart _ hmem _ (List.mem_singleton_self _) rfl
    · rcases List.mem_cons.mp hnode with rfl | hnode
      · exact ⟨_, List.mem_cons_self .., rfl, rfl⟩
      · obtain ⟨e, he, hentry⟩ := hentries node hnode
        exact ⟨e, List.mem_cons_of_mem _ he, hentry⟩
    · rw [FieldNode.allNodes, FieldNode.nodes_eq] at hn
      rcases List.mem_append.mp hn with hn | hn
      · obtain rfl : n = .field (tabNode group path) := by
          simpa [tabNode, FieldNode.plain, FieldNode.allNodes, BlockNode.allNodes] using hn
        exact List.nodup_nil
      · exact (hall n hn).mono (List.subset_cons_self ..)

theorem groups_tidy (hfill : Tidies fill) :
    ∀ {gs : List (FieldGroup × List Field)} {parts : List (List FieldNode)}
      {es : List IndexEntry},
      Makes (gs.mapM fun g => groupNodes fill site b path key siblings g.1 g.2) parts es →
      (∀ g ∈ gs, (takenNames g.1 g.2).Nodup) →
      (∃ filed : List (FieldGroup × List FieldNode), filed.map (·.1) = gs.map (·.1) ∧
          parts.flatten = filed.flatMap (·.2) ∧ Filed es filed) ∧
        ∀ n ∈ FieldNode.allNodes parts.flatten, n.Tidy es
  | [], parts, es, h, _ => by
    obtain ⟨rfl, -⟩ := makes_mapM_nil h
    rw [List.flatten_nil, FieldNode.allNodes]
    exact ⟨⟨[], rfl, rfl, fun _ h => absurd h List.not_mem_nil⟩,
      fun _ h => absurd h List.not_mem_nil⟩
  | g :: gs, parts, es, h, hunique => by
    obtain ⟨nodes, rest, es₁, es₂, hnodes, hrest, rfl, rfl⟩ := makes_mapM_cons h
    obtain ⟨hhere, htidy⟩ := group_tidy hfill (makes_groupNodes hnodes)
      (hunique g (List.mem_cons_self ..))
    obtain ⟨⟨filed, hgroups, hparts, hfiled⟩, hall⟩ := groups_tidy hfill hrest
      fun g' hg' => hunique g' (List.mem_cons_of_mem _ hg')
    refine ⟨⟨(g.1, nodes) :: filed, ?_, ?_, fun part hpart => ?_⟩, fun n hn => ?_⟩
    · rw [List.map_cons, List.map_cons, hgroups]
    · rw [List.flatten_cons, hparts, List.flatMap_cons]
    · rcases List.mem_cons.mp hpart with rfl | hpart
      · exact hhere.mono (List.subset_append_left ..) _ (List.mem_cons_self ..)
      · exact hfiled.mono (List.subset_append_right ..) part hpart
    · rw [List.flatten_cons, FieldNode.allNodes_eq_flatMap, List.flatMap_append,
        ← FieldNode.allNodes_eq_flatMap, ← FieldNode.allNodes_eq_flatMap] at hn
      rcases List.mem_append.mp hn with hn | hn
      · exact (htidy n hn).mono (List.subset_append_left ..)
      · exact (hall n hn).mono (List.subset_append_right ..)

theorem block_tidy (hfill : Tidies fill) {settings : Settings} {collection : Option String}
    {node : BlockNode} {es : List IndexEntry}
    (h : Makes (block settings fill site collection path b) node es) :
    ∀ n ∈ node.nodes, n.Tidy es := by
  obtain ⟨held, parts, hunique, hparts, hnode, rfl⟩ := makes_block h
  have hsubs : node.subFields = parts.flatten := by rw [hnode]
  obtain ⟨⟨filed, hgroups, hflat, hfiled⟩, hall⟩ := groups_tidy hfill hparts
    fun g hg => checkUnique_nodup (hunique g hg)
  have hheld : held ⊆ held ++ [blockEntry site collection path b] := List.subset_append_left ..
  intro n hn
  rw [BlockNode.nodes_eq] at hn
  rcases List.mem_cons.mp hn with rfl | hn
  · refine ⟨filed, hsubs.trans hflat, ?_, hfiled.mono hheld⟩
    rw [hgroups]
    simp [groups]
  · rw [hsubs] at hn
    exact (hall n hn).mono hheld

end Blocks

/-! ## Collections, layouts and the field group -/

section Collections

variable {registry : Registry}
  {make : Site → Option String → KeyPath → Entity → Compilation BlockNode}

theorem candidates_tidy
    (hmake : ∀ {site collection path b node es}, Makes (make site collection path b) node es →
      ∀ n ∈ BlockNode.nodes node, n.Tidy es)
    {site : Site} {parent : Entity} {path : KeyPath} {key : String} :
    ∀ {candidates : List Entity} {parts : List (List (String × BlockNode))}
      {es : List IndexEntry},
      Makes (candidates.mapM (variant make site parent path key)) parts es →
      ∀ v ∈ parts.flatten, ∀ n ∈ v.2.nodes, n.Tidy es
  | [], parts, es, h => by
    obtain ⟨rfl, -⟩ := makes_mapM_nil h
    exact fun _ hv => absurd hv List.not_mem_nil
  | c :: cs, parts, es, h => by
    obtain ⟨found, rest, es₁, es₂, hfound, hrest, rfl, rfl⟩ := makes_mapM_cons h
    intro v hv n hn
    rw [List.flatten_cons] at hv
    rcases List.mem_append.mp hv with hv | hv
    · rcases makes_variant hfound with ⟨-, rfl, -⟩ | ⟨-, node, hnode, rfl⟩
      · exact absurd hv List.not_mem_nil
      · obtain rfl := List.mem_singleton.mp hv
        exact (hmake hnode n hn).mono (List.subset_append_left ..)
    · exact (candidates_tidy hmake hrest v hv n hn).mono (List.subset_append_right ..)

theorem offered_tidies
    (hmake : ∀ {site collection path b node es}, Makes (make site collection path b) node es →
      ∀ n ∈ BlockNode.nodes node, n.Tidy es) : Tidies (offered registry make) := by
  intro site filter path key found es h n hn
  obtain ⟨l, parent, parts, -, -, hparts, rfl⟩ := makes_offered h
  rw [BlockNode.allNodes_eq_flatMap] at hn
  obtain ⟨v, hv, hn⟩ := List.mem_flatMap.mp hn
  exact candidates_tidy hmake hparts v (Entries.mem_ofList hv) n hn

/-- However many blocks may still nest, collections are filled with tidy nodes. -/
theorem variants_tidies : ∀ count, Tidies (variants registry count) := by
  intro count
  induction count with
  | zero =>
    rw [variants]
    exact offered_tidies fun h => (makes_throw h).elim
  | succ count ih =>
    rw [variants]
    exact offered_tidies fun h => block_tidy ih h

theorem layouts_tidy {path : KeyPath} :
    ∀ {ls : List Entity} {nodes : List FieldNode} {es : List IndexEntry},
      Makes (ls.mapM (layout registry path)) nodes es →
      nodes.map (·.name) = ls.map (layoutSlug registry) ∧
        ∀ n ∈ FieldNode.allNodes (nodes.map (selected registry)), n.Tidy es
  | [], nodes, es, h => by
    obtain ⟨rfl, -⟩ := makes_mapM_nil h
    refine ⟨rfl, fun n hn => ?_⟩
    rw [List.map_nil, FieldNode.allNodes] at hn
    exact absurd hn List.not_mem_nil
  | l :: ls, nodes, es, h => by
    obtain ⟨node, rest, es₁, es₂, hnode, hrest, rfl, rfl⟩ := makes_mapM_cons h
    obtain ⟨variants, held, hvariants, rfl, rfl⟩ := makes_layout hnode
    obtain ⟨hnames, hall⟩ := layouts_tidy hrest
    refine ⟨by rw [List.map_cons, List.map_cons, hnames]; rfl, fun n hn => ?_⟩
    rw [List.map_cons, FieldNode.allNodes, FieldNode.nodes_eq] at hn
    rcases List.mem_append.mp hn with hn | hn
    · rcases List.mem_cons.mp hn with rfl | hn
      · exact List.nodup_nil
      · have hinner : n ∈ BlockNode.allNodes variants := by
          simpa [selected, layoutNode, FieldNode.plain, FieldNode.allNodes] using hn
        refine (variants_tidies _ hvariants n hinner).mono fun e he => ?_
        exact List.mem_append_left _ (List.mem_append_left _ he)
    · exact (hall n hn).mono (List.subset_append_right ..)

/-- Every node of a field group is tidy. -/
theorem fieldGroup_tidy {group : FieldGroupNode} {es : List IndexEntry}
    (h : Makes (fieldGroup registry) group es) : ∀ n ∈ group.nodes, n.Tidy es := by
  obtain ⟨layouts, held, hlayouts, hgroup, rfl⟩ := makes_fieldGroup h
  obtain ⟨-, hall⟩ := layouts_tidy hlayouts
  have hcontrol : ∀ node : FieldNode, node.subFields = [] → node.layouts = [] →
      ∀ n ∈ node.nodes, n.Tidy held := by
    intro node hsubs hvariants n hn
    rw [FieldNode.nodes_eq, hsubs, hvariants, FieldNode.allNodes, BlockNode.allNodes] at hn
    rw [List.mem_singleton.mp hn]
    show (node.subFields.map (·.name)).Nodup
    rw [hsubs]
    exact List.nodup_nil
  have hheld : held ⊆ fieldEntry (enabledField registry) (builderRef registry) none none none ::
      (held ++ [fieldEntry (selectField registry) (builderRef registry) none none none]) :=
    fun e he => List.mem_cons_of_mem _ (List.mem_append_left _ he)
  have hnodes : group.nodes = (enabledField registry).nodes ++
      ((selectField registry).nodes ++ FieldNode.allNodes (layouts.map (selected registry))) := by
    rw [hgroup, FieldGroupNode.nodes, FieldGroupNode.ofPostTypes, FieldNode.allNodes,
      FieldNode.allNodes]
  intro n hn
  rw [hnodes] at hn
  rcases List.mem_append.mp hn with hn | hn
  · exact (hcontrol _ rfl rfl n hn).mono hheld
  · rcases List.mem_append.mp hn with hn | hn
    · exact (hcontrol _ rfl rfl n hn).mono hheld
    · exact (hall n hn).mono hheld

end Collections

end Compile

/-! ## Compiled trees -/

/-- Of fields by group, those of one group are one of the parts, or none. -/
theorem Filed.filter_nodup {entries : List IndexEntry} {index : FlatIndex}
    (hindex : ∀ e ∈ entries, index.lookup e.key = some e) (group : FieldGroup) :
    ∀ {parts : List (FieldGroup × List FieldNode)}, Filed entries parts →
      (parts.map (·.1)).Nodup →
      (((parts.flatMap (·.2)).filter fun node =>
        (index.lookup node.key).bind (·.group) = some group).map (·.name)).Nodup := by
  have hgroupOf : ∀ {part : FieldGroup × List FieldNode} {node : FieldNode},
      Filed entries [part] → node ∈ part.2 →
        (index.lookup node.key).bind (·.group) = some part.1 := by
    intro part node hfiled hnode
    obtain ⟨e, he, hkey, hgroup⟩ := (hfiled part (List.mem_cons_self ..)).2 node hnode
    rw [← hkey, hindex e he]
    exact hgroup
  intro parts
  induction parts with
  | nil => exact fun _ _ => List.nodup_nil
  | cons part rest ih =>
    intro hfiled hgroups
    rw [List.map_cons, List.nodup_cons] at hgroups
    have hhere : Filed entries [part] := fun p hp =>
      List.mem_singleton.mp hp ▸ hfiled part (List.mem_cons_self ..)
    have hrest : Filed entries rest := fun p hp => hfiled p (List.mem_cons_of_mem _ hp)
    rw [List.flatMap_cons, List.filter_append]
    by_cases hgroup : part.1 = group
    · -- The other parts are of other groups.
      have hall : part.2.filter (fun node =>
          (index.lookup node.key).bind (·.group) = some group) = part.2 :=
        List.filter_eq_self.mpr fun node hnode => by
          simpa [hgroup] using hgroupOf hhere hnode
      have hnone : (rest.flatMap (·.2)).filter (fun node =>
          (index.lookup node.key).bind (·.group) = some group) = [] := by
        refine List.filter_eq_nil_iff.mpr fun node hnode hsame => ?_
        obtain ⟨other, hother, hmem⟩ := List.mem_flatMap.mp hnode
        have hfound := hgroupOf (fun p hp => List.mem_singleton.mp hp ▸ hrest other hother) hmem
        rw [hfound] at hsame
        have hothers : other.1 = group := by simpa using hsame
        exact hgroups.1 (List.mem_map.mpr ⟨other, hother, hothers.trans hgroup.symm⟩)
      rw [hall, hnone, List.append_nil]
      exact (hhere part (List.mem_cons_self ..)).1
    · have hnone : part.2.filter (fun node =>
          (index.lookup node.key).bind (·.group) = some group) = [] := by
        refine List.filter_eq_nil_iff.mpr fun node hnode hsame => hgroup ?_
        rw [hgroupOf hhere hnode] at hsame
        simpa using hsame
      rw [hnone, List.nil_append]
      exact ih hrest hgroups.2

variable {registry : Registry} {now : Instant} {schema : CompiledSchema}

/-- Below the top of a compiled tree no two fields of a group of a block, and no two sub-fields of a
field, share a name. -/
theorem compile_tidy (h : Attempt.Gives (compile registry now) schema) :
    (∀ n, .block n ∈ schema.group.nodes → ∀ group,
      ((n.subFields.filter fun node =>
        (schema.index.lookup node.key).bind (·.group) = some group).map (·.name)).Nodup) ∧
      ∀ n, .field n ∈ schema.group.nodes → (n.subFields.map (·.name)).Nodup := by
  obtain ⟨entries, hmakes, hholds, -⟩ := compile_gives h
  have htidy := Compile.fieldGroup_tidy hmakes
  refine ⟨fun n hn group => ?_, fun n hn => htidy _ hn⟩
  obtain ⟨parts, hparts, hgroups, hfiled⟩ := htidy _ hn
  rw [hparts]
  exact hfiled.filter_nodup (fun e he => hholds.lookup_iff.mpr ⟨he, rfl⟩) group hgroups

/-- At the top stand the controls and the layouts, under names of one form. -/
theorem compile_top (h : Attempt.Gives (compile registry now) schema) :
    schema.group.fields.map (·.name) =
      ("enabled" :: "layout" :: registry.layouts.values.map (·.name)).map
        (registry.settings.name ++ "_" ++ ·) := by
  obtain ⟨entries, hmakes, -⟩ := compile_gives h
  obtain ⟨layouts, held, hlayouts, hgroup, -⟩ := Compile.makes_fieldGroup hmakes
  obtain ⟨hnames, -⟩ := Compile.layouts_tidy hlayouts
  have hselected : (layouts.map (Compile.selected registry)).map (·.name) =
      registry.layouts.values.map (Compile.layoutSlug registry) := by
    rw [List.map_map, ← hnames]
    rfl
  have hcontrol : ∀ name, registry.settings.name ++ "_" ++ name =
      registry.settings.name ++ ("_" ++ name) := fun _ => String.append_assoc ..
  rw [hgroup, List.map_cons, List.map_cons, List.map_map, hcontrol, hcontrol]
  show _ :: _ :: (layouts.map (Compile.selected registry)).map (·.name) = _
  rw [hselected]
  rfl

/-- At the top no two fields share a name, unless a layout is named like a control. -/
theorem compile_top_names (hr : registry.Sound) (h : Attempt.Gives (compile registry now) schema) :
    (schema.group.fields.map (·.name)).Nodup ↔
      ∀ l ∈ registry.layouts.values, l.name ≠ "enabled" ∧ l.name ≠ "layout" := by
  have hlayouts : (registry.layouts.values.map (·.name)).Nodup :=
    Registry.nodup_names fun hget => (hr.layout hget).1
  have hinjective : Function.Injective (registry.settings.name ++ "_" ++ ·) :=
    fun _ _ hsame => (String.append_right_inj _).mp hsame
  rw [compile_top h, List.nodup_map_iff hinjective, List.nodup_cons, List.nodup_cons,
    List.mem_cons, not_or, List.mem_map, List.mem_map]
  constructor
  · rintro ⟨⟨-, henabled⟩, hselect, -⟩ l hl
    exact ⟨fun hname => henabled ⟨l, hl, hname⟩, fun hname => hselect ⟨l, hl, hname⟩⟩
  · intro hnames
    refine ⟨⟨by decide, ?_⟩, ?_, hlayouts⟩
    · rintro ⟨l, hl, hname⟩
      exact (hnames l hl).1 hname
    · rintro ⟨l, hl, hname⟩
      exact (hnames l hl).2 hname

end PageBlocks
