import PageBlocks.Proofs.Registry.Larger
import PageBlocks.Proofs.Tree.Coherent
import PageBlocks.Proofs.Tree.Layouts

/-!
# Trees of larger registries

Of two registries the larger one is compiled to a tree with more variants in
every collection that the new blocks fit into, at every depth, and with more
layouts. What the smaller one registers is registered again, unchanged. What is
new stands below a new layout or inside a variant of a new block (`Adds`): a
field that was there before gets no new field inside it.

> `fieldGroup_adds`: compiling a larger registry adds entries to those that
> were registered;
>
> `compile_extends`: its index extends the index of the smaller one.

Both compilations are followed side by side. They need not stop at the same
depth: a larger registry has more blocks to nest.
-/

namespace PageBlocks

open Compilation

/-! ## What is added -/

/-- The entry of a layout or of a new block, or of something inside one of these entries. -/
def StandsIn (r : Registry) (new : List IndexEntry) (e : IndexEntry) : Prop :=
  e.parent = none ∨ (e.node = .block ∧ r.block? e.name = none) ∨
    ∃ e' ∈ new, e.parent = some e'.key

/-- Entries of new layouts and of new blocks, with everything inside them. -/
def Rooted (r : Registry) (new : List IndexEntry) : Prop := ∀ e ∈ new, StandsIn r new e

/-- Some entries are registered again, with new ones among them. -/
def Adds (r : Registry) (es es' : List IndexEntry) : Prop :=
  ∃ new, es'.Perm (es ++ new) ∧ Rooted r new

variable {r larger : Registry} {es es' fs fs' : List IndexEntry}

theorem StandsIn.mono {e : IndexEntry} (h : StandsIn r es e) (hsub : es ⊆ es') :
    StandsIn r es' e := by
  rcases h with hnone | hblock | ⟨e', he', hparent⟩
  · exact .inl hnone
  · exact .inr (.inl hblock)
  · exact .inr (.inr ⟨e', hsub he', hparent⟩)

namespace Rooted

theorem nil : Rooted r [] := fun _ h => absurd h List.not_mem_nil

theorem append (h : Rooted r es) (h' : Rooted r es') : Rooted r (es ++ es') := by
  rw [Rooted, List.forall_mem_append]
  exact ⟨fun e he => (h e he).mono (List.subset_append_left ..),
    fun e he => (h' e he).mono (List.subset_append_right ..)⟩

end Rooted

namespace Adds

theorem refl (es : List IndexEntry) : Adds r es es :=
  ⟨[], by rw [List.append_nil], Rooted.nil⟩

theorem of_rooted (h : Rooted r es) : Adds r [] es := ⟨es, List.Perm.refl _, h⟩

theorem append (h : Adds r es es') (h' : Adds r fs fs') : Adds r (es ++ fs) (es' ++ fs') := by
  obtain ⟨new, hperm, hrooted⟩ := h
  obtain ⟨new', hperm', hrooted'⟩ := h'
  refine ⟨new ++ new', ?_, hrooted.append hrooted'⟩
  -- The new entries of the first part move behind the old ones of the second.
  have hmiddle : (new ++ (fs ++ new')).Perm (fs ++ (new ++ new')) := by
    rw [← List.append_assoc, ← List.append_assoc]
    exact List.perm_append_comm.append_right new'
  have hall := (hperm.append hperm').trans
    (by simpa only [List.append_assoc] using hmiddle.append_left es)
  simpa only [List.append_assoc] using hall

theorem mapM {ι β : Type} {f f' : ι → Compilation β} {old : ι → Bool} :
    ∀ {items : List ι} {bs bs' : List β} {es es' : List IndexEntry},
      Makes ((items.filter old).mapM f) bs es → Makes (items.mapM f') bs' es' →
      (es'.map IndexEntry.key).Nodup →
      (∀ i ∈ items, old i = true → ∀ {b b' es es'}, Makes (f i) b es → Makes (f' i) b' es' →
        (es'.map IndexEntry.key).Nodup → Adds r es es') →
      (∀ i ∈ items, old i = false → ∀ {b es}, Makes (f' i) b es →
        (es.map IndexEntry.key).Nodup → Rooted r es) → Adds r es es'
  | [], bs, bs', es, es', h, h', _, _, _ => by
    obtain ⟨-, rfl⟩ := makes_mapM_nil h
    obtain ⟨-, rfl⟩ := makes_mapM_nil h'
    exact refl []
  | i :: items, bs, bs', es, es', h, h', hkeys, hold, hnew => by
    obtain ⟨b', rest', fs₁, fs₂, hb', hrest', rfl, rfl⟩ := makes_mapM_cons h'
    rw [List.map_append] at hkeys
    obtain ⟨hkeys₁, hkeys₂, -⟩ := List.nodup_append.mp hkeys
    have hmore : ∀ {bs es}, Makes ((items.filter old).mapM f) bs es → Adds r es fs₂ :=
      fun hrest => mapM hrest hrest' hkeys₂ (fun j hj => hold j (List.mem_cons_of_mem _ hj))
        fun j hj => hnew j (List.mem_cons_of_mem _ hj)
    by_cases hi : old i = true
    · rw [List.filter_cons_of_pos hi] at h
      obtain ⟨b, rest, es₁, es₂, hb, hrest, rfl, rfl⟩ := makes_mapM_cons h
      exact (hold i (List.mem_cons_self ..) hi hb hb' hkeys₁).append (hmore hrest)
    · rw [List.filter_cons_of_neg hi] at h
      have hrooted := hnew i (List.mem_cons_self ..) (Bool.eq_false_iff.mpr hi) hb' hkeys₁
      exact (of_rooted hrooted).append (hmore h)

end Adds

/-- Described entries stand below one another, or directly below the positions above. -/
theorem Described.parent {above : List Position} {ps : List Position} {ns : List TreeNode}
    (h : Described larger above es ps ns) :
    ∀ e ∈ es, e.parent = none ∨ (∃ q ∈ above, e.parent = some q.id) ∨
      ∃ e' ∈ es, e.parent = some e'.key := by
  intro e he
  obtain ⟨p, hp, rfl⟩ := List.mem_map.mp (h.entries.mem_iff.mp he)
  rcases h.below p hp with hnone | ⟨q, hq, hchild⟩
  · exact .inl hnone
  · rcases List.mem_append.mp hq with hq | hq
    · exact .inr (.inl ⟨q, hq, hchild.parent_eq⟩)
    · have hentry : q.entry ∈ es := h.entries.mem_iff.mpr (List.mem_map_of_mem hq)
      exact .inr (.inr ⟨q.entry, hentry, hchild.parent_eq⟩)

namespace Compile

/-- Filled a second time, collections have the entries that they had and new ones. -/
def Enlarges (r : Registry) (fill fill' : Filling) : Prop :=
  ∀ {spot : Spot} {filter : NameFilter} {path : KeyPath} {key : String}
    {found found' : List (String × BlockNode)} {es es' : List IndexEntry},
    Makes (fill spot.site filter path key) found es →
    Makes (fill' spot.site filter path key) found' es' → (es'.map IndexEntry.key).Nodup →
    Adds r es es'

/-! ## Fields -/

section Fields

variable {fill fill' : Filling} {spot : Spot} {owner : Entity} {group : FieldGroup}

mutual
theorem field_adds (hfill : Enlarges r fill fill') :
    ∀ (f : Field) {siblings : List Sibling} {path : KeyPath} {parent : String}
      {node node' : FieldNode} {es es' : List IndexEntry},
      Makes (field fill spot.site owner group siblings path parent f) node es →
      Makes (field fill' spot.site owner group siblings path parent f) node' es' →
      (es'.map IndexEntry.key).Nodup → Adds r es es'
  | ⟨name, attributes, subFields⟩, siblings, path, parent, node, node', es, es', h, h', hkeys => by
    obtain ⟨kind, logic, rows, layouts, held, hkind, -, hholds, hnode, rfl⟩ := makes_field h
    obtain ⟨kind', logic', rows', layouts', held', hkind', -, hholds', hnode', rfl⟩ :=
      makes_field h'
    obtain rfl : kind = kind' := Option.some.inj (hkind.symm.trans hkind')
    have hheld : (held'.map IndexEntry.key).Nodup :=
      hkeys.sublist ((List.sublist_append_left ..).map _)
    -- What a field holds is not told by its entry.
    have hentry : fieldEntry node' owner.ref (some group) (some parent) spot.site.layoutName =
        fieldEntry node owner.ref (some group) (some parent) spot.site.layoutName := by
      rw [hnode, hnode']
      rfl
    rw [hentry]
    refine Adds.append ?_ (Adds.refl _)
    cases hholds with
    | nothing hcollection hrows =>
      cases hholds' with
      | nothing => exact Adds.refl []
      | variants => cases hcollection
      | rows hsub => rw [hrows] at hsub; cases hsub
    | variants hfound =>
      cases hholds' with
      | nothing hcollection => cases hcollection
      | variants hfound' => exact hfill hfound hfound' hheld
      | rows hsub => cases hsub
    | rows hsub _ hfields =>
      cases hholds' with
      | nothing _ hrows => rw [hrows] at hsub; cases hsub
      | variants => cases hsub
      | rows _ _ hfields' => exact fields_adds hfill subFields hfields hfields' hheld

theorem fields_adds (hfill : Enlarges r fill fill') :
    ∀ (fs : List Field) {siblings : List Sibling} {path : KeyPath} {parent : String}
      {nodes nodes' : List FieldNode} {es es' : List IndexEntry},
      Makes (fields fill spot.site owner group siblings path parent fs) nodes es →
      Makes (fields fill' spot.site owner group siblings path parent fs) nodes' es' →
      (es'.map IndexEntry.key).Nodup → Adds r es es'
  | [], siblings, path, parent, nodes, nodes', es, es', h, h', _ => by
    obtain ⟨-, rfl⟩ := makes_fields_nil h
    obtain ⟨-, rfl⟩ := makes_fields_nil h'
    exact Adds.refl []
  | f :: fs, siblings, path, parent, nodes, nodes', es, es', h, h', hkeys => by
    obtain ⟨node, rest, es₁, es₂, hnode, hrest, -, rfl⟩ := makes_fields_cons h
    obtain ⟨node', rest', fs₁, fs₂, hnode', hrest', -, rfl⟩ := makes_fields_cons h'
    rw [List.map_append] at hkeys
    obtain ⟨hkeys₁, hkeys₂, -⟩ := List.nodup_append.mp hkeys
    exact (field_adds hfill f hnode hnode' hkeys₁).append
      (fields_adds hfill fs hrest hrest' hkeys₂)
end

end Fields

/-! ## Blocks -/

section Blocks

variable {fill fill' : Filling} {spot : Spot} {b : Entity} {path : KeyPath}

theorem group_adds (hfill : Enlarges r fill fill') {key : String} {siblings : List Sibling}
    {group : FieldGroup} {members : List Field} {nodes nodes' : List FieldNode}
    {es es' : List IndexEntry}
    (h : GroupHolds fill spot.site b path key siblings group members nodes es)
    (h' : GroupHolds fill' spot.site b path key siblings group members nodes' es')
    (hkeys : (es'.map IndexEntry.key).Nodup) : Adds r es es' := by
  cases h with
  | empty =>
    cases h' with
    | empty => exact Adds.refl []
    | content hmembers => exact absurd rfl hmembers
    | tabbed _ hmembers => exact absurd rfl hmembers
  | content hmembers hfields =>
    cases h' with
    | empty => exact absurd rfl hmembers
    | content _ hfields' => exact fields_adds hfill members hfields hfields' hkeys
    | tabbed hgroup => exact absurd rfl hgroup
  | tabbed hgroup hmembers hfields =>
    cases h' with
    | empty => exact absurd rfl hmembers
    | content => exact absurd rfl hgroup
    | tabbed _ _ hfields' =>
      have hinner := fields_adds hfill members hfields hfields' (List.nodup_cons.mp hkeys).2
      exact (Adds.refl [_]).append hinner

theorem block_adds (hfill : Enlarges r fill fill') {settings : Settings}
    {collection : Option String} {node node' : BlockNode} {es es' : List IndexEntry}
    (h : Makes (block settings fill spot.site collection path b) node es)
    (h' : Makes (block settings fill' spot.site collection path b) node' es')
    (hkeys : (es'.map IndexEntry.key).Nodup) : Adds r es es' := by
  obtain ⟨held, parts, -, hparts, -, rfl⟩ := makes_block h
  obtain ⟨held', parts', -, hparts', -, rfl⟩ := makes_block h'
  rw [← Spot.site_enter] at hparts hparts'
  have hheld : (held'.map IndexEntry.key).Nodup :=
    hkeys.sublist ((List.sublist_append_left ..).map _)
  have hall : (groups settings b).filter (fun _ => true) = groups settings b :=
    List.filter_eq_self.mpr fun _ _ => rfl
  rw [← hall] at hparts
  refine (Adds.mapM hparts hparts' hheld (fun g _ _ => ?_) fun g _ hno => ?_).append (Adds.refl _)
  · intro nodes nodes' es es' hnodes hnodes' hkeys'
    exact group_adds hfill (makes_groupNodes hnodes) (makes_groupNodes hnodes') hkeys'
  · cases hno

/-- Everything in a new block stands in it. -/
theorem block_rooted (hfill : Fills larger fill) {collection : String} {node : BlockNode}
    {es : List IndexEntry}
    (h : Makes (block larger.settings fill spot.site (some collection) path b) node es)
    (hkeys : (es.map IndexEntry.key).Nodup) (hb : b.Named) (hnew : r.block? b.name = none) :
    Rooted r es := by
  obtain ⟨held, parts, -, hparts, hnode, rfl⟩ := makes_block h
  have hkey : path.encode .block = node.key := by rw [hnode]
  rw [hkey] at hparts
  have hheld : (held.map IndexEntry.key).Nodup :=
    hkeys.sublist ((List.sublist_append_left ..).map _)
  have hdescribed : Described larger [.variant spot path collection b node] held _ _ :=
    groups_described hfill hparts hheld (fun _ hg => hg) (groups_named hb)
  have hown : blockEntry spot.site (some collection) path b ∈
      held ++ [blockEntry spot.site (some collection) path b] :=
    List.mem_append_right _ (List.mem_singleton_self _)
  intro e he
  rcases List.mem_append.mp he with he | he
  · rcases hdescribed.parent e he with hnone | ⟨q, hq, hparent⟩ | ⟨e', he', hparent⟩
    · exact .inl hnone
    · rw [List.mem_singleton.mp hq] at hparent
      exact .inr (.inr ⟨_, hown, hparent.trans (congrArg some hkey.symm)⟩)
    · exact .inr (.inr ⟨e', List.mem_append_left _ he', hparent⟩)
  · rw [List.mem_singleton.mp he]
    exact .inr (.inl ⟨rfl, hnew⟩)

end Blocks

/-! ## Collections, layouts and the field group -/

section Collections

theorem offered_enlarges (hwithin : r.Within larger) (hl : larger.Sound)
    {make make' : Site → Option String → KeyPath → Entity → Compilation BlockNode}
    (hmake : ∀ {spot : Spot} {collection : String} {path b node node' es es'},
      Makes (make spot.site (some collection) path b) node es →
      Makes (make' spot.site (some collection) path b) node' es' →
      (es'.map IndexEntry.key).Nodup → Adds r es es')
    (hnew : ∀ {spot : Spot} {collection : String} {path b node es},
      Makes (make' spot.site (some collection) path b) node es →
      (es.map IndexEntry.key).Nodup → b.Named → r.block? b.name = none → Rooted r es) :
    Enlarges r (offered r make) (offered larger make') := by
  intro spot filter path key found found' es es' h h' hkeys
  obtain ⟨l, parent, parts, -, hparent, hparts, -⟩ := makes_offered h
  obtain ⟨l', parent', parts', -, hparent', hparts', -⟩ := makes_offered h'
  obtain rfl : spot.owner = parent := Option.some.inj hparent
  obtain rfl : spot.owner = parent' := Option.some.inj hparent'
  rw [← hwithin.candidates_eq hl] at hparts
  refine Adds.mapM hparts hparts' hkeys (fun c _ _ => ?_) fun c hc hno => ?_
  · intro found found' es es' hfound hfound' hkeys'
    rcases makes_variant hfound with ⟨hrefused, -, rfl⟩ | ⟨hoffered, node, hnode, -⟩
    · rcases makes_variant hfound' with ⟨-, -, rfl⟩ | ⟨hoffered, -⟩
      · exact Adds.refl []
      · exact absurd hoffered hrefused
    · rcases makes_variant hfound' with ⟨hrefused, -⟩ | ⟨-, node', hnode', -⟩
      · exact absurd hoffered hrefused
      · exact hmake hnode hnode' hkeys'
  · intro found es hfound hkeys'
    rcases makes_variant hfound with ⟨-, -, rfl⟩ | ⟨-, node, hnode, -⟩
    · exact Rooted.nil
    · have hblock := (hl.mem_candidates.mp hc).1
      have hmissing : r.block? c.name = none := by simpa [Registry.hasBlock] using hno
      exact hnew hnode hkeys' (hl.block hblock).2.2 hmissing

/-- Both fill collections until their own blocks are used up. -/
theorem variants_enlarges (hwithin : r.Within larger) (hl : larger.Sound) :
    ∀ count count', Enlarges r (variants r count) (variants larger count') := by
  intro count
  induction count with
  | zero =>
    intro count'
    rw [variants]
    cases count' with
    | zero =>
      rw [variants]
      exact offered_enlarges hwithin hl (fun h _ _ => (makes_throw h).elim)
        fun h _ _ _ => (makes_throw h).elim
    | succ count' =>
      rw [variants]
      exact offered_enlarges hwithin hl (fun h _ _ => (makes_throw h).elim)
        fun h hkeys hb hnew => block_rooted (variants_fills hl count') h hkeys hb hnew
  | succ count ih =>
    intro count'
    rw [variants]
    cases count' with
    | zero =>
      rw [variants]
      exact offered_enlarges hwithin hl (fun _ h _ => (makes_throw h).elim)
        fun h _ _ _ => (makes_throw h).elim
    | succ count' =>
      rw [variants]
      refine offered_enlarges hwithin hl (fun h h' hkeys => ?_)
        fun h hkeys hb hnew => block_rooted (variants_fills hl count') h hkeys hb hnew
      rw [hwithin.settings] at h'
      exact block_adds (ih count') h h' hkeys

theorem layout_adds (hwithin : r.Within larger) (hl : larger.Sound) {path : KeyPath} {l : Entity}
    {node node' : FieldNode} (h : Makes (layout r path l) node es)
    (h' : Makes (layout larger path l) node' es') (hkeys : (es'.map IndexEntry.key).Nodup) :
    Adds r es es' := by
  obtain ⟨variants, held, hvariants, -, rfl⟩ := makes_layout h
  obtain ⟨variants', held', hvariants', -, rfl⟩ := makes_layout h'
  have hheld : (held'.map IndexEntry.key).Nodup :=
    hkeys.sublist ((List.sublist_append_left ..).map _)
  have hentry : layoutEntry larger path l = layoutEntry r path l := by
    unfold layoutEntry layoutSlug
    rw [hwithin.settings]
  rw [hentry]
  rw [← Spot.site_layout] at hvariants hvariants'
  exact (variants_enlarges hwithin hl _ _ hvariants hvariants' hheld).append (Adds.refl _)

/-- Everything in a new layout stands in it. -/
theorem layout_rooted (hl : larger.Sound) {path : KeyPath} {l : Entity} {node : FieldNode}
    (h : Makes (layout larger path l) node es) (hkeys : (es.map IndexEntry.key).Nodup)
    (hlayout : larger.layout? l.name = some l) : Rooted r es := by
  intro e he
  rcases (layout_described hl h hkeys hlayout).parent e he with hnone | ⟨q, hq, -⟩ | hinner
  · exact .inl hnone
  · exact absurd hq List.not_mem_nil
  · exact .inr (.inr hinner)

/-- The entry of the select does not tell its choices. -/
theorem selectField_entry (registry : Registry) :
    fieldEntry (selectField registry) (builderRef registry) none none none =
      { key := selectKey registry
        name := registry.settings.name ++ "_layout"
        entity := builderRef registry
        group := none
        node := .field .select
        parent := none
        layout := none
        isBoundary := false
        returnFormat :=
          (FieldKind.select.defaultOptions.get? "return_format").bind Value.string? } := by
  have hformat : (selectField registry).optionText? "return_format" =
      (FieldKind.select.defaultOptions.get? "return_format").bind Value.string? := by
    unfold FieldNode.optionText? selectField
    dsimp only
    rw [Dict.get?_insert_of_ne _ _ (by decide), Dict.get?_insert_of_ne _ _ (by decide)]
  unfold fieldEntry
  rw [hformat]
  rfl

/-- A larger registry registers what the smaller one does, and what is new. -/
theorem fieldGroup_adds (hwithin : r.Within larger) (hl : larger.Sound)
    {group group' : FieldGroupNode} (h : Makes (fieldGroup r) group es)
    (h' : Makes (fieldGroup larger) group' es') (hkeys : (es'.map IndexEntry.key).Nodup) :
    Adds r es es' := by
  obtain ⟨layouts, held, hlayouts, -, rfl⟩ := makes_fieldGroup h
  obtain ⟨layouts', held', hlayouts', -, rfl⟩ := makes_fieldGroup h'
  have hheld : (held'.map IndexEntry.key).Nodup :=
    hkeys.sublist (((List.sublist_append_left ..).cons _).map _)
  have hroot : root larger = root r := by rw [root, root, hwithin.settings]
  have henabled : fieldEntry (enabledField larger) (builderRef larger) none none none =
      fieldEntry (enabledField r) (builderRef r) none none none := by
    unfold enabledField enabledKey builderRef
    rw [hroot, hwithin.settings]
  have hselect : fieldEntry (selectField larger) (builderRef larger) none none none =
      fieldEntry (selectField r) (builderRef r) none none none := by
    rw [selectField_entry, selectField_entry, selectKey, selectKey, builderRef, builderRef, hroot,
      hwithin.settings]
  rw [henabled, hselect]
  rw [hroot] at hlayouts'
  rw [← hwithin.layouts_eq hl] at hlayouts
  have hinner : Adds r held held' := by
    refine Adds.mapM hlayouts hlayouts' hheld (fun l _ _ => ?_) fun l hl' _ => ?_
    · exact fun hnode hnode' hkeys' => layout_adds hwithin hl hnode hnode' hkeys'
    · exact fun hnode hkeys' => layout_rooted hl hnode hkeys' (hl.mem_layouts.mp hl')
  exact (Adds.refl [_]).append (hinner.append (Adds.refl _))

end Collections

end Compile

/-! ## Indexes -/

/-- An index that knows more variants of the collections of another one, and more layouts. Below
anything else that the other one knows it knows nothing more. -/
structure FlatIndex.Extends (larger index : FlatIndex) (isNew : String → Prop) : Prop where
  coherent : index.Coherent
  largerCoherent : larger.Coherent
  lookup : ∀ {id : String} {e : IndexEntry}, index.lookup id = some e → larger.lookup id = some e
  child : ∀ {parent id : String} {v e : IndexEntry}, index.lookup parent = some v →
    larger.lookup id = some e → e.parent = some parent →
    index.lookup id = some e ∨ v.isCollection = true ∧ e.group = none ∧ isNew e.name
  layout : ∀ {name id : String}, index.layoutKey name = some id →
    larger.layoutKey name = some id ∧ ∃ v, index.lookup id = some v

/-- Below nothing but a collection stands a variant, of a block that is registered. -/
theorem CompiledSchema.Follows.of_block {schema : CompiledSchema} (h : schema.Follows r)
    {parent id : String} {v e : IndexEntry} (hparent : schema.index.lookup parent = some v)
    (hid : schema.index.lookup id = some e) (hbelow : e.parent = some parent)
    (hnode : e.node = .block) :
    v.isCollection = true ∧ e.group = none ∧ r.block? e.name ≠ none := by
  obtain ⟨p, hp, -, rfl⟩ := h.lookup_iff.mp hid
  obtain ⟨q, hq, hqid, rfl⟩ := h.lookup_iff.mp hparent
  obtain ⟨q', hq', hchild, hq'id⟩ := h.exists_parent hp hbelow
  obtain rfl := h.eq_of_id hq hq' (hqid.trans hq'id.symm)
  have hcollection : q.entry.isCollection = true := by
    cases hchild with
    | ofLayout => rfl
    | ofCollection hkind => exact hkind
    | _ => cases hnode
  refine ⟨hcollection, ?_⟩
  cases h.sound p hp with
  | variant hblock _ hname =>
    refine ⟨rfl, ?_⟩
    show r.block? (BlockNode.name _) ≠ none
    rw [hname, hblock]
    exact Option.some_ne_none _
  | _ => cases hnode

/-- The index of a larger registry knows everything that the index of the smaller one does; new
are variants of new blocks, and layouts. -/
theorem compile_extends {definitions more : Definitions} {resources resources' : Resources}
    {now now' : Instant} {schema schema' : CompiledSchema}
    (hbuilt : Attempt.Gives (Registry.build definitions resources) r)
    (hbuilt' : Attempt.Gives (Registry.build more resources') larger)
    (hwithin : r.Within larger) (hcompiled : Attempt.Gives (compile r now) schema)
    (hcompiled' : Attempt.Gives (compile larger now') schema') :
    schema'.index.Extends schema.index fun name =>
      r.block? name = none ∧ larger.block? name ≠ none := by
  have hl : larger.Sound := Registry.build_sound hbuilt'
  have hfollows := compile_follows hbuilt hcompiled
  have hfollows' := compile_follows hbuilt' hcompiled'
  obtain ⟨es, hmakes, hholds, -⟩ := compile_gives hcompiled
  obtain ⟨es', hmakes', hholds', -⟩ := compile_gives hcompiled'
  obtain ⟨new, hperm, hrooted⟩ := Compile.fieldGroup_adds hwithin hl hmakes hmakes' hholds'.nodup
  have hmem : ∀ {e}, e ∈ es' ↔ e ∈ es ∨ e ∈ new := by
    intro e
    rw [hperm.mem_iff, List.mem_append]
  have hlookup : ∀ {id e}, schema.index.lookup id = some e → schema'.index.lookup id = some e := by
    intro id e hid
    obtain ⟨he, hkey⟩ := hholds.lookup_iff.mp hid
    exact hholds'.lookup_iff.mpr ⟨hmem.mpr (.inl he), hkey⟩
  refine ⟨hfollows.coherent, hfollows'.coherent, hlookup,
    fun {parent id v e} hparent hid hbelow => ?_, fun {name id} hlayout => ?_⟩
  · obtain ⟨he, hkey⟩ := hholds'.lookup_iff.mp hid
    rcases hmem.mp he with he | he
    · exact .inl (hholds.lookup_iff.mpr ⟨he, hkey⟩)
    · rcases hrooted e he with hnone | ⟨hnode, hmissing⟩ | ⟨e', he', hparent'⟩
      · rw [hnone] at hbelow
        cases hbelow
      · have hblock := hfollows'.of_block (hlookup hparent) hid hbelow hnode
        exact .inr ⟨hblock.1, hblock.2.1, hmissing, hblock.2.2⟩
      -- No new entry has the id of an old one.
      · obtain ⟨hv, hvkey⟩ := hholds.lookup_iff.mp hparent
        have hsame : v.key = e'.key :=
          hvkey.trans (Option.some.inj (hbelow.symm.trans hparent'))
        have hkeys := (hperm.map IndexEntry.key).nodup_iff.mp hholds'.nodup
        rw [List.map_append] at hkeys
        have hapart := (List.nodup_append.mp hkeys).2.2
        exact absurd hsame (hapart _ (List.mem_map_of_mem hv) _ (List.mem_map_of_mem he'))
  · obtain ⟨path, l, node, hp, rfl, rfl⟩ :=
      (hfollows.layoutKey_iff (compile_grown hbuilt hcompiled)).mp hlayout
    have hid := hfollows.lookup_iff.mpr ⟨_, hp, rfl, rfl⟩
    obtain ⟨p', hp', hid', hentry⟩ := hfollows'.lookup_iff.mp (hlookup hid)
    refine ⟨(hfollows'.layoutKey_iff (compile_grown hbuilt' hcompiled')).mpr ?_, _, hid⟩
    cases p' with
    | layout path' l' node' =>
      have hname : l'.name = l.name := Option.some.inj (congrArg IndexEntry.layout hentry)
      exact ⟨path', l', node', hp', hname, hid'⟩
    | _ => cases congrArg IndexEntry.node hentry

end PageBlocks
