import PageBlocks.Proofs.Tree.Calls
import PageBlocks.Proofs.Tree.Made
import PageBlocks.Proofs.Tree.Outcome

/-!
# One entity alone

An entity can be compiled by itself, on an index of its own. What is made does
not depend on what is registered already. So a layout alone, or a block of its
own collection, comes to the node that it has in the tree of the whole
registry, and registers the entries that it has there:

> `alone_as_compiled`: the nodes are the same but for the condition under which
> a layout is shown, the entries but for the parent of the block.

A block alone is in no collection, which its own entry tells and no other
(`block_eq`). And the compiler lets more blocks nest in it than in a variant,
where the block itself is counted. This makes no difference, because a chain of
nested blocks never comes to the limit (`variants_stable`).
-/

namespace PageBlocks

open Attempt Compilation

/-! ## Parts of an index -/

/-- An entry, without a parent if it is the one of an id. -/
def IndexEntry.detached (id : String) (e : IndexEntry) : IndexEntry :=
  if e.key = id then { e with parent := none } else e

theorem IndexEntry.detached_key (id : String) (e : IndexEntry) : (e.detached id).key = e.key := by
  unfold detached
  split <;> rfl

theorem IndexEntry.map_detached_key (id : String) (es : List IndexEntry) :
    (es.map (detached id)).map key = es.map key := by
  rw [List.map_map]
  exact List.map_congr_left fun e _ => detached_key id e

/-- An index that holds some of the entries of another, or what stands for them, says that of their
ids and nothing of others. -/
theorem FlatIndex.Holds.lookup_part {index part : FlatIndex} {es es' : List IndexEntry}
    {f : IndexEntry → IndexEntry} (h : index.Holds es) (hpart : part.Holds (es'.map f))
    (hkey : ∀ e, (f e).key = e.key) (hsub : es' ⊆ es) (id : String) :
    part.lookup id =
      if id ∈ es'.map IndexEntry.key then (index.lookup id).map f else none := by
  split
  next hid =>
    obtain ⟨e, he, rfl⟩ := List.mem_map.mp hid
    have hwhole : index.lookup e.key = some e := h.lookup_iff.mpr ⟨hsub he, rfl⟩
    rw [hwhole]
    exact hpart.lookup_iff.mpr ⟨List.mem_map_of_mem he, hkey e⟩
  next hid =>
    refine Option.eq_none_iff_forall_ne_some.mpr fun e he => hid ?_
    obtain ⟨hmem, rfl⟩ := hpart.lookup_iff.mp he
    obtain ⟨e', he', rfl⟩ := List.mem_map.mp hmem
    rw [hkey]
    exact List.mem_map_of_mem he'

namespace Compile

open Compilation

/-! ## What a block depends on -/

section Filling

variable {fill fill' : Filling} {site : Site} {owner : Entity} {group : FieldGroup}

mutual
theorem field_congr (h : fill site = fill' site) {siblings : List Sibling} {path : KeyPath}
    {parent : String} : ∀ f : Field,
      field fill site owner group siblings path parent f =
        field fill' site owner group siblings path parent f
  | ⟨name, attributes, subFields⟩ => by
    simp only [field, h, fields_congr h subFields]

theorem fields_congr (h : fill site = fill' site) {siblings : List Sibling} {path : KeyPath}
    {parent : String} : ∀ fs : List Field,
      fields fill site owner group siblings path parent fs =
        fields fill' site owner group siblings path parent fs
  | [] => by rw [fields, fields]
  | f :: fs => by rw [fields, fields, field_congr h f, fields_congr h fs]
end

/-- A block is compiled alike by two ways to fill its own collections alike. -/
theorem block_congr {settings : Settings} {b : Entity}
    (h : fill (site.nested b) = fill' (site.nested b)) {collection : Option String}
    {path : KeyPath} :
    block settings fill site collection path b = block settings fill' site collection path b := by
  have hgroup : ∀ {key siblings group members},
      groupNodes fill (site.nested b) b path key siblings group members =
        groupNodes fill' (site.nested b) b path key siblings group members := by
    intro key siblings group members
    simp only [groupNodes, fields_congr h]
  unfold block
  simp only [hgroup]

end Filling

theorem offered_congr {registry : Registry}
    {make make' : Site → Option String → KeyPath → Entity → Compilation BlockNode}
    {site : Site} {filter : NameFilter}
    (h : ∀ parent, ∀ c ∈ registry.candidates filter, refusal? parent site.enclosing c = none →
      ∀ collection path, make site collection path c = make' site collection path c)
    {path : KeyPath} {key : String} :
    offered registry make site filter path key = offered registry make' site filter path key := by
  unfold offered
  split
  next parent _ _ =>
    refine congrArg _ (funext fun _ => congrArg (· >>= _) (mapM_congr fun c hc => ?_))
    unfold variant
    cases hrefusal : refusal? parent site.enclosing c with
    | some notice => rfl
    | none => rw [h parent c hc hrefusal]
  next => rfl

/-- It makes no difference how many blocks may still nest, as long as all that are not around the
collection may. -/
theorem variants_stable {registry : Registry} (hr : registry.Sound) :
    ∀ (count count' : Nat) {site : Site}, site.enclosing.Nodup →
      (∀ name ∈ site.enclosing, name ∈ registry.blocks.keys) →
      registry.blocks.size ≤ site.enclosing.length + count →
      registry.blocks.size ≤ site.enclosing.length + count' →
      variants registry count site = variants registry count' site := by
  intro count
  induction count with
  | zero =>
    intro count' site hnodup hblocks hcount _
    -- No block is left that could be offered.
    have hfull : ∀ {make filter path key}, variants registry 0 site filter path key =
        offered registry make site filter path key := by
      intro make filter path key
      rw [variants]
      refine offered_congr fun parent c hc hoffered => ?_
      have hroom := (length_lt_size hr hnodup hblocks hc hoffered).2.2
      omega
    funext filter path key
    cases count' with
    | zero => rfl
    | succ count' => rw [hfull, variants]
  | succ count ih =>
    intro count' site hnodup hblocks hcount hcount'
    funext filter path key
    cases count' with
    | zero =>
      rw [variants, variants]
      refine offered_congr fun parent c hc hoffered => ?_
      have hroom := (length_lt_size hr hnodup hblocks hc hoffered).2.2
      omega
    | succ count' =>
      rw [variants, variants]
      refine offered_congr fun parent c hc hoffered collection path => block_congr ?_
      obtain ⟨hnodup', hblocks', -⟩ := length_lt_size hr hnodup hblocks hc hoffered
      have hlength : (site.nested c).enclosing.length = site.enclosing.length + 1 :=
        List.length_append
      exact ih count' hnodup' hblocks' (by omega) (by omega)

/-- What a block makes and registers before its own entry, whatever collection it is in. -/
def blockInside (settings : Settings) (fill : Filling) (site : Site) (path : KeyPath) (b : Entity) :
    Compilation BlockNode := do
  let key := path.encode .block
  let members := groups settings b
  members.forM fun (group, fields) =>
    ExceptT.mk (pure (checkUnique b.name group.name (takenNames group fields)))
  let nodes ← members.mapM fun (group, fields) =>
    groupNodes fill (site.nested b) b path key (siblingsOf settings b path) group fields
  return ⟨key, b.name, b.label, b.display, nodes.flatten, "", ""⟩

/-- The collection that a block is in is told by its own entry alone. -/
theorem block_eq (settings : Settings) (fill : Filling) (site : Site) (collection : Option String)
    (path : KeyPath) (b : Entity) :
    block settings fill site collection path b = do
      let node ← blockInside settings fill site path b
      register (blockEntry site collection path b)
      return node := by
  unfold block blockInside
  simp only [bind_assoc, pure_bind]
  rfl

/-- A block that is made in a collection is made without one, and registers the same but for the
parent in its own entry. -/
theorem block_alone {settings : Settings} {fill fill' : Filling} {site : Site}
    {collection : String} {path : KeyPath} {b : Entity} {node : BlockNode} {es : List IndexEntry}
    (hfill : fill (site.nested b) = fill' (site.nested b))
    (h : Makes (block settings fill site (some collection) path b) node es)
    (hkeys : (es.map IndexEntry.key).Nodup) :
    Makes (block settings fill' site none path b) node
      (es.map (IndexEntry.detached (path.encode .block))) := by
  rw [block_congr hfill, block_eq] at h
  rw [block_eq]
  obtain ⟨made, inside, es₂, hmade, h₁, rfl⟩ := makes_bind h
  obtain ⟨_, es₃, es₄, hentry, h₂, rfl⟩ := makes_bind h₁
  obtain rfl := makes_register hentry
  obtain ⟨rfl, rfl⟩ := makes_pure h₂
  rw [List.append_nil] at hkeys ⊢
  -- No entry inside has the id of the block.
  have hinside : inside.map (IndexEntry.detached (path.encode .block)) = inside := by
    rw [List.map_append] at hkeys
    refine (List.map_congr_left fun e he => if_neg fun hid => ?_).trans (List.map_id _)
    exact (List.nodup_append.mp hkeys).2.2 _ (List.mem_map_of_mem he) _
      (List.mem_singleton_self _) hid
  have hown : (blockEntry site (some collection) path b).detached (path.encode .block) =
      blockEntry site none path b := if_pos rfl
  rw [List.map_append, List.map_singleton, hinside, hown]
  have hregister : Makes (register (blockEntry site none path b)) ()
      [blockEntry site none path b] := ⟨rfl, rfl⟩
  exact hmade.bind (hregister.wrap fun _ => node)

/-! ## An entity alone -/

section Entities

variable {registry : Registry}

/-- Every variant of a collection was made as a block that the collection offers. -/
theorem variant_made {site : Site} {filter : NameFilter} {path : KeyPath} {key : String}
    {found : List (String × BlockNode)} {es : List IndexEntry}
    (h : Makes (fill registry site filter path key) found es) {v : String × BlockNode}
    (hv : v ∈ found) :
    ∃ parent c count es', site.parent = some parent ∧ c ∈ registry.candidates filter ∧
      refusal? parent site.enclosing c = none ∧ registry.blocks.size = count + 1 ∧
      v.1 = v.2.key ∧ es'.Sublist es ∧
      Makes (block registry.settings (variants registry count) site (some key) (path.child c.name)
        c) v.2 es' := by
  have hany : ∀ {make}, Makes (offered registry make site filter path key) found es →
      ∃ parent c es', site.parent = some parent ∧ c ∈ registry.candidates filter ∧
        refusal? parent site.enclosing c = none ∧ v.1 = v.2.key ∧ es'.Sublist es ∧
        Makes (make site (some key) (path.child c.name) c) v.2 es' := by
    intro make hmake
    obtain ⟨-, parent, parts, -, hparent, hparts, rfl⟩ := makes_offered hmake
    obtain ⟨part, hpart, hvpart⟩ := List.mem_flatten.mp (Entries.mem_ofList hv)
    obtain ⟨c, hc, es', hvariant, hsub⟩ := makes_of_made hparts hpart
    rcases makes_variant hvariant with ⟨-, rfl, -⟩ | ⟨hoffered, node, hnode, rfl⟩
    · exact absurd hvpart List.not_mem_nil
    · obtain rfl := List.mem_singleton.mp hvpart
      exact ⟨parent, c, es', hparent, hc, hoffered, rfl, hsub, hnode⟩
  unfold fill at h
  cases hsize : registry.blocks.size with
  | zero =>
    rw [hsize, variants] at h
    obtain ⟨_, _, _, _, _, _, _, _, hnever⟩ := hany h
    exact (makes_throw hnever).elim
  | succ count =>
    rw [hsize, variants] at h
    obtain ⟨parent, c, es', hparent, hc, hoffered, hkey, hsub, hnode⟩ := hany h
    exact ⟨parent, c, count, es', hparent, hc, hoffered, rfl, hkey, hsub, hnode⟩

/-- The variants of a layout stand below its field. -/
theorem layout_above {settings : Settings} {path : KeyPath} {l c : Entity} {n : BlockNode} :
    Position.Child settings
      (.layout path l (.plain .flexibleContent (path.encode .field) l.name l.label))
      (.variant ⟨l, []⟩ (path.child c.name) (path.encode .field) c n) := .ofLayout

theorem layout_alone {path : KeyPath} {l : Entity} {node : FieldNode} {es : List IndexEntry}
    (hlayout : l.isLayout = true) (h : Makes (layout registry path l) node es) (site : Site) :
    Makes (entity registry site path l) (.layout node) es := by
  unfold entity
  have hkind : l.kind = .layout := beq_iff_eq.mp hlayout
  rw [hkind]
  exact h.wrap Node.layout

/-- A block that fits into a layout has a variant in the layout's collection, which was made as that
block. -/
theorem top_variant (hr : registry.Sound) {path : KeyPath} {l b : Entity}
    {found : List (String × BlockNode)} {es : List IndexEntry}
    (h : Makes (fill registry (.inLayout l) l.children path (path.encode .field)) found es)
    (hkeys : (es.map IndexEntry.key).Nodup) (hb : b ∈ registry.candidates l.children)
    (hfits : b.fitsIn l = true) :
    ∃ (v : BlockNode) (count : Nat) (own : List IndexEntry), (v.key, v) ∈ found ∧
      registry.blocks.size = count + 1 ∧ own.Sublist es ∧
      Makes (block registry.settings (variants registry count) (.inLayout l)
        (some (path.encode .field)) (path.child b.name) b) v own := by
  obtain ⟨hblock, haccepts⟩ := hr.mem_candidates.mp hb
  rw [← Spot.site_layout] at h
  obtain ⟨-, hoffers⟩ := fill_fills hr h hkeys fun _ _ => layout_above
  obtain ⟨⟨id, v⟩, hv, hname⟩ := List.mem_map.mp
    ((hoffers.exact b.name).mpr ⟨b, hblock, haccepts, hfits, List.not_mem_nil⟩)
  obtain ⟨_, c, count, own, -, hc, -, hsize, hid, hsub, hmade⟩ := variant_made h hv
  obtain rfl : id = v.key := hid
  -- A variant has the name of what it was made as, and blocks go by their names.
  have hcname : c.name = b.name := by
    obtain ⟨_, _, _, _, hnode, _⟩ := makes_block hmade
    rw [← hname, hnode]
  obtain ⟨hcblock, -⟩ := hr.mem_candidates.mp hc
  obtain rfl : c = b := Option.some.inj (hcblock.symm.trans (hcname ▸ hblock))
  exact ⟨v, count, own, hv, hsize, hsub, hmade⟩

/-- A block that stands alone around its collections leaves all other blocks to nest in them. -/
theorem top_stable (hr : registry.Sound) {l b : Entity} (hblock : registry.block? b.name = some b)
    {count : Nat} (hsize : registry.blocks.size = count + 1) :
    variants registry count ((Site.inLayout l).nested b) =
      fill registry ((Site.inLayout l).nested b) := by
  have hone : ((Site.inLayout l).nested b).enclosing.length = 1 := rfl
  refine variants_stable hr count _ (List.nodup_singleton b.name) (fun name hmem => ?_) ?_ ?_
  · rw [List.mem_singleton.mp hmem]
    exact List.mem_map.mpr ⟨_, Dict.mem_entries_iff.mpr hblock, rfl⟩
  · omega
  · omega

/-- By itself a block that fits into a layout comes to its variant, and registers what the variant
registered but for the parent. -/
theorem top_block_alone (hr : registry.Sound) {path : KeyPath} {l b : Entity}
    {found : List (String × BlockNode)} {es : List IndexEntry}
    (h : Makes (fill registry (.inLayout l) l.children path (path.encode .field)) found es)
    (hkeys : (es.map IndexEntry.key).Nodup) (hb : b ∈ registry.candidates l.children)
    (hfits : b.fitsIn l = true) :
    ∃ (v : BlockNode) (own : List IndexEntry), (v.key, v) ∈ found ∧
      v.key = (path.child b.name).encode .block ∧ own.Sublist es ∧
      (own.map IndexEntry.key).Perm (v.nodes.map TreeNode.id) ∧
      Makes (entity registry (.inLayout l) path b) (.block v)
        (own.map (IndexEntry.detached v.key)) := by
  obtain ⟨hblock, -⟩ := hr.mem_candidates.mp hb
  obtain ⟨v, count, own, hv, hsize, hsub, hmade⟩ := top_variant hr h hkeys hb hfits
  have howned : (own.map IndexEntry.key).Nodup := hkeys.sublist (hsub.map _)
  have hmade' := hmade
  rw [← Spot.site_layout] at hmade'
  obtain ⟨hdescribed, -, hkey⟩ := block_described hr (variants_fills hr count) hmade' howned hblock
    hfits List.not_mem_nil layout_above
  have halone := block_alone (top_stable hr hblock hsize) hmade howned
  rw [← hkey] at halone
  rw [entity_block (hr.block hblock).2.1]
  exact ⟨v, own, hv, hkey, hsub, hdescribed.keys_perm, halone.wrap Node.block⟩

/-- A layout of a registry that compiles has its field in the group and its share of the index. -/
theorem layout_compiled {now : Instant} {schema : CompiledSchema}
    (hcompiled : Gives (compile registry now) schema) {l : Entity}
    (hl : l ∈ registry.layouts.values) :
    ∃ entries node own, schema.index.Holds entries ∧
      selected registry node ∈ schema.group.fields ∧ own.Sublist entries ∧
      Makes (layout registry ((root registry).child "layouts") l) node own := by
  obtain ⟨entries, hmakes, hholds, -⟩ := compile_gives hcompiled
  obtain ⟨nodes, held, hnodes, hgroup, rfl⟩ := makes_fieldGroup hmakes
  obtain ⟨node, hnode, own, hmade, hsub⟩ := makes_of_mem hnodes hl
  refine ⟨_, node, own, hholds, ?_, ?_, hmade⟩
  · rw [hgroup]
    exact List.mem_cons_of_mem _ (List.mem_cons_of_mem _ (List.mem_map_of_mem hnode))
  · exact (hsub.trans (List.sublist_append_left ..)).cons _

end Entities

/-- A registry that compiles is compiled to what its layouts and their blocks come to by themselves.
On an index of its own a layout comes to its field in the group but for the condition under which
the field is shown, and the index says of every node there what the whole index says, and nothing
else. A block that fits into the layout comes to its variant; again its index says the same of every
node there, but that the variant itself has no parent. -/
theorem alone_as_compiled {definitions : Definitions} {resources : Resources}
    {registry : Registry} {now : Instant} {schema : CompiledSchema}
    (hbuilt : Gives (Registry.build definitions resources) registry)
    (hcompiled : Gives (compile registry now) schema) {l : Entity}
    (hl : l ∈ registry.layouts.values) :
    ∃ node ∈ schema.group.fields, node.key = (layoutPath registry l).encode .field ∧
      (∀ site, (alone registry site ((root registry).child "layouts") l).result =
          .ok (.layout { node with logic := .always }) ∧
        ∀ id, (alone registry site ((root registry).child "layouts") l).index.lookup id =
          if id ∈ node.nodes.map TreeNode.id then schema.index.lookup id else none) ∧
      ∀ b ∈ registry.candidates l.children, b.fitsIn l = true →
        ∃ v, (v.key, v) ∈ node.layouts ∧
          v.key = ((layoutPath registry l).child b.name).encode .block ∧
          (alone registry (.inLayout l) (layoutPath registry l) b).result = .ok (.block v) ∧
          ∀ id, (alone registry (.inLayout l) (layoutPath registry l) b).index.lookup id =
            if id ∈ v.nodes.map TreeNode.id then
              (schema.index.lookup id).map (IndexEntry.detached v.key)
            else none := by
  have hr : registry.Sound := Registry.build_sound hbuilt
  have hlayout : registry.layout? l.name = some l := hr.mem_layouts.mp hl
  obtain ⟨entries, node, own, hholds, hnode, hpart, hmade⟩ := layout_compiled hcompiled hl
  have hkeys : (own.map IndexEntry.key).Nodup := hholds.nodup.sublist (hpart.map _)
  have hids : (own.map IndexEntry.key).Perm ((selected registry node).nodes.map TreeNode.id) :=
    (layout_described hr hmade hkeys hlayout).keys_perm
  obtain ⟨found, inside, hfill, hshape, hown⟩ := makes_layout hmade
  refine ⟨selected registry node, ?_, ?_, fun site => ?_, fun b hb hfits => ?_⟩
  · exact hnode
  · rw [hshape]
    rfl
  · obtain ⟨hresult, hindex⟩ :=
      (layout_alone (hr.layout hlayout).2.1 hmade site).runOn_empty hkeys
    refine ⟨?_, fun id => ?_⟩
    · rw [alone, hresult, hshape]
      rfl
    · rw [← List.map_id own] at hindex
      rw [alone, hholds.lookup_part hindex (fun _ => rfl) hpart.subset, Option.map_id, id_eq]
      exact if_congr hids.mem_iff rfl rfl
  · have hinside : inside.Sublist own := by
      rw [hown]
      exact List.sublist_append_left ..
    obtain ⟨v, own', hv, hkey, hsub', hids', halone⟩ :=
      top_block_alone hr hfill (hkeys.sublist (hinside.map _)) hb hfits
    have hpart' : own'.Sublist entries := hsub'.trans (hinside.trans hpart)
    have hkeys' : ((own'.map (IndexEntry.detached v.key)).map IndexEntry.key).Nodup := by
      rw [IndexEntry.map_detached_key]
      exact hholds.nodup.sublist (hpart'.map _)
    obtain ⟨hresult, hindex⟩ := halone.runOn_empty hkeys'
    refine ⟨v, ?_, hkey, hresult, fun id => ?_⟩
    · rw [hshape]
      exact hv
    · refine (hholds.lookup_part hindex (IndexEntry.detached_key v.key) hpart'.subset id).trans ?_
      exact if_congr hids'.mem_iff rfl rfl

/-- The page of boxes comes to its field by itself, and a box to its variant on the page, which has
a parent there and none by itself. -/
theorem page_alone : ∃ l ∈ boxRegistry.layouts.values, ∃ node ∈ boxSchema.group.fields,
    (∀ site, (alone boxRegistry site ((root boxRegistry).child "layouts") l).result =
      .ok (.layout { node with logic := .always })) ∧
    ∃ b ∈ boxRegistry.candidates l.children, ∃ v, (v.key, v) ∈ node.layouts ∧
      (alone boxRegistry (.inLayout l) (layoutPath boxRegistry l) b).result = .ok (.block v) ∧
      (alone boxRegistry (.inLayout l) (layoutPath boxRegistry l) b).index.lookup v.key =
        (boxSchema.index.lookup v.key).map fun e => { e with parent := none } := by
  have hpage : ∃ l ∈ boxRegistry.layouts.values, ∃ b ∈ boxRegistry.candidates l.children,
      b.fitsIn l = true := by
    decide +kernel
  obtain ⟨l, hl, b, hb, hfits⟩ := hpage
  obtain ⟨node, hnode, -, hlayout, hblocks⟩ := alone_as_compiled boxes_built boxes_compiled hl
  obtain ⟨v, hv, -, hresult, hlookup⟩ := hblocks b hb hfits
  have hown : v.key ∈ v.nodes.map TreeNode.id := by
    rw [BlockNode.nodes_eq]
    exact List.mem_cons_self ..
  refine ⟨l, hl, node, hnode, fun site => (hlayout site).1, b, hb, v, hv, hresult, ?_⟩
  rw [hlookup, if_pos hown]
  cases hentry : boxSchema.index.lookup v.key with
  | none => rfl
  | some e =>
    obtain ⟨entries, -, hholds, -⟩ := compile_gives boxes_compiled
    exact congrArg some (if_pos (hholds.lookup_iff.mp hentry).2)

end Compile

end PageBlocks
