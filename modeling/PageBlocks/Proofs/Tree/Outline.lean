import PageBlocks.Proofs.Tree.Plan
import PageBlocks.Proofs.Tree.Visibility

/-!
# Ids depend on names only

The outline of a tree is its shape with the id, the name and the kind of every
node. Two registries with the same plan are compiled to trees with the same
outline, whatever they say otherwise, so that values saved below one tree are
found below the other:

> `same_plan_same_ids`: the trees have the same outline, and their indexes say
> the same but for the form in which a value is handed out.

Both compilations are followed side by side. They take the same branches,
because every branch looks at the plan alone.
-/

namespace PageBlocks

open Compilation

/-! ## Outlines -/

mutual
/-- A field with nothing but ids, names and kinds. -/
def FieldNode.outline : FieldNode → FieldNode
  | ⟨key, _, name, kind, _, _, _, _, _, subFields, layouts⟩ =>
    ⟨key, "", name, kind, "", 0, .always, {}, .empty, FieldNode.outlines subFields,
      BlockNode.outlines layouts⟩

def FieldNode.outlines : List FieldNode → List FieldNode
  | [] => []
  | node :: rest => node.outline :: FieldNode.outlines rest

/-- A variant with nothing but ids, names and kinds. -/
def BlockNode.outline : BlockNode → BlockNode
  | ⟨key, name, _, _, subFields, _, _⟩ =>
    ⟨key, name, "", "", FieldNode.outlines subFields, "", ""⟩

def BlockNode.outlines : List (String × BlockNode) → List (String × BlockNode)
  | [] => []
  | (id, node) :: rest => (id, node.outline) :: BlockNode.outlines rest
end

theorem FieldNode.outlines_eq_map (nodes : List FieldNode) : outlines nodes = nodes.map outline := by
  induction nodes with
  | nil => rfl
  | cons node nodes ih => rw [outlines, ih, List.map_cons]

theorem BlockNode.outlines_eq_map (variants : List (String × BlockNode)) :
    outlines variants = variants.map fun v => (v.1, v.2.outline) := by
  induction variants with
  | nil => rfl
  | cons v variants ih =>
    obtain ⟨id, node⟩ := v
    rw [outlines, ih, List.map_cons]

/-- A field group with nothing but ids, names and kinds. -/
def FieldGroupNode.outline (group : FieldGroupNode) : FieldGroupNode :=
  { key := group.key
    title := ""
    description := ""
    fields := group.fields.map FieldNode.outline
    location := [] }

/-- An entry without the form in which a value is handed out. -/
def IndexEntry.unformatted (e : IndexEntry) : IndexEntry := { e with returnFormat := none }

/-- Where a compilation stands, by plans. -/
def Site.plan (site : Site) : Site :=
  { layout := site.layout.map Entity.plan
    parent := site.parent.map Entity.plan
    enclosing := site.enclosing }

/-- Entries that say the same but for the form of a value. -/
def Alike (es es' : List IndexEntry) : Prop :=
  es.map IndexEntry.unformatted = es'.map IndexEntry.unformatted

namespace Alike

variable {es es' fs fs' : List IndexEntry}

theorem append (h : Alike es es') (h' : Alike fs fs') : Alike (es ++ fs) (es' ++ fs') := by
  unfold Alike at *
  rw [List.map_append, List.map_append, h, h']

theorem cons {e e' : IndexEntry} (h : e.unformatted = e'.unformatted) (h' : Alike es es') :
    Alike (e :: es) (e' :: es') := by
  unfold Alike at *
  rw [List.map_cons, List.map_cons, h, h']

/-- Runs over items that agree in what a run looks at. -/
theorem mapM {ι β γ δ : Type} {f f' : ι → Compilation β} {g : ι → γ} {k : β → δ} :
    ∀ {items items' : List ι} {bs bs' : List β} {es es' : List IndexEntry},
      items.map g = items'.map g → Makes (items.mapM f) bs es → Makes (items'.mapM f') bs' es' →
      (∀ i i', g i = g i' → ∀ {b b' es es'}, Makes (f i) b es → Makes (f' i') b' es' →
        k b = k b' ∧ Alike es es') → bs.map k = bs'.map k ∧ Alike es es'
  | [], [], _, _, _, _, _, h, h', _ => by
    obtain ⟨rfl, rfl⟩ := makes_mapM_nil h
    obtain ⟨rfl, rfl⟩ := makes_mapM_nil h'
    exact ⟨rfl, rfl⟩
  | i :: items, i' :: items', _, _, _, _, hitems, h, h', hstep => by
    rw [List.map_cons, List.map_cons, List.cons.injEq] at hitems
    obtain ⟨b, bs, es₁, es₂, hb, hbs, rfl, rfl⟩ := makes_mapM_cons h
    obtain ⟨b', bs', fs₁, fs₂, hb', hbs', rfl, rfl⟩ := makes_mapM_cons h'
    obtain ⟨hfirst, halike⟩ := hstep i i' hitems.1 hb hb'
    obtain ⟨hrest, halike'⟩ := mapM hitems.2 hbs hbs' hstep
    exact ⟨by rw [List.map_cons, List.map_cons, hfirst, hrest], halike.append halike'⟩

end Alike

theorem Site.layoutName_of_plan {site site' : Site} (h : site.plan = site'.plan) :
    site.layoutName = site'.layoutName := by
  have hlayout : site.layout.map Entity.plan = site'.layout.map Entity.plan :=
    (congrArg Site.layout h :)
  have hname := congrArg (Option.map Entity.name) hlayout
  rwa [Option.map_map, Option.map_map] at hname

theorem Site.nested_plan {site site' : Site} (h : site.plan = site'.plan) {b b' : Entity}
    (hb : b.plan = b'.plan) : (site.nested b).plan = (site'.nested b').plan := by
  have hlayout : site.layout.map Entity.plan = site'.layout.map Entity.plan :=
    (congrArg Site.layout h :)
  have henclosing : site.enclosing = site'.enclosing := (congrArg Site.enclosing h :)
  unfold plan nested
  dsimp only
  rw [hlayout, henclosing, Entity.name_of_plan hb, Option.map_some, Option.map_some, hb]

namespace Compile

/-- Two ways to fill collections that give the same variants where the plans are the same. -/
structure FillsAlike (fill fill' : Filling) : Prop where
  found : ∀ {site site' : Site} {filter : NameFilter} {path : KeyPath} {key : String}
    {found found' : List (String × BlockNode)} {es es' : List IndexEntry},
    site.plan = site'.plan → Makes (fill site filter path key) found es →
    Makes (fill' site' filter path key) found' es' →
    BlockNode.outlines found = BlockNode.outlines found' ∧ Alike es es'

/-- Two ways to compile a block that give the same variant of blocks with one plan. -/
structure BlocksAlike (make make' : Site → Option String → KeyPath → Entity → Compilation BlockNode) :
    Prop where
  made : ∀ {site site' : Site} {collection : Option String} {path : KeyPath} {b b' : Entity}
    {node node' : BlockNode} {es es' : List IndexEntry},
    site.plan = site'.plan → b.plan = b'.plan → Makes (make site collection path b) node es →
    Makes (make' site' collection path b') node' es' →
    node.outline = node'.outline ∧ node.key = node'.key ∧ Alike es es'

/-! ## Fields -/

section Fields

variable {fill fill' : Filling} {site site' : Site} {owner owner' : Entity} {group : FieldGroup}

/-- The entry of a field is told by its outline. -/
theorem fieldEntry_alike {node node' : FieldNode} (h : node.outline = node'.outline)
    (entity : EntityRef) (group : Option FieldGroup) (parent layout : Option String) :
    (fieldEntry node entity group parent layout).unformatted =
      (fieldEntry node' entity group parent layout).unformatted := by
  obtain ⟨key, _, name, kind, _, _, _, _, _, _, _⟩ := node
  obtain ⟨key', _, name', kind', _, _, _, _, _, _, _⟩ := node'
  rw [FieldNode.outline, FieldNode.outline, FieldNode.mk.injEq] at h
  obtain ⟨rfl, -, rfl, rfl, -⟩ := h
  rfl

/-- The outline of a field says nothing of its attributes. -/
theorem outline_ofAttributes (kind : FieldKind) (key name : String)
    (attributes attributes' : FieldAttributes) (logic logic' : ConditionalLogic)
    {rows rows' : List FieldNode} {layouts layouts' : List (String × BlockNode)}
    (hrows : FieldNode.outlines rows = FieldNode.outlines rows')
    (hlayouts : BlockNode.outlines layouts = BlockNode.outlines layouts') :
    FieldNode.outline { FieldNode.ofAttributes kind key name attributes with
        logic := logic, subFields := rows, layouts := layouts } =
      FieldNode.outline { FieldNode.ofAttributes kind key name attributes' with
        logic := logic', subFields := rows', layouts := layouts' } := by
  unfold FieldNode.ofAttributes
  rw [FieldNode.outline, FieldNode.outline, hrows, hlayouts]

mutual
theorem field_alike (hfill : FillsAlike fill fill') (howner : owner.plan = owner'.plan)
    (hsite : site.plan = site'.plan) :
    ∀ {f f' : Field} {siblings siblings' : List Sibling} {path : KeyPath} {parent : String}
      {node node' : FieldNode} {es es' : List IndexEntry}, f.plan = f'.plan →
      Makes (field fill site owner group siblings path parent f) node es →
      Makes (field fill' site' owner' group siblings' path parent f') node' es' →
      node.outline = node'.outline ∧ Alike es es'
  | ⟨name, attributes, subFields⟩, f', siblings, siblings', path, parent, node, node', es, es',
      hplan, h, h' => by
    obtain ⟨hname, htype, hblocks, hsubs⟩ := Field.plan_inj hplan
    obtain ⟨kind, logic, rows, layouts, held, hkind, -, hholds, rfl, rfl⟩ := makes_field h
    obtain ⟨kind', logic', rows', layouts', held', hkind', -, hholds', rfl, rfl⟩ := makes_field h'
    dsimp only at hname htype hblocks hsubs hkind hholds
    rw [← htype, hkind] at hkind'
    obtain rfl : kind = kind' := Option.some.inj hkind'
    rw [← hname] at hholds' ⊢
    -- Whatever it holds, it holds the same in both.
    have hheld : FieldNode.outlines rows = FieldNode.outlines rows' ∧
        BlockNode.outlines layouts = BlockNode.outlines layouts' ∧ Alike held held' := by
      cases hholds with
      | nothing hcollection hrows =>
        cases hholds' with
        | nothing => exact ⟨rfl, rfl, rfl⟩
        | variants => cases hcollection
        | rows hsub => rw [hrows] at hsub; cases hsub
      | variants hfound =>
        cases hholds' with
        | nothing hcollection => cases hcollection
        | variants hfound' =>
          dsimp only at hfound
          rw [hblocks, Entity.children_of_plan howner] at hfound
          obtain ⟨hvariants, halike⟩ := hfill.found hsite hfound hfound'
          exact ⟨rfl, hvariants, halike⟩
        | rows hsub => cases hsub
      | rows hsub _ hfields =>
        cases hholds' with
        | nothing _ hrows => rw [hrows] at hsub; cases hsub
        | variants => cases hsub
        | rows _ _ hfields' =>
          obtain ⟨hnodes, halike⟩ := fields_alike hfill howner hsite hsubs hfields hfields'
          exact ⟨hnodes, rfl, halike⟩
    obtain ⟨hrows, hlayouts, halike⟩ := hheld
    have hnode := outline_ofAttributes kind ((path.child name).encode .field) name attributes
      f'.attributes logic logic' hrows hlayouts
    refine ⟨hnode, halike.append (.cons ?_ rfl)⟩
    rw [Entity.ref_of_plan howner, Site.layoutName_of_plan hsite]
    exact fieldEntry_alike hnode ..

theorem fields_alike (hfill : FillsAlike fill fill') (howner : owner.plan = owner'.plan)
    (hsite : site.plan = site'.plan) :
    ∀ {fs fs' : List Field} {siblings siblings' : List Sibling} {path : KeyPath} {parent : String}
      {nodes nodes' : List FieldNode} {es es' : List IndexEntry},
      fs.map Field.plan = fs'.map Field.plan →
      Makes (fields fill site owner group siblings path parent fs) nodes es →
      Makes (fields fill' site' owner' group siblings' path parent fs') nodes' es' →
      FieldNode.outlines nodes = FieldNode.outlines nodes' ∧ Alike es es'
  | [], [], _, _, _, _, _, _, _, _, _, h, h' => by
    obtain ⟨rfl, rfl⟩ := makes_fields_nil h
    obtain ⟨rfl, rfl⟩ := makes_fields_nil h'
    exact ⟨rfl, rfl⟩
  | f :: fs, f' :: fs', _, _, _, _, _, _, _, _, hplans, h, h' => by
    rw [List.map_cons, List.map_cons, List.cons.injEq] at hplans
    obtain ⟨node, rest, es₁, es₂, hnode, hrest, rfl, rfl⟩ := makes_fields_cons h
    obtain ⟨node', rest', fs₁, fs₂, hnode', hrest', rfl, rfl⟩ := makes_fields_cons h'
    obtain ⟨hfirst, halike⟩ := field_alike hfill howner hsite hplans.1 hnode hnode'
    obtain ⟨hothers, halike'⟩ := fields_alike hfill howner hsite hplans.2 hrest hrest'
    exact ⟨by rw [FieldNode.outlines, FieldNode.outlines, hfirst, hothers], halike.append halike'⟩
end

end Fields

/-! ## Blocks -/

section Blocks

variable {fill fill' : Filling} {site site' : Site} {b b' : Entity} {path : KeyPath}

theorem group_alike (hfill : FillsAlike fill fill') (hb : b.plan = b'.plan)
    (hsite : site.plan = site'.plan) {key : String} {siblings siblings' : List Sibling}
    {group : FieldGroup} {members members' : List Field} {nodes nodes' : List FieldNode}
    {es es' : List IndexEntry} (hmembers : members.map Field.plan = members'.map Field.plan)
    (h : GroupHolds fill site b path key siblings group members nodes es)
    (h' : GroupHolds fill' site' b' path key siblings' group members' nodes' es') :
    FieldNode.outlines nodes = FieldNode.outlines nodes' ∧ Alike es es' := by
  have hempty : members = [] ↔ members' = [] := by
    rw [← List.map_eq_nil_iff (f := Field.plan), hmembers, List.map_eq_nil_iff]
  cases h with
  | empty =>
    cases h' with
    | empty => exact ⟨rfl, rfl⟩
    | content hne => exact absurd (hempty.mp rfl) hne
    | tabbed _ hne => exact absurd (hempty.mp rfl) hne
  | content hne hfields =>
    cases h' with
    | empty => exact absurd (hempty.mpr rfl) hne
    | content _ hfields' =>
      obtain ⟨hnodes, halike⟩ := fields_alike hfill hb hsite hmembers hfields hfields'
      rw [FieldNode.outlines_eq_map, FieldNode.outlines_eq_map] at hnodes ⊢
      rw [pinned_map, pinned_map, hnodes, pinned_plan hb hmembers]
      exact ⟨rfl, halike⟩
    | tabbed hgroup => exact absurd rfl hgroup
  | tabbed hgroup hne hfields =>
    cases h' with
    | empty => exact absurd (hempty.mpr rfl) hne
    | content => exact absurd rfl hgroup
    | tabbed _ _ hfields' =>
      obtain ⟨hnodes, halike⟩ := fields_alike hfill hb hsite hmembers hfields hfields'
      rw [FieldNode.outlines, FieldNode.outlines, hnodes, Entity.ref_of_plan hb,
        Site.layoutName_of_plan hsite]
      exact ⟨rfl, halike.cons rfl⟩

theorem block_alike (hfill : FillsAlike fill fill') {settings settings' : Settings}
    (hcore : settings.coreFields = settings'.coreFields) :
    BlocksAlike (block settings fill) (block settings' fill') where
  made := fun {site site' collection path b b' node node' es es'} hsite hb h h' => by
    obtain ⟨held, parts, -, hparts, rfl, rfl⟩ := makes_block h
    obtain ⟨held', parts', -, hparts', rfl, rfl⟩ := makes_block h'
    obtain ⟨hnodes, halike⟩ := Alike.mapM (k := FieldNode.outlines) (groups_plan hb hcore) hparts
      hparts' fun g g' hg => by
        obtain ⟨group, members⟩ := g
        obtain ⟨group', members'⟩ := g'
        rw [Prod.mk.injEq] at hg
        obtain ⟨rfl, hmembers⟩ := hg
        intro nodes nodes' es es' hnodes hnodes'
        exact group_alike hfill hb (Site.nested_plan hsite hb) hmembers (makes_groupNodes hnodes)
          (makes_groupNodes hnodes')
    have hflat : ∀ parts : List (List FieldNode), FieldNode.outlines parts.flatten =
        (parts.map FieldNode.outlines).flatten := fun parts => by
      rw [FieldNode.outlines_eq_map, List.map_flatten]
      exact congrArg List.flatten
        (List.map_congr_left fun _ _ => (FieldNode.outlines_eq_map _).symm)
    have hentry : (blockEntry site collection path b).unformatted =
        (blockEntry site' collection path b').unformatted := by
      unfold blockEntry
      rw [Entity.name_of_plan hb, Entity.ref_of_plan hb, Site.layoutName_of_plan hsite]
    refine ⟨?_, rfl, halike.append (.cons hentry rfl)⟩
    rw [BlockNode.outline, BlockNode.outline, hflat, hflat, hnodes, Entity.name_of_plan hb]

end Blocks

/-! ## Collections, layouts and the field group -/

section Collections

variable {r r' : Registry}
  {make make' : Site → Option String → KeyPath → Entity → Compilation BlockNode}

theorem variant_alike (hmake : BlocksAlike make make') {site site' : Site}
    (hsite : site.plan = site'.plan) {parent parent' c c' : Entity}
    (hparent : parent.plan = parent'.plan) (hc : c.plan = c'.plan) {path : KeyPath} {key : String}
    {found found' : List (String × BlockNode)} {es es' : List IndexEntry}
    (h : Makes (variant make site parent path key c) found es)
    (h' : Makes (variant make' site' parent' path key c') found' es') :
    BlockNode.outlines found = BlockNode.outlines found' ∧ Alike es es' := by
  have henclosing : site.enclosing = site'.enclosing := (congrArg Site.enclosing hsite :)
  have hrefusal := refusal?_plan hc hparent site.enclosing
  rcases makes_variant h with ⟨hrefused, rfl, rfl⟩ | ⟨hoffered, node, hnode, rfl⟩
  · rcases makes_variant h' with ⟨-, rfl, rfl⟩ | ⟨hoffered', -⟩
    · exact ⟨rfl, rfl⟩
    · exact absurd (hrefusal.mpr (henclosing ▸ hoffered')) hrefused
  · rcases makes_variant h' with ⟨hrefused', -⟩ | ⟨-, node', hnode', rfl⟩
    · exact absurd (henclosing ▸ hrefusal.mp hoffered) hrefused'
    · rw [Entity.name_of_plan hc] at hnode
      obtain ⟨houtline, hkey, halike⟩ := hmake.made hsite hc hnode hnode'
      refine ⟨?_, halike⟩
      rw [BlockNode.outlines_eq_map, BlockNode.outlines_eq_map, List.map_singleton,
        List.map_singleton, houtline, hkey]

/-- Of pairs with one id the last stays, whatever is left out of the variants. -/
theorem outlines_ofList (variants : List (String × BlockNode)) :
    BlockNode.outlines (Entries.ofList variants) = Entries.ofList (BlockNode.outlines variants) := by
  rw [BlockNode.outlines_eq_map, BlockNode.outlines_eq_map]
  exact Entries.map_ofList (fun _ node => node.outline) variants

theorem offered_alike (hr : r.plan = r'.plan) (hmake : BlocksAlike make make') :
    FillsAlike (offered r make) (offered r' make') where
  found := fun {site site' filter path key found found' es es'} hsite h h' => by
    obtain ⟨l, parent, parts, -, hparent, hparts, rfl⟩ := makes_offered h
    obtain ⟨l', parent', parts', -, hparent', hparts', rfl⟩ := makes_offered h'
    have hparents : parent.plan = parent'.plan := by
      have hboth : site.parent.map Entity.plan = site'.parent.map Entity.plan :=
        (congrArg Site.parent hsite :)
      rw [hparent, hparent'] at hboth
      exact Option.some.inj hboth
    obtain ⟨hfound, halike⟩ := Alike.mapM (k := BlockNode.outlines)
      (Registry.candidates_plan hr _) hparts hparts' fun c c' hc _ _ _ _ hvariant hvariant' =>
        variant_alike hmake hsite hparents hc hvariant hvariant'
    have hflat : ∀ parts : List (List (String × BlockNode)), BlockNode.outlines parts.flatten =
        (parts.map BlockNode.outlines).flatten := fun parts => by
      rw [BlockNode.outlines_eq_map, List.map_flatten]
      exact congrArg List.flatten
        (List.map_congr_left fun _ _ => (BlockNode.outlines_eq_map _).symm)
    refine ⟨?_, halike⟩
    rw [outlines_ofList, outlines_ofList, hflat, hflat, hfound]

theorem variants_alike (hr : r.plan = r'.plan) (count : Nat) :
    FillsAlike (variants r count) (variants r' count) := by
  induction count with
  | zero => exact offered_alike hr ⟨fun _ _ h _ => (makes_throw h).elim⟩
  | succ count ih => exact offered_alike hr (block_alike ih (Registry.coreFields_of_plan hr))

theorem layout_alike (hr : r.plan = r'.plan) {path : KeyPath} {l l' : Entity}
    (hl : l.plan = l'.plan) {node node' : FieldNode} {es es' : List IndexEntry}
    (h : Makes (layout r path l) node es) (h' : Makes (layout r' path l') node' es') :
    node.outline = node'.outline ∧ Alike es es' := by
  obtain ⟨found, held, hfound, rfl, rfl⟩ := makes_layout h
  obtain ⟨found', held', hfound', rfl, rfl⟩ := makes_layout h'
  have hsite : (Site.inLayout l).plan = (Site.inLayout l').plan := by
    unfold Site.plan Site.inLayout
    dsimp only
    rw [Option.map_some, Option.map_some, hl]
  have hslug : layoutSlug r l = layoutSlug r' l' := by
    unfold layoutSlug
    rw [Registry.name_of_plan hr, Entity.name_of_plan hl]
  have hentry : (layoutEntry r path l).unformatted = (layoutEntry r' path l').unformatted := by
    unfold layoutEntry
    rw [hslug, Entity.name_of_plan hl, Entity.ref_of_plan hl]
  unfold fill at hfound hfound'
  rw [Registry.size_of_plan hr, Entity.children_of_plan hl, Entity.name_of_plan hl] at hfound
  obtain ⟨hvariants, halike⟩ := (variants_alike hr _).found hsite hfound hfound'
  refine ⟨?_, halike.append (.cons hentry rfl)⟩
  unfold layoutNode FieldNode.plain
  rw [FieldNode.outline, FieldNode.outline, hslug, hvariants, Entity.name_of_plan hl]

/-- What a layout is shown under is no part of its outline. -/
theorem selected_outline (r : Registry) (node : FieldNode) :
    (selected r node).outline = node.outline := by
  cases node
  unfold selected
  rw [FieldNode.outline, FieldNode.outline]

theorem enabledField_outline (hr : r.plan = r'.plan) :
    (enabledField r).outline = (enabledField r').outline := by
  unfold enabledField enabledKey root FieldNode.plain
  rw [FieldNode.outline, FieldNode.outline, Registry.name_of_plan hr]

theorem selectField_outline (hr : r.plan = r'.plan) :
    (selectField r).outline = (selectField r').outline := by
  unfold selectField selectKey root FieldNode.plain
  rw [FieldNode.outline, FieldNode.outline, Registry.name_of_plan hr]

theorem fieldGroup_alike (hr : r.plan = r'.plan) {group group' : FieldGroupNode}
    {es es' : List IndexEntry} (h : Makes (fieldGroup r) group es)
    (h' : Makes (fieldGroup r') group' es') : group.outline = group'.outline ∧ Alike es es' := by
  obtain ⟨layouts, held, hlayouts, rfl, rfl⟩ := makes_fieldGroup h
  obtain ⟨layouts', held', hlayouts', rfl, rfl⟩ := makes_fieldGroup h'
  have hname : r.settings.name = r'.settings.name := Registry.name_of_plan hr
  have hroot : root r = root r' := by rw [root, root, hname]
  rw [hroot] at hlayouts
  obtain ⟨hnodes, halike⟩ := Alike.mapM (k := FieldNode.outline) (Registry.layouts_of_plan hr)
    hlayouts hlayouts' fun l l' hl _ _ _ _ hnode hnode' => layout_alike hr hl hnode hnode'
  have hselected : ∀ (r : Registry) (nodes : List FieldNode),
      (nodes.map (selected r)).map FieldNode.outline = nodes.map FieldNode.outline :=
    fun r nodes => by
      rw [List.map_map]
      exact List.map_congr_left fun node _ => selected_outline r node
  have hbuilder : builderRef r = builderRef r' := by rw [builderRef, builderRef, hname]
  rw [hbuilder]
  refine ⟨?_, .cons (fieldEntry_alike (enabledField_outline hr) ..)
    (halike.append (.cons (fieldEntry_alike (selectField_outline hr) ..) rfl))⟩
  unfold FieldGroupNode.outline FieldGroupNode.ofPostTypes
  simp only [List.map_cons, hselected, hnodes, hroot, enabledField_outline hr,
    selectField_outline hr]

end Collections

end Compile

namespace FlatIndex.Holds

variable {index index' : FlatIndex} {es es' : List IndexEntry}

theorem lookup_alike (h : index.Holds es) (h' : index'.Holds es') (halike : Alike es es')
    (id : String) : (index.lookup id).map IndexEntry.unformatted =
      (index'.lookup id).map IndexEntry.unformatted := by
  have hget : ∀ es : List IndexEntry, (Entries.get? id (es.map fun e => (e.key, e))).map
      IndexEntry.unformatted =
        Entries.get? id ((es.map IndexEntry.unformatted).map fun e => (e.key, e)) := fun es => by
    rw [← Entries.get?_map (f := fun _ e => IndexEntry.unformatted e), List.map_map, List.map_map]
    rfl
  rw [h.lookup, h'.lookup, hget, hget, halike]

theorem childKey_alike (h : index.Holds es) (h' : index'.Holds es') (halike : Alike es es')
    (parent : String) (group : Option FieldGroup) (name : String) :
    index.childKey parent group name = index'.childKey parent group name := by
  have hpairs : ∀ es : List IndexEntry, childPairs parent es =
      childPairs parent (es.map IndexEntry.unformatted) := fun es => by
    unfold childPairs
    rw [List.filter_map, List.map_map]
    rfl
  unfold childKey
  rw [h.children, h'.children, hpairs es, hpairs es', halike]

end FlatIndex.Holds

/-- Two registries with the same plan are compiled to trees with the same ids, names and kinds in
the same places; their indexes have the same ids, say the same of each but for the form in which a
value is handed out, and find the same children. -/
theorem same_plan_same_ids {r r' : Registry} {now now' : Instant} {schema schema' : CompiledSchema}
    (hplan : r.plan = r'.plan) (hcompiled : Attempt.Gives (compile r now) schema)
    (hcompiled' : Attempt.Gives (compile r' now') schema') :
    schema.group.outline = schema'.group.outline ∧
      (∀ id, (schema.index.lookup id).map IndexEntry.unformatted =
        (schema'.index.lookup id).map IndexEntry.unformatted) ∧
      ∀ parent group name,
        schema.index.childKey parent group name = schema'.index.childKey parent group name := by
  obtain ⟨es, hmakes, hholds, -⟩ := compile_gives hcompiled
  obtain ⟨es', hmakes', hholds', -⟩ := compile_gives hcompiled'
  obtain ⟨houtline, halike⟩ := Compile.fieldGroup_alike hplan hmakes hmakes'
  exact ⟨houtline, hholds.lookup_alike hholds' halike, hholds.childKey_alike hholds' halike⟩

/-- The page of cards once more, with other labels and options and without the condition. -/
def dressedDefinitions : Definitions :=
  { settings := { coreFields := false, label := "Pages", cacheMarkers := false }
    blocks := .ofList [("card",
      { label := some "Card"
        content := [.literal ⟨some "title",
          { type := "text"
            label := some "Heading"
            required := true
            options := .ofList [("maxlength", .int 80)] }, []⟩]
        customise := [.literal ⟨some "tone",
          { type := "text", instructions := some "One word" }, []⟩] })]
    layouts := .ofList [("page", { label := some "Whole page", buttonLabel := "Add Card" })] }

def dressedRegistry : Registry := (Registry.build dressedDefinitions .empty).result

def dressedSchema : CompiledSchema := (compile dressedRegistry default).result

theorem cards_outline : cardSchema.group.outline = dressedSchema.group.outline ∧
    ∀ id, (cardSchema.index.lookup id).map IndexEntry.unformatted =
      (dressedSchema.index.lookup id).map IndexEntry.unformatted := by
  have hcompiled : Attempt.Gives (compile dressedRegistry default) dressedSchema :=
    Attempt.gives_result (by decide +kernel)
  have hplan : cardRegistry.plan = dressedRegistry.plan := by rfl
  have h := same_plan_same_ids hplan cards_compiled hcompiled
  exact ⟨h.1, h.2.1⟩

end PageBlocks
