import PageBlocks.Proofs.Tree.Described

/-!
# What a compiled schema says

A registry that was built and compiles gives a tree and an index that say the
same:

> `index_describes_tree`: the ids of the nodes are distinct, the index has
> exactly them, says of each node what its position says, and finds every child
> under its parent;
> `collections_offer_exactly`: every collection of the tree offers exactly the
> blocks that it may, each once, and no block inside itself.

That a child is found rests on the slots: two nodes below the same node never
share one (`slot_unique`).
-/

namespace PageBlocks

open Attempt Compilation

/-- What a successful compilation of a registry did. -/
theorem compile_gives {registry : Registry} {now : Instant} {schema : CompiledSchema}
    (h : Gives (compile registry now) schema) :
    ∃ entries, Makes (Compile.fieldGroup registry) schema.group entries ∧
      schema.index.Holds entries ∧ schema.sourceHash = registry.sourceHash ∧
      schema.keyScheme = keyScheme ∧ schema.compiledAt = now := by
  unfold compile at h
  obtain ⟨_, -, h₁⟩ := gives_bind h
  unfold runOn at h₁
  dsimp only at h₁
  -- A collision is reported before what else may have gone wrong.
  cases hcollision :
      (FlatIndex.empty.absorb (Compile.fieldGroup registry).run.emissions).collision with
  | some error =>
    rw [hcollision] at h₁
    exact (gives_throw h₁).elim
  | none =>
    rw [hcollision] at h₁
    dsimp only at h₁
    cases hvalue : (Compile.fieldGroup registry).run.value with
    | error error =>
      rw [hvalue] at h₁
      exact (gives_throw h₁).elim
    | ok group =>
      rw [hvalue] at h₁
      obtain rfl := gives_pure h₁
      refine ⟨_, ⟨hvalue, rfl⟩, ?_, rfl, rfl, rfl⟩
      exact FlatIndex.absorb_holds FlatIndex.holds_empty hcollision

/-! ## Slots -/

namespace Position

theorem Child.parent_eq {settings : Settings} {q p : Position} (h : Child settings q p) :
    p.parent = some q.id := by
  cases h <;> rfl

/-- The name that a node below a layout is declared by. -/
def declaredName : Position → String
  | .variant _ _ _ b _ => b.name
  | .tab _ _ _ group _ => group.tabName
  | .field _ _ _ _ f _ => f.name
  | .control _ _ node => node.name
  | .layout _ _ node => node.name

theorem Sound.name_eq {registry : Registry} {p : Position} (h : p.Sound registry) :
    p.node.name = p.declaredName := by
  cases h <;> first | rfl | assumption

/-- In a sound block no field of a group has the name of the group's tab. -/
theorem tabName_not_mem {group : FieldGroup} {members : List Field} {f : Field}
    (hgroup : group ≠ .content) (hf : f ∈ members)
    (hunique : (Compile.takenNames group members).Nodup) : f.name ≠ group.tabName := by
  intro hname
  have hne : members.isEmpty = false := by
    rw [List.isEmpty_eq_false_iff]
    exact List.ne_nil_of_mem hf
  unfold Compile.takenNames at hunique
  rw [if_pos ⟨hgroup, by rw [hne]; rfl⟩] at hunique
  exact (List.nodup_append.mp hunique).2.2 _ (List.mem_map.mpr ⟨f, hf, rfl⟩) _
    (List.mem_singleton.mpr rfl) hname

/-- Two nodes below the same node that share a slot are the same node. -/
theorem slot_unique {registry : Registry} {q p p' : Position} (hq : q.Sound registry)
    (hp : p.Sound registry) (hp' : p'.Sound registry) (h : Child registry.settings q p)
    (h' : Child registry.settings q p')
    (hslot : FlatIndex.slot p.group p.node.name = FlatIndex.slot p'.group p'.node.name) :
    p.id = p'.id := by
  rw [hp.name_eq, hp'.name_eq] at hslot
  rw [hp.id_eq, hp'.id_eq]
  -- The children of one node are of one kind, but for the tabs and fields of a block.
  cases h with
  | @ofLayout _ _ b _ _ =>
    cases h' with
    | @ofLayout _ _ b' _ _ =>
      have hnames : b.name = b'.name := hslot
      simp only [path, keyKind, hnames]
  | @ofCollection _ _ _ _ _ _ b _ hkind =>
    cases h' with
    | @ofCollection _ _ _ _ _ _ b' _ _ =>
      have hnames : b.name = b'.name := hslot
      simp only [path, keyKind, hnames]
    | ofRow hrows => exact absurd hkind (Compile.not_collection_of_hasSubFields hrows)
  | @tab _ _ _ _ _ group _ hgroup =>
    cases h' with
    | @tab _ _ _ _ _ group' _ _ =>
      obtain ⟨rfl, -⟩ := FieldGroup.name_slash_inj (show group.name ++ "/" ++ _ = _ from hslot)
      rfl
    | @ofBlock _ _ _ _ _ group' _ f _ hmem hf =>
      obtain ⟨rfl, hname⟩ := FieldGroup.name_slash_inj (show group.name ++ "/" ++ _ = _ from hslot)
      -- The names of a group were checked together with the name of its tab.
      cases hq with
      | variant _ _ _ _ _ hunique =>
        exact absurd hname.symm (tabName_not_mem hgroup hf (hunique _ hmem))
  | @ofBlock _ _ _ _ _ group _ f _ hmem hf =>
    cases h' with
    | @tab _ _ _ _ _ group' _ hgroup =>
      obtain ⟨rfl, hname⟩ := FieldGroup.name_slash_inj (show group.name ++ "/" ++ _ = _ from hslot)
      cases hq with
      | variant _ _ _ _ _ hunique =>
        exact absurd hname (tabName_not_mem hgroup hf (hunique _ hmem))
    | @ofBlock _ _ _ _ _ group' _ f' _ _ _ =>
      obtain ⟨rfl, hname⟩ := FieldGroup.name_slash_inj (show group.name ++ "/" ++ _ = _ from hslot)
      have hnames : f.name = f'.name := hname
      simp only [path, keyKind, hnames]
  | @ofRow _ _ _ group _ _ f _ hrows _ =>
    cases h' with
    | ofCollection hkind => exact absurd hkind (Compile.not_collection_of_hasSubFields hrows)
    | @ofRow _ _ _ _ _ _ f' _ _ _ =>
      obtain ⟨-, hname⟩ := FieldGroup.name_slash_inj (show group.name ++ "/" ++ _ = _ from hslot)
      have hnames : f.name = f'.name := hname
      simp only [path, keyKind, hnames]

end Position

/-! ## The tree and the index -/

/-- A compiled schema whose tree follows the rules of a registry, and whose index holds exactly
what the positions of the tree call for. -/
structure CompiledSchema.Follows (schema : CompiledSchema) (registry : Registry) : Prop where
  registered : registry.Sound
  nodup : ((schema.group.positions registry).map Position.id).Nodup
  nodes : (schema.group.positions registry).map Position.node = schema.group.nodes
  sound : ∀ p ∈ schema.group.positions registry, p.Sound registry
  below : ∀ p ∈ schema.group.positions registry, p.parent = none ∨
    ∃ q ∈ schema.group.positions registry, Position.Child registry.settings q p
  indexed : ∃ entries, schema.index.Holds entries ∧
    entries.Perm ((schema.group.positions registry).map Position.entry)

theorem compile_follows {definitions : Definitions} {resources : Resources}
    {registry : Registry} {now : Instant} {schema : CompiledSchema}
    (hbuilt : Gives (Registry.build definitions resources) registry)
    (hcompiled : Gives (compile registry now) schema) : schema.Follows registry := by
  have hsound := Registry.build_sound hbuilt
  obtain ⟨entries, hmakes, hholds, -⟩ := compile_gives hcompiled
  have hdescribed := Compile.fieldGroup_described hsound hmakes hholds.nodup
  have hids : (entries.map IndexEntry.key).Perm
      ((schema.group.positions registry).map Position.id) := by
    have hkeys := hdescribed.entries.map IndexEntry.key
    rwa [List.map_map] at hkeys
  exact {
    registered := hsound
    nodup := hids.nodup_iff.mp hholds.nodup
    nodes := hdescribed.nodes
    sound := hdescribed.sound
    below := hdescribed.below
    indexed := ⟨entries, hholds, hdescribed.entries⟩ }

namespace CompiledSchema.Follows

variable {registry : Registry} {schema : CompiledSchema}

/-- The index says of an id what the position of its node says. -/
theorem lookup_iff (h : schema.Follows registry) {id : String} {e : IndexEntry} :
    schema.index.lookup id = some e ↔
      ∃ p ∈ schema.group.positions registry, p.id = id ∧ p.entry = e := by
  obtain ⟨entries, hholds, hperm⟩ := h.indexed
  rw [hholds.lookup_iff, hperm.mem_iff, List.mem_map]
  constructor
  · rintro ⟨⟨p, hp, rfl⟩, rfl⟩
    exact ⟨p, hp, rfl, rfl⟩
  · rintro ⟨p, hp, rfl, rfl⟩
    exact ⟨⟨p, hp, rfl⟩, rfl⟩

theorem eq_of_id (h : schema.Follows registry) {p q : Position}
    (hp : p ∈ schema.group.positions registry) (hq : q ∈ schema.group.positions registry)
    (hid : p.id = q.id) : p = q :=
  List.inj_on_of_nodup_map h.nodup hp hq hid

/-- A node with a parent stands below a node of the tree. -/
theorem exists_parent (h : schema.Follows registry) {p : Position} {parent : String}
    (hp : p ∈ schema.group.positions registry) (hparent : p.parent = some parent) :
    ∃ q ∈ schema.group.positions registry, Position.Child registry.settings q p ∧
      q.id = parent := by
  rcases h.below p hp with hnone | ⟨q, hq, hchild⟩
  · rw [hnone] at hparent
    cases hparent
  · rw [hchild.parent_eq] at hparent
    exact ⟨q, hq, hchild, Option.some.inj hparent⟩

/-- What is found in a slot is the one node with that slot. -/
theorem childKey_iff (h : schema.Follows registry) {parent name id : String}
    {group : Option FieldGroup} :
    schema.index.childKey parent group name = some id ↔
      ∃ p ∈ schema.group.positions registry, p.id = id ∧ p.parent = some parent ∧
        FlatIndex.slot p.group p.node.name = FlatIndex.slot group name := by
  obtain ⟨entries, hholds, hperm⟩ := h.indexed
  have hentry : ∀ {e}, e ∈ entries → ∃ p ∈ schema.group.positions registry, p.entry = e :=
    fun he => List.mem_map.mp (hperm.mem_iff.mp he)
  constructor
  · intro hchild
    obtain ⟨e, he, hparent, hslot, hkey⟩ := hholds.childKey_mem hchild
    obtain ⟨p, hp, rfl⟩ := hentry he
    exact ⟨p, hp, hkey, hparent, hslot⟩
  · rintro ⟨p, hp, rfl, hparent, hslot⟩
    have he : p.entry ∈ entries := hperm.mem_iff.mpr (List.mem_map.mpr ⟨p, hp, rfl⟩)
    -- Something is found in the slot; it stands below the same node, so it is this node.
    obtain ⟨id, hfound⟩ := hholds.childKey_isSome he hparent
    obtain ⟨e, he', hparent', hslot', rfl⟩ := hholds.childKey_mem hfound
    obtain ⟨p', hp', rfl⟩ := hentry he'
    obtain ⟨q, hq, hchild, hqid⟩ := h.exists_parent hp hparent
    obtain ⟨q', hq', hchild', hqid'⟩ := h.exists_parent hp' hparent'
    obtain rfl := h.eq_of_id hq hq' (hqid.trans hqid'.symm)
    have hsame : p'.id = p.id := Position.slot_unique (h.sound q hq) (h.sound p' hp')
      (h.sound p hp) hchild' hchild hslot'
    have hslots : schema.index.childKey parent group name =
        schema.index.childKey parent p.group p.node.name := by
      unfold FlatIndex.childKey
      rw [hslot]
    rw [hslots, ← hsame]
    exact hfound

theorem ids_eq (h : schema.Follows registry) :
    schema.group.ids = (schema.group.positions registry).map Position.id := by
  rw [FieldGroupNode.ids, ← h.nodes, List.map_map]
  rfl

end CompiledSchema.Follows

/-- The ids of all nodes are distinct; the index has exactly these ids, says of every node what its
position in the tree says, and finds it under its parent. -/
theorem index_describes_tree {definitions : Definitions} {resources : Resources}
    {registry : Registry} {now : Instant} {schema : CompiledSchema}
    (hbuilt : Gives (Registry.build definitions resources) registry)
    (hcompiled : Gives (compile registry now) schema) :
    schema.group.ids.Nodup ∧
      (∀ id, (∃ e, schema.index.lookup id = some e) ↔ id ∈ schema.group.ids) ∧
      (schema.group.positions registry).map Position.node = schema.group.nodes ∧
      (∀ p ∈ schema.group.positions registry, schema.index.lookup p.id = some p.entry) ∧
      ∀ id e parent, schema.index.lookup id = some e → e.parent = some parent →
        schema.index.childKey parent e.group e.name = some id := by
  have h := compile_follows hbuilt hcompiled
  have hnodup : schema.group.ids.Nodup := h.ids_eq ▸ h.nodup
  refine ⟨hnodup, ?_, h.nodes, ?_, ?_⟩
  · intro id
    rw [h.ids_eq, List.mem_map]
    constructor
    · rintro ⟨e, he⟩
      obtain ⟨p, hp, hid, -⟩ := h.lookup_iff.mp he
      exact ⟨p, hp, hid⟩
    · rintro ⟨p, hp, hid⟩
      exact ⟨p.entry, h.lookup_iff.mpr ⟨p, hp, hid, rfl⟩⟩
  · intro p hp
    exact h.lookup_iff.mpr ⟨p, hp, rfl, rfl⟩
  · intro id e parent hid hparent
    obtain ⟨p, hp, hpid, rfl⟩ := h.lookup_iff.mp hid
    exact h.childKey_iff.mpr ⟨p, hp, hpid, hparent, rfl⟩

/-- A page of boxes, which hold blocks but no boxes. -/
def boxDefinitions : Definitions :=
  { settings := { coreFields := false }
    blocks := .ofList [("box",
      { kind := .container, content := [.literal ⟨some "title", { type := "text" }, []⟩] })]
    layouts := .ofList [("page", {})] }

def boxRegistry : Registry := (Registry.build boxDefinitions .empty).result

def boxSchema : CompiledSchema := (compile boxRegistry default).result

theorem boxes_built : Gives (Registry.build boxDefinitions .empty) boxRegistry :=
  gives_result (by decide +kernel)

theorem boxes_compiled : Gives (compile boxRegistry default) boxSchema :=
  gives_result (by decide +kernel)

theorem boxes_described : boxSchema.group.ids.Nodup ∧
    ∀ p ∈ boxSchema.group.positions boxRegistry, boxSchema.index.lookup p.id = some p.entry :=
  have h := index_describes_tree boxes_built boxes_compiled
  ⟨h.1, h.2.2.2.1⟩

/-- Every collection offers exactly the registered blocks that its filter accepts, that fit into
the entity it belongs to and that are not around it; so no block is ever inside itself. -/
theorem collections_offer_exactly {definitions : Definitions} {resources : Resources}
    {registry : Registry} {now : Instant} {schema : CompiledSchema}
    (hbuilt : Gives (Registry.build definitions resources) registry)
    (hcompiled : Gives (compile registry now) schema) :
    (∀ n, .field n ∈ schema.group.nodes → n.kind.isBlockCollection = true →
        ∃ p ∈ schema.group.positions registry, ∃ c, p.node = .field n ∧ p.collection? = some c ∧
          c.variants = n.layouts) ∧
      (∀ p ∈ schema.group.positions registry, ∀ c, p.collection? = some c →
        Offers registry c.spot c.filter c.variants) ∧
      ∀ spot path collection b node,
        .variant spot path collection b node ∈ schema.group.positions registry →
          node.name = b.name ∧ b.name ∉ spot.enclosing := by
  have h := compile_follows hbuilt hcompiled
  refine ⟨?_, ?_, ?_⟩
  -- Only a layout and a field of a block are at a collection; controls and tabs are of other kinds.
  · intro n hn hkind
    rw [← h.nodes, List.mem_map] at hn
    obtain ⟨p, hp, hnode⟩ := hn
    have hsound := h.sound p hp
    cases hsound with
    | control _ hcontrol =>
      cases hnode
      rcases hcontrol with hno | hno <;> rw [hno] at hkind <;> exact absurd hkind (by decide)
    | layout =>
      cases hnode
      exact ⟨_, hp, _, rfl, rfl, rfl⟩
    | variant => cases hnode
    | tab _ _ htab =>
      cases hnode
      rw [htab] at hkind
      exact absurd hkind (by decide)
    | field =>
      cases hnode
      exact ⟨_, hp, _, rfl, if_pos hkind, rfl⟩
  · intro p hp c hc
    have hsound := h.sound p hp
    cases hsound with
    | control => cases hc
    | layout _ _ _ _ hoffers =>
      cases hc
      exact hoffers
    | variant => cases hc
    | tab => cases hc
    | field _ _ _ _ _ hoffers =>
      rw [Position.collection?] at hc
      obtain ⟨hkind, hfound⟩ := Option.ite_none_right_eq_some.mp hc
      cases hfound
      exact hoffers hkind
  · intro spot path collection b node hp
    cases h.sound _ hp with
    | variant _ _ hname _ hnew => exact ⟨hname, hnew⟩

theorem boxes_offered :
    (∀ p ∈ boxSchema.group.positions boxRegistry, ∀ c,
      p.collection? = some c → Offers boxRegistry c.spot c.filter c.variants) ∧
      ∀ spot path collection b node,
        .variant spot path collection b node ∈ boxSchema.group.positions boxRegistry →
          node.name = b.name ∧ b.name ∉ spot.enclosing :=
  (collections_offer_exactly boxes_built boxes_compiled).2

end PageBlocks
