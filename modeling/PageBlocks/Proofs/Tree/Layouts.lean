import PageBlocks.Proofs.Tree.Made

/-!
# Layouts and controls of a compiled schema

The index files the collections of the layouts by the names of the layouts, and
the builder's own two fields by their names without the builder's. Both
dictionaries are filled while the tree is compiled, and a later entry replaces
an earlier one of the same name; that none does is what is shown here:

> `layoutKey_iff`: what is filed for a layout is its collection in the tree, and
> every registered layout has one (`compile_layouts`);
> `compile_controlKey`: the controls that are filed are those of the tree.
-/

namespace PageBlocks

open Attempt Compilation

variable {registry : Registry} {schema : CompiledSchema}

namespace Compile

/-- Every layout that was compiled is among the layouts of the tree. -/
theorem layouts_placed {path : KeyPath} :
    ∀ {ls : List Entity} {nodes : List FieldNode} {es : List IndexEntry},
      Makes (ls.mapM (layout registry path)) nodes es → ∀ l ∈ ls, ∃ node,
        .layout (path.child l.name) l node ∈
          layoutPositions registry path ls (nodes.map (selected registry))
  | [], _, _, _, _, hl => absurd hl List.not_mem_nil
  | l :: ls, nodes, es, h, l', hl => by
    obtain ⟨node, rest, es₁, es₂, -, hrest, rfl, rfl⟩ := makes_mapM_cons h
    rw [List.map_cons, layoutPositions]
    rcases List.mem_cons.mp hl with rfl | hl
    · exact ⟨_, List.mem_append_left _ (List.mem_cons_self ..)⟩
    · obtain ⟨node', hnode'⟩ := layouts_placed hrest l' hl
      exact ⟨node', List.mem_append_right _ hnode'⟩

end Compile

/-- Every registered layout has a collection in the compiled tree. -/
theorem compile_layouts {now : Instant} (h : Gives (compile registry now) schema) {l : Entity}
    (hl : registry.layout? l.name = some l) :
    ∃ path node, .layout path l node ∈ schema.group.positions registry := by
  obtain ⟨entries, hmakes, -⟩ := compile_gives h
  obtain ⟨layouts, held, hlayouts, hgroup, -⟩ := Compile.makes_fieldGroup hmakes
  obtain ⟨node, hnode⟩ :=
    Compile.layouts_placed hlayouts l (Dict.mem_values_iff.mpr ⟨l.name, hl⟩)
  rw [hgroup]
  exact ⟨_, node, List.mem_cons_of_mem _ (List.mem_cons_of_mem _ hnode)⟩

/-- The controls are in the compiled tree. -/
theorem compile_controls {now : Instant} (h : Gives (compile registry now) schema) :
    (∃ path, .control registry.settings.name path (Compile.enabledField registry) ∈
        schema.group.positions registry) ∧
      ∃ path, .control registry.settings.name path (Compile.selectField registry) ∈
        schema.group.positions registry := by
  obtain ⟨layouts, hfields⟩ := compile_fields h
  unfold FieldGroupNode.positions
  rw [hfields]
  exact ⟨⟨_, List.mem_cons_self ..⟩, ⟨_, List.mem_cons_of_mem _ (List.mem_cons_self ..)⟩⟩

namespace CompiledSchema.Follows

/-! ## Layouts -/

theorem layout_registered (h : schema.Follows registry) {path : KeyPath} {l : Entity}
    {node : FieldNode} (hp : .layout path l node ∈ schema.group.positions registry) :
    registry.layout? l.name = some l ∧ node.name = Compile.layoutSlug registry l := by
  cases h.sound _ hp with
  | layout hlayout _ hname => exact ⟨hlayout, hname⟩

/-- Collections of layouts with one name are one collection. -/
theorem layout_unique (h : schema.Follows registry)
    (hgrown : Grown registry [] (schema.group.positions registry)) {path path' : KeyPath}
    {l l' : Entity} {node node' : FieldNode}
    (hp : .layout path l node ∈ schema.group.positions registry)
    (hp' : .layout path' l' node' ∈ schema.group.positions registry) (hname : l.name = l'.name) :
    node.key = node'.key := by
  -- The key is made from the path, and that of a layout is told by its name.
  have hid := (h.sound _ hp).id_eq
  have hid' := (h.sound _ hp').id_eq
  cases hgrown.made _ hp
  cases hgrown.made _ hp'
  refine hid.trans (Eq.trans ?_ hid'.symm)
  simp only [Position.path, Position.keyKind, Compile.layoutPath, hname]

/-- What is filed for a layout is the id of its collection. -/
theorem layoutKey_iff (h : schema.Follows registry)
    (hgrown : Grown registry [] (schema.group.positions registry)) {name id : String} :
    schema.index.layoutKey name = some id ↔
      ∃ path l node, .layout path l node ∈ schema.group.positions registry ∧ l.name = name ∧
        node.key = id := by
  obtain ⟨entries, hholds, hperm⟩ := h.indexed
  have hpair : ∀ {name id : String},
      (name, id) ∈ entries.filterMap FlatIndex.layoutPair? ↔
        ∃ path l node, .layout path l node ∈ schema.group.positions registry ∧ l.name = name ∧
          node.key = id := by
    intro name id
    rw [List.mem_filterMap]
    constructor
    · rintro ⟨e, he, hfiled⟩
      obtain ⟨p, hp, rfl⟩ := List.mem_map.mp (hperm.mem_iff.mp he)
      cases p with
      | layout path l node =>
        obtain ⟨rfl, rfl⟩ := Prod.mk.inj (Option.some.inj hfiled)
        exact ⟨path, l, node, hp, rfl, rfl⟩
      | control => cases hfiled
      | variant => cases hfiled
      | tab => cases hfiled
      | field => cases hfiled
    · rintro ⟨path, l, node, hp, rfl, rfl⟩
      exact ⟨_, hperm.mem_iff.mpr (List.mem_map.mpr ⟨_, hp, rfl⟩), rfl⟩
  unfold FlatIndex.layoutKey
  rw [hholds.layouts]
  refine ⟨fun hlast => hpair.mp (Entries.mem_of_last? hlast), fun hfiled => ?_⟩
  refine Entries.last?_eq_some (hpair.mpr hfiled) fun id' hid' => ?_
  obtain ⟨path, l, node, hp, rfl, rfl⟩ := hfiled
  obtain ⟨path', l', node', hp', hname, rfl⟩ := hpair.mp hid'
  exact h.layout_unique hgrown hp' hp hname

end CompiledSchema.Follows

/-! ## Controls -/

theorem Entity.ref_type_ne (e : Entity) : e.ref.type ≠ .builder := by
  unfold Entity.ref
  dsimp only
  split <;> nofun

namespace Position

/-- Only the builder declares controls. -/
theorem controlPair?_eq_none {e : IndexEntry} (htype : e.entity.type ≠ .builder) :
    FlatIndex.controlPair? e = none := by
  unfold FlatIndex.controlPair? FlatIndex.controlName?
  rw [if_neg (by simp [htype])]
  rfl

/-- A field of the builder is filed by its name without the builder's. -/
theorem controlPair?_control {builder control : String} {path : KeyPath} {node : FieldNode}
    (hname : node.name = builder ++ "_" ++ control) :
    FlatIndex.controlPair? (Position.control builder path node).entry = some (control, node.key) := by
  have hentry : (Position.control builder path node).entry.name = builder ++ "_" ++ control := hname
  unfold FlatIndex.controlPair? FlatIndex.controlName?
  rw [hentry]
  simp [entry, entity, parent, id, Position.node, TreeNode.id, String.toList_append]

theorem controlPair?_enabled {path : KeyPath} :
    FlatIndex.controlPair?
        (Position.control registry.settings.name path (Compile.enabledField registry)).entry =
      some ("enabled", (Compile.enabledField registry).key) := by
  refine controlPair?_control ?_
  rw [String.append_assoc]
  rfl

theorem controlPair?_select {path : KeyPath} :
    FlatIndex.controlPair?
        (Position.control registry.settings.name path (Compile.selectField registry)).entry =
      some ("layout", (Compile.selectField registry).key) := by
  refine controlPair?_control ?_
  rw [String.append_assoc]
  rfl

/-- What is filed as a control is one of the two. -/
theorem Made.controlPair? {others : List Position} {p : Position} {pair : String × String}
    (h : p.Made registry others) (hpair : FlatIndex.controlPair? p.entry = some pair) :
    pair = ("enabled", (Compile.enabledField registry).key) ∨
      pair = ("layout", (Compile.selectField registry).key) := by
  have hother : ∀ {e : Entity}, p.entity = e.ref → False := by
    intro e he
    have htype : p.entry.entity.type ≠ .builder := by
      show p.entity.type ≠ .builder
      rw [he]
      exact e.ref_type_ne
    rw [controlPair?_eq_none htype] at hpair
    cases hpair
  cases h with
  | enabled =>
    rw [controlPair?_enabled] at hpair
    exact .inl (Option.some.inj hpair).symm
  | select =>
    rw [controlPair?_select] at hpair
    exact .inr (Option.some.inj hpair).symm
  | layout => exact (hother rfl).elim
  | variant => exact (hother rfl).elim
  | tab => exact (hother rfl).elim
  | field => exact (hother rfl).elim

end Position

/-- The controls that the index files are those of the tree. -/
theorem compile_controlKey {definitions : Definitions} {resources : Resources} {now : Instant}
    (hbuilt : Gives (Registry.build definitions resources) registry)
    (hcompiled : Gives (compile registry now) schema) :
    schema.index.controlKey "enabled" = some (Compile.enabledField registry).key ∧
      schema.index.controlKey "layout" = some (Compile.selectField registry).key := by
  have h := compile_follows hbuilt hcompiled
  have hgrown := compile_grown hbuilt hcompiled
  obtain ⟨⟨path, henabled⟩, ⟨path', hselect⟩⟩ := compile_controls hcompiled
  obtain ⟨entries, hholds, hperm⟩ := h.indexed
  have hfiled : ∀ {p : Position} {pair : String × String},
      p ∈ schema.group.positions registry → FlatIndex.controlPair? p.entry = some pair →
      pair ∈ entries.filterMap FlatIndex.controlPair? := fun hp hpair =>
    List.mem_filterMap.mpr ⟨_, hperm.mem_iff.mpr (List.mem_map.mpr ⟨_, hp, rfl⟩), hpair⟩
  have hcontrol : ∀ {pair : String × String}, pair ∈ entries.filterMap FlatIndex.controlPair? →
      pair = ("enabled", (Compile.enabledField registry).key) ∨
        pair = ("layout", (Compile.selectField registry).key) := by
    intro pair hmem
    obtain ⟨e, he, hpair⟩ := List.mem_filterMap.mp hmem
    obtain ⟨p, hp, rfl⟩ := List.mem_map.mp (hperm.mem_iff.mp he)
    exact (hgrown.made p hp).controlPair? hpair
  unfold FlatIndex.controlKey
  rw [hholds.controls, hholds.controls]
  constructor
  · refine Entries.last?_eq_some (hfiled henabled Position.controlPair?_enabled) fun id hid => ?_
    rcases hcontrol hid with heq | heq
    · exact (Prod.mk.inj heq).2
    · exact absurd (Prod.mk.inj heq).1 (by decide)
  · refine Entries.last?_eq_some (hfiled hselect Position.controlPair?_select) fun id hid => ?_
    rcases hcontrol hid with heq | heq
    · exact absurd (Prod.mk.inj heq).1 (by decide)
    · exact (Prod.mk.inj heq).2

end PageBlocks
