import PageBlocks.Proofs.Tree.Layouts
import PageBlocks.Proofs.Tree.Visibility
import PageBlocks.Rows.Select

/-!
# The layout that an item selects

The layout select of a compiled tree offers every layout under the name of its
collection, which is the name of the layout behind that of the builder. Rows of
items are read by the index alone, which takes a choice for the bare name of a
layout first:

> `picked_layout_selected`: a row with the choice of a layout selects that
> layout, with the rows stored for it, unless a layout is named like the choice.

Where one is, that layout is selected (`twin_layout_selected`).
-/

namespace PageBlocks

open Attempt

variable {registry : Registry} {schema : CompiledSchema}

/-! ## Choices -/

/-- The choices of layouts are as different as their names. -/
theorem Compile.layoutSlug_inj {l l' : Entity}
    (h : layoutSlug registry l = layoutSlug registry l') : l.name = l'.name := by
  have hchars := congrArg String.toList h
  simp only [layoutSlug, String.toList_append] at hchars
  exact String.toList_inj.mp (List.append_cancel_left hchars)

theorem Compile.layoutSlug_ne_empty (l : Entity) : layoutSlug registry l ≠ "" := by
  intro h
  have hchars := congrArg String.toList h
  simp [layoutSlug, String.toList_append] at hchars

/-- The select offers every layout, by its label. -/
theorem Compile.choices_get? (hr : registry.Sound) {l : Entity}
    (hl : registry.layout? l.name = some l) :
    (choices registry).get? (layoutSlug registry l) = some (.string l.label) := by
  unfold choices
  rw [Dict.get?_ofList]
  refine Entries.last?_eq_some (List.mem_map.mpr ⟨l, hr.mem_layouts.mpr hl, rfl⟩) fun v hv => ?_
  obtain ⟨l', hl', heq⟩ := List.mem_map.mp hv
  obtain ⟨hslug, rfl⟩ := Prod.mk.inj heq
  have hsame := hr.mem_layouts.mp hl'
  rw [layoutSlug_inj hslug, hl] at hsame
  cases hsame
  rfl

theorem Compile.selectField_choices :
    (selectField registry).options.get? "choices" = some (.ofDict (choices registry)) := by
  show Dict.get? (Dict.insert _ _ _) _ = _
  rw [Dict.get?_insert, if_neg (by decide), Dict.get?_insert, if_pos rfl]

namespace CompiledSchema.Follows

/-- The choice of a layout stands for it, unless a layout has the choice as its name. -/
theorem layoutByChoice_slug (h : schema.Follows registry)
    (hgrown : Grown registry [] (schema.group.positions registry)) {path : KeyPath} {l : Entity}
    {node : FieldNode} (hp : .layout path l node ∈ schema.group.positions registry)
    (hfree : registry.layout? node.name = none) :
    schema.index.layoutByChoice node.name = some l.name := by
  obtain ⟨-, hname⟩ := h.layout_registered hp
  have hkey : schema.index.layoutKey l.name = some node.key :=
    (h.layoutKey_iff hgrown).mpr ⟨path, l, node, hp, rfl, rfl⟩
  have hnone : schema.index.layoutKey node.name = none := by
    cases hfound : schema.index.layoutKey node.name with
    | none => rfl
    | some id =>
      obtain ⟨path', l', node', hp', hsame, -⟩ := (h.layoutKey_iff hgrown).mp hfound
      obtain ⟨hregistered, -⟩ := h.layout_registered hp'
      rw [hsame, hfree] at hregistered
      cases hregistered
  have hbare : schema.index.layouts.contains node.name = false := by
    unfold Dict.contains
    rw [show schema.index.layouts.get? node.name = none from hnone]
    rfl
  unfold FlatIndex.layoutByChoice
  rw [if_neg (by rw [hbare]; decide)]
  -- Of the collections only that of the layout has the choice as its name.
  have hmem : (l.name, node.key) ∈ schema.index.layouts.entries := Dict.mem_entries_iff.mpr hkey
  have hnamed : ∀ {path : KeyPath} {l : Entity} {collection : FieldNode},
      .layout path l collection ∈ schema.group.positions registry →
      ((schema.index.lookup collection.key).any fun e => e.name == node.name) =
        (collection.name == node.name) := by
    intro path l collection hp
    have hentry : schema.index.lookup collection.key =
        some (Position.layout path l collection).entry := h.lookup_iff.mpr ⟨_, hp, rfl, rfl⟩
    rw [hentry]
    rfl
  cases hfind : schema.index.layouts.entries.find? fun e =>
      (schema.index.lookup e.2).any fun e => e.name == node.name with
  | none =>
    have hno := List.find?_eq_none.mp hfind _ hmem
    rw [hnamed hp] at hno
    exact absurd (beq_self_eq_true _) hno
  | some found =>
    obtain ⟨name, id⟩ := found
    obtain ⟨path', l', node', hp', rfl, rfl⟩ := (h.layoutKey_iff hgrown).mp
      (Dict.mem_entries_iff.mp (List.mem_of_find?_eq_some hfind))
    have hsame := List.find?_some hfind
    rw [hnamed hp', beq_iff_eq, hname, (h.layout_registered hp').2] at hsame
    exact congrArg some (Compile.layoutSlug_inj hsame)

end CompiledSchema.Follows

/-! ## Selecting -/

/-- A row that is switched on selects its layout with the rows stored for it. -/
theorem selectLayout_of_selected {index : FlatIndex} {row : List (String × Value)} {on : Value}
    {layout collection : String} (hon : controlValue? index "enabled" row = some on)
    (htruthy : truthy on = true) (hselected : selectedLayout index row = .ok layout)
    (hkey : index.layoutKey layout = some collection) :
    selectLayout index row =
      .ok (some ⟨layout, ((Entries.get? collection row).bind Value.items?).getD []⟩) := by
  have hstored : layoutRows index layout row =
      ((Entries.get? collection row).bind Value.items?).getD [] := by
    rw [layoutRows, hkey, Option.bind_some]
  rw [selectLayout, hon, if_pos (by simpa using htruthy), hselected]
  show Except.ok (some (ItemLayout.mk layout (layoutRows index layout row))) = _
  rw [hstored]

/-- A row that is switched on and has a choice that stands for a layout selects it. -/
theorem selectLayout_eq {index : FlatIndex} {row : List (String × Value)} {on : Value}
    {choice layout collection : String} {rows : List Value}
    (hon : controlValue? index "enabled" row = some on) (htruthy : truthy on = true)
    (hchoice : controlValue? index "layout" row = some (.string choice)) (hne : choice ≠ "")
    (hlayout : index.layoutByChoice choice = some layout)
    (hkey : index.layoutKey layout = some collection)
    (hrows : Entries.get? collection row = some (.array rows)) :
    selectLayout index row = .ok (some ⟨layout, rows⟩) := by
  have hpicked : layoutChoice? index row = some choice := by
    simp [layoutChoice?, hchoice, Value.string?, hne]
  have hselected : selectedLayout index row = .ok layout := by
    rw [selectedLayout, hpicked]
    dsimp only
    rw [hlayout]
  rw [selectLayout_of_selected hon htruthy hselected hkey, hrows]
  rfl

/-- The layout that an editor picks is the one that is selected, as long as its choice is not the
bare name of a layout. Every layout has its collection in the tree, and the select offers it under
the name of the collection; a row that is switched on, holds that choice and has rows for the
collection selects the layout with those rows. -/
theorem picked_layout_selected {definitions : Definitions} {resources : Resources} {now : Instant}
    (hbuilt : Gives (Registry.build definitions resources) registry)
    (hcompiled : Gives (compile registry now) schema) {l : Entity}
    (hl : registry.layout? l.name = some l)
    (hfree : registry.layout? (Compile.layoutSlug registry l) = none) :
    .field (Compile.enabledField registry) ∈ schema.group.nodes ∧
      .field (Compile.selectField registry) ∈ schema.group.nodes ∧
      (∃ path node, .layout path l node ∈ schema.group.positions registry) ∧
      ∃ choices, (Compile.selectField registry).options.get? "choices" = some (.ofDict choices) ∧
        ∀ path node, .layout path l node ∈ schema.group.positions registry →
          choices.get? node.name = some (.string l.label) ∧
          ∀ row on rows,
            Entries.get? (Compile.enabledField registry).key row = some on → truthy on = true →
            Entries.get? (Compile.selectField registry).key row = some (.string node.name) →
            Entries.get? node.key row = some (.array rows) →
            selectLayout schema.index row = .ok (some ⟨l.name, rows⟩) := by
  have h := compile_follows hbuilt hcompiled
  have hgrown := compile_grown hbuilt hcompiled
  obtain ⟨henabled, hselect⟩ := compile_controlKey hbuilt hcompiled
  obtain ⟨hswitch, hmenu⟩ := compile_control_nodes hcompiled
  refine ⟨hswitch, hmenu, compile_layouts hcompiled hl, _, Compile.selectField_choices,
    fun path node hp => ?_⟩
  obtain ⟨-, hname⟩ := h.layout_registered hp
  have hbyChoice : schema.index.layoutByChoice node.name = some l.name :=
    h.layoutByChoice_slug hgrown hp (hname ▸ hfree)
  refine ⟨hname ▸ Compile.choices_get? h.registered hl,
    fun row on rows hon htruthy hchoice hrows => ?_⟩
  refine selectLayout_eq ?_ htruthy ?_ (hname ▸ Compile.layoutSlug_ne_empty l) hbyChoice
    ((h.layoutKey_iff hgrown).mpr ⟨path, l, node, hp, rfl, rfl⟩) hrows
  · rw [controlValue?, henabled]
    exact hon
  · rw [controlValue?, hselect]
    exact hchoice

/-- A row that picks the page by its choice. -/
def pageRow : List (String × Value) :=
  [("field_06977071e830c860b0556dcf21cb84a4", .array [.string "first"]),
    ("field_b9bacbda2da2fe4a0d73eba4909ea5ce", .string "1"),
    ("field_d2b6fa5e20fb0bf40492a5ef5adfac66", .string "builder_page")]

theorem page_selected :
    selectLayout cardSchema.index pageRow = .ok (some ⟨"page", [.string "first"]⟩) := by
  have hfound : ((cardSchema.group.positions cardRegistry).any fun p =>
      match p with
      | .layout _ l node => l.name == "page" && node.name == "builder_page" &&
          node.key == "field_06977071e830c860b0556dcf21cb84a4" &&
          (cardRegistry.layout? (Compile.layoutSlug cardRegistry l)).isNone
      | _ => false) = true ∧
      (Compile.enabledField cardRegistry).key = "field_b9bacbda2da2fe4a0d73eba4909ea5ce" ∧
      (Compile.selectField cardRegistry).key = "field_d2b6fa5e20fb0bf40492a5ef5adfac66" := by
    decide +kernel
  obtain ⟨hany, henabled, hselect⟩ := hfound
  obtain ⟨p, hp, hpage⟩ := List.any_eq_true.mp hany
  cases p with
  | layout path l node =>
    simp only [Bool.and_eq_true, beq_iff_eq, Option.isNone_iff_eq_none] at hpage
    obtain ⟨⟨⟨hl, hname⟩, hkey⟩, hfree⟩ := hpage
    obtain ⟨hregistered, -⟩ :=
      (compile_follows cards_built cards_compiled).layout_registered hp
    obtain ⟨-, -, -, choices, -, hlayout⟩ :=
      picked_layout_selected cards_built cards_compiled hregistered hfree
    obtain ⟨-, hrow⟩ := hlayout path node hp
    rw [← hl]
    refine hrow pageRow (.string "1") _ ?_ (by decide) ?_ ?_
    · rw [henabled]
      rfl
    · rw [hselect, hname]
      rfl
    · rw [hkey]
      rfl
  | control => cases hpage
  | variant => cases hpage
  | tab => cases hpage
  | field => cases hpage

/-- Two layouts, one with the name of the choice of the other. -/
def twinDefinitions : Definitions :=
  { settings := { coreFields := false }
    layouts := .ofList [("home", {}), ("builder_home", {})] }

def twinRegistry : Registry := (Registry.build twinDefinitions .empty).result

def twinSchema : CompiledSchema := (compile twinRegistry default).result

/-- A row that picks the home layout by its choice, with rows for it. -/
def twinRow : List (String × Value) :=
  [("field_9aa0855b1968f96216a5558257131388", .array [.string "first"]),
    ("field_b9bacbda2da2fe4a0d73eba4909ea5ce", .string "1"),
    ("field_d2b6fa5e20fb0bf40492a5ef5adfac66", .string "builder_home")]

/-- The choice that the select offers for one of the twins selects the other, without the rows. -/
theorem twin_layout_selected :
    Gives (Registry.build twinDefinitions .empty) twinRegistry ∧
      Gives (compile twinRegistry default) twinSchema ∧
      ((twinRegistry.layout? "home").map (Compile.layoutSlug twinRegistry)) = some "builder_home" ∧
      (((Compile.choices twinRegistry).get? "builder_home").bind Value.string?) = some "Home" ∧
      twinSchema.index.controlKey "enabled" = some "field_b9bacbda2da2fe4a0d73eba4909ea5ce" ∧
      twinSchema.index.controlKey "layout" = some "field_d2b6fa5e20fb0bf40492a5ef5adfac66" ∧
      twinSchema.index.layoutKey "home" = some "field_9aa0855b1968f96216a5558257131388" ∧
      (match selectLayout twinSchema.index twinRow with
        | .ok (some found) => found.layout == "builder_home" && found.rows.isEmpty
        | _ => false) = true :=
  ⟨gives_result (by decide +kernel), gives_result (by decide +kernel), by decide +kernel⟩

end PageBlocks
