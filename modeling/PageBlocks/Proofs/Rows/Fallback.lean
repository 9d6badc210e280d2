import PageBlocks.Proofs.Rows.Selected

/-!
# The layout that no choice stands for

A select without a choice means a layout nevertheless. The compiled select says
which one an editor is shown, by its default; the reader of a row goes by the
index. The default is the least of the choices and the reader takes the least of
the names, two dictionaries that are filled apart from one another. They agree
because both hold exactly the registered layouts (`compile_layoutNames`) and because
names behind one prefix stand in the order of the names (`choices_keys`).

> `default_layout_selected`: the default of the select is the collection of the
> layout that a row without a choice selects.
-/

namespace PageBlocks

open Attempt

variable {registry : Registry} {schema : CompiledSchema}

/-! ## The same order twice -/

/-- Texts behind one prefix stand in their own order. -/
theorem append_lt_append_left {front a b : String} (h : a < b) : front ++ a < front ++ b := by
  rw [String.lt_iff] at h ⊢
  rw [String.toList_append, String.toList_append]
  exact List.append_left_lt h

namespace Compile

/-- The choices are the names of the layouts behind that of the builder, in the same order. -/
theorem choices_keys (hr : registry.Sound) :
    (choices registry).keys =
      registry.layouts.keys.map fun name => registry.settings.name ++ "_" ++ name := by
  have hpairs : registry.layouts.values.map (fun l => (layoutSlug registry l, Value.string l.label))
      = registry.layouts.entries.map fun e =>
          (registry.settings.name ++ "_" ++ e.1, Value.string e.2.label) := by
    unfold Dict.values
    rw [List.map_map]
    refine List.map_congr_left fun e he => ?_
    obtain ⟨hname, -⟩ := hr.layout (Dict.mem_entries_iff.mp he)
    show (layoutSlug registry e.2, _) = _
    rw [layoutSlug, hname]
  have hsorted : Entries.Sorted (registry.layouts.entries.map fun e =>
      (registry.settings.name ++ "_" ++ e.1, Value.string e.2.label)) :=
    List.pairwise_map.mpr (registry.layouts.sorted.imp append_lt_append_left)
  show (Entries.ofList _).map (·.1) = _
  rw [hpairs, Entries.ofList_of_sorted hsorted, List.map_map]
  unfold Dict.keys
  rw [List.map_map]
  rfl

end Compile

/-- The index names exactly the registered layouts. -/
theorem compile_layoutNames {definitions : Definitions} {resources : Resources} {now : Instant}
    (hbuilt : Gives (Registry.build definitions resources) registry)
    (hcompiled : Gives (compile registry now) schema) :
    schema.index.layoutNames = registry.layouts.keys := by
  have h := compile_follows hbuilt hcompiled
  have hgrown := compile_grown hbuilt hcompiled
  refine Dict.keys_eq fun name => ?_
  rw [Bool.eq_iff_iff, Option.isSome_iff_exists, Option.isSome_iff_exists]
  constructor
  · rintro ⟨id, hid⟩
    obtain ⟨path, l, node, hp, rfl, -⟩ := (h.layoutKey_iff hgrown).mp hid
    exact ⟨l, (h.layout_registered hp).1⟩
  · rintro ⟨l, hl⟩
    obtain ⟨rfl, -⟩ := h.registered.layout hl
    obtain ⟨path, node, hp⟩ := compile_layouts hcompiled hl
    exact ⟨node.key, (h.layoutKey_iff hgrown).mpr ⟨path, l, node, hp, rfl, rfl⟩⟩

/-! ## Without a choice -/

/-- A row that is switched on and makes no choice selects the first layout of the index. -/
theorem selectLayout_first {index : FlatIndex} {row : List (String × Value)} {on : Value}
    {layout collection : String} (hon : controlValue? index "enabled" row = some on)
    (htruthy : truthy on = true)
    (hchoice : ∀ choice, controlValue? index "layout" row = some (.string choice) → choice = "")
    (hfirst : index.layoutNames.head? = some layout)
    (hkey : index.layoutKey layout = some collection) :
    selectLayout index row =
      .ok (some ⟨layout, ((Entries.get? collection row).bind Value.items?).getD []⟩) := by
  have hnone : layoutChoice? index row = none := by
    unfold layoutChoice?
    rw [Option.filter_eq_none_iff]
    intro choice hfound
    obtain ⟨v, hv, hstring⟩ := Option.bind_eq_some_iff.mp hfound
    cases v with
    | string text =>
      obtain rfl := Option.some.inj hstring
      simp [hchoice text hv]
    | null => cases hstring
    | bool => cases hstring
    | int => cases hstring
    | float => cases hstring
    | array => cases hstring
    | object => cases hstring
  have hselected : selectedLayout index row = .ok layout := by
    rw [selectedLayout, hnone]
    dsimp only
    rw [hfirst]
  exact selectLayout_of_selected hon htruthy hselected hkey

/-- The default of the layout select is what a row without a choice selects. Of a registry with a
layout there is one collection in the tree whose name is the default, and every row that is
switched on and whose select is missing, empty or no text selects the layout of that collection,
with the rows stored for it. -/
theorem default_layout_selected {definitions : Definitions} {resources : Resources}
    {now : Instant} (hbuilt : Gives (Registry.build definitions resources) registry)
    (hcompiled : Gives (compile registry now) schema) (hsome : registry.layouts.isEmpty = false) :
    .field (Compile.enabledField registry) ∈ schema.group.nodes ∧
      .field (Compile.selectField registry) ∈ schema.group.nodes ∧
      ∃ path l node, .layout path l node ∈ schema.group.positions registry ∧
        (Compile.selectField registry).options.get? "default_value" = some (.string node.name) ∧
        ∀ row on,
          Entries.get? (Compile.enabledField registry).key row = some on → truthy on = true →
          (∀ choice, Entries.get? (Compile.selectField registry).key row =
            some (.string choice) → choice = "") →
          selectLayout schema.index row = .ok (some
            ⟨l.name, ((Entries.get? node.key row).bind Value.items?).getD []⟩) := by
  have h := compile_follows hbuilt hcompiled
  have hgrown := compile_grown hbuilt hcompiled
  obtain ⟨hswitch, hmenu⟩ := compile_control_nodes hcompiled
  obtain ⟨henabled, hselect⟩ := compile_controlKey hbuilt hcompiled
  have hnames := compile_layoutNames hbuilt hcompiled
  obtain ⟨name, names, hfirst⟩ : ∃ name names, registry.layouts.keys = name :: names := by
    refine List.exists_cons_of_ne_nil fun hnil => ?_
    rw [Dict.isEmpty, List.map_eq_nil_iff.mp hnil] at hsome
    cases hsome
  obtain ⟨l, hl⟩ := Option.isSome_iff_exists.mp
    (Dict.mem_keys_iff.mp (hfirst ▸ List.mem_cons_self .. : name ∈ registry.layouts.keys))
  obtain ⟨rfl, -⟩ := h.registered.layout hl
  obtain ⟨path, node, hp⟩ := compile_layouts hcompiled hl
  obtain ⟨-, hname⟩ := h.layout_registered hp
  refine ⟨hswitch, hmenu, path, l, node, hp, ?_, fun row on hon htruthy hchoice => ?_⟩
  · show Dict.get? (Dict.insert _ _ _) _ = _
    rw [Dict.get?_insert, if_pos rfl, Compile.choices_keys h.registered, hfirst, hname]
    rfl
  · refine selectLayout_first ?_ htruthy ?_ (by rw [hnames, hfirst]; rfl)
      ((h.layoutKey_iff hgrown).mpr ⟨path, l, node, hp, rfl, rfl⟩)
    · rw [controlValue?, henabled]
      exact hon
    · rw [controlValue?, hselect]
      exact hchoice

/-- A row of the twins that is switched on, has an empty select and rows for the first of them. -/
def idleRow : List (String × Value) :=
  [("field_20e7c8f88073277583056d44a11dc790", .array [.string "first"]),
    ("field_b9bacbda2da2fe4a0d73eba4909ea5ce", .string "1"),
    ("field_d2b6fa5e20fb0bf40492a5ef5adfac66", .string "")]

/-- Without a choice the first of the twins is selected, and the default of the select is the name
of its collection. -/
theorem idle_layout_selected :
    ∃ path l node, .layout path l node ∈ twinSchema.group.positions twinRegistry ∧
      node.name = "builder_builder_home" ∧ l.name = "builder_home" ∧
      (Compile.selectField twinRegistry).options.get? "default_value" =
        some (.string node.name) ∧
      selectLayout twinSchema.index idleRow = .ok (some
        ⟨l.name, ((Entries.get? node.key idleRow).bind Value.items?).getD []⟩) := by
  have hbuilt : Gives (Registry.build twinDefinitions .empty) twinRegistry :=
    gives_result (by decide +kernel)
  have hcompiled : Gives (compile twinRegistry default) twinSchema :=
    gives_result (by decide +kernel)
  have hevaluated :
      (Compile.enabledField twinRegistry).key = "field_b9bacbda2da2fe4a0d73eba4909ea5ce" ∧
      (Compile.selectField twinRegistry).key = "field_d2b6fa5e20fb0bf40492a5ef5adfac66" ∧
      ((Compile.selectField twinRegistry).options.get? "default_value").bind Value.string? =
        some "builder_builder_home" ∧
      (selectLayout twinSchema.index idleRow).toOption.join.map (·.layout) =
        some "builder_home" := by
    decide +kernel
  obtain ⟨henabled, hselect, hdefault, hpicked⟩ := hevaluated
  obtain ⟨-, -, path, l, node, hp, hname, hrow⟩ :=
    default_layout_selected hbuilt hcompiled (by decide +kernel)
  rw [hname] at hdefault
  have hselected := hrow idleRow (.string "1") (by rw [henabled]; rfl) (by decide) (by
    intro choice hchoice
    rw [hselect] at hchoice
    cases hchoice
    rfl)
  rw [hselected] at hpicked
  exact ⟨path, l, node, hp, Option.some.inj hdefault, Option.some.inj hpicked, hname, hselected⟩

end PageBlocks
