import PageBlocks.Proofs.Rows.Restored

/-!
# The way back

Stored rows that are read into blocks and written back are the same rows. The
steps that lose something on the way (switches, numbers, expanded references,
names in place of ids) are undone by the stored forms in the envelopes. The
proof follows the rows down: every value, row and member is the same again if
those inside it are.

> `flattenLayout_rehydrateLayout`: for every compiled schema, every layout,
> every resolver and all rows that can be stored.

Rows are compared as values are: the two float zeros are equal.
-/

namespace PageBlocks

open Attempt

namespace Rehydrate

variable {index : FlatIndex} {resolver : Resolver}

mutual
/-- The value of a field is written back as it was. -/
theorem value_restored (hindex : index.Coherent) (hresolver : resolver.WellFormed) :
    ∀ (v : Value) {m : BlockMeta} {stored : Dict StoredValue} {trail : String}
      {entry : IndexEntry} {kind : FieldKind}, index.lookup entry.key = some entry →
      entry.node = .field kind → v.WellFormed → Storable.value index entry v →
      Agrees stored (fieldPath entry.group trail)
        (records index resolver entry.group trail entry v) →
      Value.same (Flatten.value index stored entry.group trail entry
        (value index resolver m trail entry v)) v = true
  | .array items, m, stored, trail, entry, kind, hentry, hnode, hwell, hstorable, h => by
    rw [Storable.value] at hstorable
    rw [records] at h
    rw [value]
    cases hshape : entry.node.shape with
    | collection =>
      rw [hshape] at hstorable
      dsimp only at hstorable ⊢
      rw [Storable.collection] at hstorable
      rw [Flatten.value, hshape]
      have hbound : 0 + items.length ≤ 18446744073709551616 := by
        rw [Nat.zero_add]
        exact hstorable.1
      exact variants_restored hindex hresolver items hbound hwell hstorable.2
    | rows =>
      rw [hshape] at hstorable h
      dsimp only at hstorable h ⊢
      rw [Flatten.value, hshape]
      exact rows_restored hindex hresolver items hentry (NodeType.shape_rows hshape) hwell
        hstorable fun p hp => agrees_rowObject h hp
    -- An array where an object is expected is kept on both ways.
    | fields =>
      dsimp only
      rw [Flatten.value, hshape]
      exact Value.same_self _
    | leaf kind' =>
      rw [hshape] at h
      dsimp only at h ⊢
      rw [flatten_value_leaf hshape, NodeType.shape_leaf hshape]
      exact leaf_restored (fun _ _ => nofun) h
    | bare => rw [NodeType.shape_bare hshape] at hnode; cases hnode
  | .object members, m, stored, trail, entry, kind, hentry, hnode, hwell, hstorable, h => by
    rw [Storable.value] at hstorable
    rw [records] at h
    rw [value]
    cases hshape : entry.node.shape with
    | collection =>
      dsimp only
      rw [Flatten.value, hshape]
      exact Value.same_self _
    | rows =>
      dsimp only
      rw [Flatten.value, hshape]
      exact Value.same_self _
    | fields =>
      rw [hshape] at hstorable h
      dsimp only at hstorable h ⊢
      have hgroup : entry.node = .field .group := NodeType.shape_fields hshape
      rw [Flatten.value, hshape]
      dsimp only
      rw [object_restored hindex hentry hgroup rfl hwell.1 (childKey_none hstorable)]
      exact Value.sameMembers_map (fields_restored hindex hresolver members hentry hgroup rfl
        hwell.2 hstorable fun p hp =>
          agrees_subField hindex hentry hgroup rfl hwell.1.nodup_keys h hp)
    | leaf kind' =>
      rw [hshape] at h
      dsimp only at h ⊢
      rw [flatten_value_leaf hshape, NodeType.shape_leaf hshape]
      exact leaf_restored (fun _ _ => nofun) h
    | bare => rw [NodeType.shape_bare hshape] at hnode; cases hnode
  | .bool b, m, stored, trail, entry, kind, hentry, hnode, hwell, hstorable, h => by
    rw [Storable.value] at hstorable
    -- A boolean may be stored anywhere but for a switch, which would read it as its own value.
    refine scalar_restored hnode (fun hkind => ?_) nofun nofun h
    rw [hkind] at hnode
    exact absurd hnode hstorable
  | .null, m, stored, trail, entry, kind, hentry, hnode, hwell, hstorable, h
  | .int _, m, stored, trail, entry, kind, hentry, hnode, hwell, hstorable, h
  | .float _, m, stored, trail, entry, kind, hentry, hnode, hwell, hstorable, h
  | .string _, m, stored, trail, entry, kind, hentry, hnode, hwell, hstorable, h =>
    scalar_restored hnode (fun _ _ => nofun) nofun nofun h

/-- The rows of a repeater are written back as they were. -/
theorem rows_restored (hindex : index.Coherent) (hresolver : resolver.WellFormed) :
    ∀ (items : List Value) {m : BlockMeta} {stored : Dict StoredValue} {trail : String}
      {entry : IndexEntry} {position : Nat}, index.lookup entry.key = some entry →
      entry.node = .field .repeater → Value.WellFormedItems items →
      Storable.rows index entry items →
      (∀ p ∈ rowObjects position items,
        Agrees stored (fieldPath entry.group (rowTrail trail p.1))
          (fieldRecords index resolver entry.group (rowTrail trail p.1) entry p.2)) →
      Value.sameItems (Flatten.rows index stored entry.group trail entry position
        (rows index resolver m trail entry position items)) items = true
  | [], m, stored, trail, entry, position, _, _, _, _, _ => by
    rw [rows, Flatten.rows]
    rfl
  | .object members :: rest, m, stored, trail, entry, position, hentry, hnode, hwell, hstorable,
      h => by
    rw [Storable.rows] at hstorable
    obtain ⟨⟨hsorted, hmembers⟩, hrest⟩ := hwell
    have hfirst := h (position, members) (List.mem_cons_self ..)
    have hobject := fields_restored hindex hresolver members (m := m) hentry hnode rfl hmembers
      hstorable.1 fun p hp =>
        agrees_subField hindex hentry hnode rfl hsorted.nodup_keys hfirst hp
    have hothers := rows_restored hindex hresolver rest (m := m) hentry hnode hrest hstorable.2
      fun p hp => h p (List.mem_cons_of_mem _ hp)
    rw [rows, Flatten.rows,
      object_restored hindex hentry hnode rfl hsorted (childKey_none hstorable.1),
      Value.sameItems, hothers, Bool.and_true]
    exact Value.sameMembers_map hobject
  | .null :: rest, m, stored, trail, entry, position, hentry, hnode, hwell, hstorable, h
  | .bool _ :: rest, m, stored, trail, entry, position, hentry, hnode, hwell, hstorable, h
  | .int _ :: rest, m, stored, trail, entry, position, hentry, hnode, hwell, hstorable, h
  | .float _ :: rest, m, stored, trail, entry, position, hentry, hnode, hwell, hstorable, h
  | .string _ :: rest, m, stored, trail, entry, position, hentry, hnode, hwell, hstorable, h
  | .array _ :: rest, m, stored, trail, entry, position, hentry, hnode, hwell, hstorable, h => by
    unfold Storable.rows at hstorable
    have hothers := rows_restored hindex hresolver rest (m := m) hentry hnode hwell.2 hstorable h
    unfold rows Flatten.rows
    rw [Value.sameItems, Value.same_self, Bool.true_and]
    exact hothers

/-- The sub-fields of an object are written back as they were. -/
theorem fields_restored (hindex : index.Coherent) (hresolver : resolver.WellFormed) :
    ∀ (members : List (String × Value)) {m : BlockMeta} {stored : Dict StoredValue}
      {trail : String} {parent : IndexEntry} {kind : FieldKind},
      index.lookup parent.key = some parent → parent.node = .field kind →
      kind.hasSubFields = true → Value.WellFormedMembers members →
      Storable.fields index parent members →
      (∀ p ∈ subFields index parent.key members,
        Agrees stored (fieldPath parent.group (subTrail trail p.1.name))
          (records index resolver parent.group (subTrail trail p.1.name) p.1 p.2)) →
      ∀ e ∈ members,
        Value.same (restoredField index resolver m stored trail parent e) e.2 = true
  | [], _, _, _, _, _, _, _, _, _, _, _, e, he => absurd he List.not_mem_nil
  | (id, raw) :: rest, m, stored, trail, parent, kind, hparent, hnode, hkind, hwell, hstorable, h,
      e, he => by
    rw [Storable.fields] at hstorable
    have hsubs : subFields index parent.key ((id, raw) :: rest) =
        (match index.childEntry? parent.key id with
          | some entry => [(entry, raw)]
          | none => []) ++ subFields index parent.key rest := by
      rw [subFields, subFields, List.filterMap_cons]
      cases index.childEntry? parent.key id <;> rfl
    rw [hsubs] at h
    rcases List.mem_cons.mp he with rfl | he
    · unfold restoredField
      cases hc : index.childEntry? parent.key id with
      | none => exact Value.same_self raw
      | some c =>
        rw [hc] at hstorable h
        obtain ⟨hid, hbelow⟩ := FlatIndex.childEntry?_iff.mp hc
        obtain ⟨hgroup, ⟨kind', hnode'⟩, -⟩ := hindex.below_row hparent hnode hkind hid hbelow
        have hlookup : index.lookup c.key = some c := hindex.lookup_key hid
        have hfirst := h (c, raw) (List.mem_append_left _ (List.mem_singleton.mpr rfl))
        dsimp only at hfirst ⊢
        -- The records are filed under the group of the object, which the sub-field shares.
        rw [← hgroup] at hfirst ⊢
        exact value_restored hindex hresolver raw hlookup hnode' hwell.1 hstorable.2.1 hfirst
    · exact fields_restored hindex hresolver rest hparent hnode hkind hwell.2 hstorable.2.2
        (fun p hp => h p (List.mem_append_right _ hp)) e he

/-- The rows of a collection are written back as they were. -/
theorem variants_restored (hindex : index.Coherent) (hresolver : resolver.WellFormed) :
    ∀ (items : List Value) {layout parent collection : String} {position : Nat},
      position + items.length ≤ 18446744073709551616 → Value.WellFormedItems items →
      Storable.variants index collection items →
      Value.sameItems (Flatten.blocks index
        (variantRows index resolver layout parent collection position items)) items = true
  | [], _, _, _, _, _, _, _ => by
    rw [variantRows, Flatten.blocks]
    rfl
  | v :: rest, layout, parent, collection, position, hbound, hwell, hstorable => by
    rw [Storable.variants] at hstorable
    rw [List.length_cons] at hbound
    have hfirst : position < 18446744073709551616 := by omega
    have hothers : position + 1 + rest.length ≤ 18446744073709551616 := by omega
    rw [variantRows, Flatten.blocks, Value.sameItems,
      variant_restored hindex hresolver v hfirst hwell.1 hstorable.1,
      variants_restored hindex hresolver rest hothers hwell.2 hstorable.2]
    rfl

/-- A row of a collection is written back as it was. -/
theorem variant_restored (hindex : index.Coherent) (hresolver : resolver.WellFormed) :
    ∀ (v : Value) {layout parent collection : String} {position : Nat},
      position < 18446744073709551616 → v.WellFormed → Storable.variant index collection v →
      Value.same (Flatten.block index
        (variantRow index resolver layout parent collection position v)) v = true
  | .object members, layout, parent, collection, position, hposition, hwell, hstorable => by
    rw [Storable.variant] at hstorable
    obtain ⟨hmeta, hstorable⟩ := hstorable
    obtain ⟨hsorted, hmembers⟩ := hwell
    rw [variantRow]
    cases hvariant : variant? index collection members with
    | none =>
      -- A row of no known variant is kept as it is, and has no envelope to be taken for a block.
      have hnone : BlockMeta.ofMembers? members = none := by
        unfold BlockMeta.ofMembers?
        rw [Entries.get?_eq_none_iff.mpr hmeta]
        rfl
      dsimp only
      rw [Flatten.block, hnone]
      exact Value.same_self _
    | some found =>
      obtain ⟨tag, entry⟩ := found
      rw [hvariant] at hstorable
      obtain ⟨htag, hnamed, hlookup, hnode⟩ := variant?_named hindex hvariant
      have hback := row_restored (m := metaAt layout parent position tag entry) hindex hresolver
        hlookup hnode hsorted hmembers hstorable hmeta htag hnamed hposition
      refine (congrArg (fun w => Value.same w _) hback).trans ?_
      exact Value.sameMembers_map (block_restored hindex hresolver members hlookup hnode hmembers
        hstorable fun p hp => agrees_rowField hindex hlookup hnode hsorted.nodup_keys hp)
  | .null, _, _, _, _, _, _, _ | .bool _, _, _, _, _, _, _, _ | .int _, _, _, _, _, _, _, _
  | .float _, _, _, _, _, _, _, _ | .string _, _, _, _, _, _, _, _
  | .array _, _, _, _, _, _, _, _ => by
    unfold variantRow Flatten.block
    exact Value.same_self _

/-- The members of a row of a variant are written back as they were. -/
theorem block_restored (hindex : index.Coherent) (hresolver : resolver.WellFormed) :
    ∀ (members : List (String × Value)) {m : BlockMeta} {stored : Dict StoredValue}
      {variant : IndexEntry}, index.lookup m.key = some variant → variant.node = .block →
      Value.WellFormedMembers members → Storable.block index m.key members →
      (∀ p ∈ rowFields index m.key members,
        Agrees stored (fieldPath p.1.group p.1.name)
          (records index resolver p.1.group p.1.name p.1 p.2)) →
      ∀ e ∈ members, Value.same (restored index resolver m stored e) e.2 = true
  | [], _, _, _, _, _, _, _, _, e, he => absurd he List.not_mem_nil
  | (id, raw) :: rest, m, stored, variant, hvariant, hnode, hwell, hstorable, h, e, he => by
    rw [Storable.block] at hstorable
    rcases List.mem_cons.mp he with rfl | he
    · unfold restored
      cases hm : member index m.key id with
      | field c =>
        rw [hm] at hstorable
        obtain ⟨hid, hbelow⟩ := FlatIndex.childEntry?_iff.mp (member_field hm)
        obtain ⟨-, ⟨kind, hnode'⟩, -⟩ := hindex.below_variant hvariant hnode hid hbelow
        have hlookup : index.lookup c.key = some c := hindex.lookup_key hid
        have hfirst := h (c, raw)
          (List.mem_filterMap.mpr
            ⟨(id, raw), List.mem_cons_self .., rowField?_eq_some.mpr ⟨hm, rfl⟩⟩)
        exact value_restored hindex hresolver raw hlookup hnode' hwell.1 hstorable.1 hfirst
      | _ => exact Value.same_self raw
    · refine block_restored hindex hresolver rest hvariant hnode hwell.2 hstorable.2
        (fun p hp => h p ?_) e he
      obtain ⟨e', he', hp'⟩ := List.mem_filterMap.mp hp
      exact List.mem_filterMap.mpr ⟨e', List.mem_cons_of_mem _ he', hp'⟩
end

/-- Rows without envelopes are written back as they are. -/
theorem blocks_unread : ∀ {items : List Value}, (∀ v ∈ items, NoEnvelope v) →
    Flatten.blocks index items = items
  | [], _ => by rw [Flatten.blocks]
  | v :: rest, h => by
    have hfirst : NoEnvelope v := h v (List.mem_cons_self ..)
    rw [Flatten.blocks, blocks_unread fun w hw => h w (List.mem_cons_of_mem _ hw)]
    cases v with
    | object members =>
      rw [Flatten.block, BlockMeta.ofMembers?_eq_none hfirst]
    | _ => rw [Flatten.block]; exact nofun

end Rehydrate

/-- Rows that can be stored are the same rows after they were read into blocks and written back,
for every compiled schema and every layout. -/
theorem flattenLayout_rehydrateLayout {definitions : Definitions} {resources : Resources}
    {registry : Registry} {now : Instant} {schema : CompiledSchema} {resolver : Resolver}
    {layout : String} {rows : List Value}
    (hbuilt : Gives (Registry.build definitions resources) registry)
    (hcompiled : Gives (compile registry now) schema) (hresolver : resolver.WellFormed)
    (hwell : Value.WellFormedItems rows) (hstorable : Storable.layout schema.index layout rows) :
    ((flattenLayout schema.index
      (rehydrateLayout schema.index resolver layout rows).value).value == rows) = true := by
  have hindex : schema.index.Coherent := (compile_follows hbuilt hcompiled).coherent
  rw [Value.beq_eq_sameItems]
  show Value.sameItems (Flatten.blocks schema.index
    (Rehydrate.layout schema.index resolver layout rows)) rows = true
  unfold Storable.layout at hstorable
  unfold Rehydrate.layout
  cases hkey : schema.index.layoutKey layout with
  | none =>
    rw [hkey] at hstorable
    dsimp only at hstorable ⊢
    rw [Rehydrate.blocks_unread hstorable]
    exact Value.sameItems_self rows
  | some collection =>
    rw [hkey] at hstorable
    dsimp only at hstorable
    rw [Storable.collection] at hstorable
    have hbound : 0 + rows.length ≤ 18446744073709551616 := by
      rw [Nat.zero_add]
      exact hstorable.1
    exact Rehydrate.variants_restored hindex hresolver rows hbound hwell hstorable.2

/-- A box with a title, a row of an unknown variant, and what no field accounts for. -/
def boxRows : List Value :=
  [.object [("acf_fc_layout", .string "box"),
    ("field_1a94a039a4de91fd59f18937116e32e9", .string "A"),
    ("field_67c14fcd7f7ea0fe050797ac194ebef8",
      .array [.object [("acf_fc_layout", .string "box")], .string "kept"]),
    ("note", .int 1)]]

theorem boxes_restored :
    ((flattenLayout boxSchema.index
      (rehydrateLayout boxSchema.index .none "page" boxRows).value).value == boxRows) = true :=
  flattenLayout_rehydrateLayout boxes_built boxes_compiled
    (fun _ _ _ h => h.elim nofun nofun)
    ⟨⟨by decide, trivial, trivial, ⟨⟨by decide, trivial, trivial⟩, trivial, trivial⟩, trivial,
      trivial⟩, trivial⟩
    (by decide +kernel)

end PageBlocks
