import PageBlocks.Proofs.Rows.Found
import PageBlocks.Proofs.Tree.Layouts
import PageBlocks.Proofs.Tree.Variants

/-!
# Every block knows where it sits

A page is a collection of blocks, and the blocks hold further collections, in
their fields, in the rows of repeaters and in groups of fields. `InLayout` walks
over the stored rows of a layout and names every collection that reading comes
to, at any depth: where it stands, the parent that its blocks are to tell, what
is stored in it and what that is read as.

> `blocks_seated`: a collection is read row by row, in order; a row that names a
> variant becomes a block that tells the layout, the variant, the tag, its own
> position and its parent, and any other row stays as it is.

What a place holds is followed from a block to the collections in it
(`InField.held`). That needs clear rows, since members that clash may push a
field out of its place.
-/

namespace PageBlocks

open Attempt

theorem Value.at?_append (v : Value) (path rest : List PathStep) :
    v.at? (path ++ rest) = (v.at? path).bind fun inner => inner.at? rest := by
  induction path generalizing v with
  | nil => rfl
  | cons step path ih =>
    cases step with
    | member key =>
      rw [List.cons_append, Value.at?, Value.at?]
      cases v.get? key with
      | none => rfl
      | some inner => exact ih inner
    | position n =>
      rw [List.cons_append, Value.at?, Value.at?]
      cases v.items?.bind fun items => items[n]? with
      | none => rfl
      | some inner => exact ih inner

/-- A collection with what it was read as. -/
structure ReadCollection where
  /-- The path to it from the blocks of the layout. -/
  place : List PathStep
  id : String
  /-- What its blocks tell as their parent. -/
  parent : String
  stored : List Value
  read : List Value

namespace Rehydrate

section Walk

variable (index : FlatIndex) (resolver : Resolver)

/-- A collection in the value of a field, which stands at a trail in a block and at a place in the
layout. -/
inductive InField (m : BlockMeta) :
    String → List PathStep → IndexEntry → Value → ReadCollection → Prop
  | collection {trail : String} {place : List PathStep} {entry : IndexEntry}
      {items read : List Value} (hshape : entry.node.shape = .collection)
      (hread : value index resolver m trail entry (.array items) = .array read) :
      InField m trail place entry (.array items)
        { place := place
          id := entry.key
          parent := m.parent ++ "/" ++ toString m.index ++ ":" ++ m.block ++ "/" ++ trail
          stored := items
          read := read }
  | row {trail : String} {place : List PathStep} {entry sub : IndexEntry} {items : List Value}
      {position : Nat} {members : List (String × Value)} {id : String} {raw : Value}
      {c : ReadCollection} (hshape : entry.node.shape = .rows)
      (hrow : items[position]? = some (.object members)) (hmember : (id, raw) ∈ members)
      (hsub : index.childEntry? entry.key id = some sub)
      (h : InField m (trail ++ "." ++ toString position ++ "." ++ sub.name)
        (place ++ [.position position, .member sub.name]) sub raw c) :
      InField m trail place entry (.array items) c
  | group {trail : String} {place : List PathStep} {entry sub : IndexEntry}
      {members : List (String × Value)} {id : String} {raw : Value} {c : ReadCollection}
      (hshape : entry.node.shape = .fields) (hmember : (id, raw) ∈ members)
      (hsub : index.childEntry? entry.key id = some sub)
      (h : InField m (trail ++ "." ++ sub.name) (place ++ [.member sub.name]) sub raw c) :
      InField m trail place entry (.object members) c

/-- A collection of a layout: that of its own blocks, or one in a field of a block that stands in a
collection of the layout. -/
inductive InLayout (layout : String) (rows : List Value) : ReadCollection → Prop
  | top {id : String} (hlayout : index.layoutKey layout = some id) :
      InLayout layout rows
        { place := []
          id := id
          parent := layout
          stored := rows
          read := (rehydrateLayout index resolver layout rows).value }
  | nested {around c : ReadCollection} {position : Nat} {members : List (String × Value)}
      {tag id : String} {variant entry : IndexEntry} {raw : Value}
      (haround : InLayout layout rows around)
      (hrow : around.stored[position]? = some (.object members))
      (hvariant : variant? index around.id members = some (tag, variant))
      (hmember : (id, raw) ∈ members) (hfield : member index variant.key id = .field entry)
      (h : InField index resolver (metaAt layout around.parent position tag variant) entry.name
        (around.place ++ .position position :: fieldPlace entry.group entry.name) entry raw c) :
      InLayout layout rows c

end Walk

variable {index : FlatIndex} {resolver : Resolver} {m : BlockMeta} {trail layout : String}
  {place : List PathStep} {entry : IndexEntry} {raw : Value} {c : ReadCollection}
  {rows : List Value}

/-! ## What collections are read as -/

theorem value_collection {items : List Value} (hshape : entry.node.shape = .collection) :
    value index resolver m trail entry (.array items) =
      .array (variantRows index resolver m.layout (m.collectionPath trail) entry.key 0 items) := by
  rw [value, hshape]

theorem InField.read_eq (h : InField index resolver m trail place entry raw c) :
    c.read = variantRows index resolver m.layout c.parent c.id 0 c.stored := by
  induction h with
  | collection hshape hread =>
    rw [value_collection hshape] at hread
    exact (Value.array.inj hread).symm
  | row _ _ _ _ _ ih => exact ih
  | group _ _ _ _ ih => exact ih

/-- Every collection is read as its rows, with its own parent. -/
theorem InLayout.read_eq (h : InLayout index resolver layout rows c) :
    c.read = variantRows index resolver layout c.parent c.id 0 c.stored := by
  cases h with
  | top hlayout =>
    show Rehydrate.layout index resolver layout rows = _
    rw [Rehydrate.layout, hlayout]
  | nested _ _ _ _ _ h => exact h.read_eq

theorem InField.wellFormed (h : InField index resolver m trail place entry raw c)
    (hwell : raw.WellFormed) : Value.WellFormedItems c.stored := by
  induction h with
  | collection => exact hwell
  | row _ hrow hmember _ _ ih =>
    have hobject := Value.wellFormed_of_mem_items hwell _ (List.mem_of_getElem? hrow)
    exact ih (Value.wellFormed_of_mem_members hobject.2 _ hmember)
  | group _ hmember _ _ ih => exact ih (Value.wellFormed_of_mem_members hwell.2 _ hmember)

theorem InLayout.wellFormed (h : InLayout index resolver layout rows c)
    (hwell : Value.WellFormedItems rows) : Value.WellFormedItems c.stored := by
  induction h with
  | top => exact hwell
  | nested _ hrow _ hmember _ h ih =>
    have hobject := Value.wellFormed_of_mem_items ih _ (List.mem_of_getElem? hrow)
    exact h.wellFormed (Value.wellFormed_of_mem_members hobject.2 _ hmember)

/-! ## Where collections stand -/

/-- The value of a sub-field stands under its name in the object that was read. -/
theorem readFields_get? (hindex : index.Coherent) {kind : FieldKind}
    (hentry : index.lookup entry.key = some entry) (hnode : entry.node = .field kind)
    (hkind : kind.hasSubFields = true) {members : List (String × Value)}
    (hsorted : Entries.Sorted members) (hclear : Clear.fields index entry members) {id : String}
    {sub : IndexEntry} (hmember : (id, raw) ∈ members)
    (hsub : index.childEntry? entry.key id = some sub) :
    (Value.object (Entries.ofList (fields index resolver m trail entry members))).at?
        [.member sub.name] =
      some (value index resolver m (subTrail trail sub.name) sub raw) := by
  have hread : (sub.name, value index resolver m (subTrail trail sub.name) sub raw) ∈
      Entries.ofList (fields index resolver m trail entry members) := by
    refine (mem_readFields hindex hentry hnode hkind hsorted hclear).mpr ⟨(id, raw), hmember, ?_⟩
    unfold readField
    rw [hsub]
  have hget := (Entries.sorted_ofList _).get?_of_mem hread
  simp only [Value.at?, Value.get?, Value.members?, Option.bind_some, hget]

/-- From the value of a field to the collections in it, in whatever holds the value at the place of
the field. -/
theorem InField.held (hindex : index.Coherent)
    (h : InField index resolver m trail place entry raw c) {root : Value}
    (hentry : index.lookup entry.key = some entry) (hwell : raw.WellFormed)
    (hclear : Clear.value index entry raw)
    (hroot : root.at? place = some (value index resolver m trail entry raw)) :
    root.at? c.place = some (.array c.read) ∧ Clear.variants index c.id c.stored := by
  induction h with
  | @collection trail place entry items read hshape hread =>
    rw [Clear.value, hshape] at hclear
    dsimp only at hclear
    rw [Clear.collection] at hclear
    exact ⟨hroot.trans (congrArg some hread), hclear.2⟩
  | @row trail place entry sub items position members id raw c hshape hrow hmember hsub _ ih =>
    rw [Clear.value, hshape] at hclear
    have hin := List.mem_of_getElem? hrow
    have hobject := Value.wellFormed_of_mem_items hwell _ hin
    have hmembers := Clear.of_mem_rows hclear hin
    have hrow' : (Value.array (Rehydrate.rows index resolver m trail entry 0 items)).at?
        [.position position] = some (.object (Entries.ofList
          (fields index resolver m (rowTrail trail position) entry members))) := by
      simp only [Value.at?, Value.items?, Option.bind_some, rows_getElem?, hrow, Option.map_some,
        readRow, Nat.zero_add]
    have hvalue : value index resolver m trail entry (.array items) =
        .array (Rehydrate.rows index resolver m trail entry 0 items) := by
      rw [value, hshape]
    refine ih (hindex.lookup_key (FlatIndex.childEntry?_iff.mp hsub).1)
      (Value.wellFormed_of_mem_members hobject.2 _ hmember)
      ((Clear.of_mem_fields hmembers hmember).2 sub hsub) ?_
    have hsplit : [PathStep.position position, .member sub.name] =
        [.position position] ++ [.member sub.name] := rfl
    rw [Value.at?_append, hroot, Option.bind_some, hvalue, hsplit, Value.at?_append, hrow',
      Option.bind_some]
    exact readFields_get? hindex hentry (NodeType.shape_rows hshape) rfl hobject.1 hmembers hmember
      hsub
  | @group trail place entry sub members id raw c hshape hmember hsub _ ih =>
    rw [Clear.value, hshape] at hclear
    have hvalue : value index resolver m trail entry (.object members) =
        .object (Entries.ofList (fields index resolver m trail entry members)) := by
      rw [value, hshape]
    refine ih (hindex.lookup_key (FlatIndex.childEntry?_iff.mp hsub).1)
      (Value.wellFormed_of_mem_members hwell.2 _ hmember)
      ((Clear.of_mem_fields hclear hmember).2 sub hsub) ?_
    rw [Value.at?_append, hroot, Option.bind_some, hvalue]
    exact readFields_get? hindex hentry (NodeType.shape_fields hshape) rfl hwell.1 hclear hmember
      hsub

/-- The value of a field stands in its group of the block, under its name. -/
theorem row_at? (hindex : index.Coherent) {variant : IndexEntry} {members : List (String × Value)}
    (hvariant : index.lookup m.key = some variant) (hnode : variant.node = .block)
    (hsorted : Entries.Sorted members) (hclear : Clear.block index m.key members) {id : String}
    (hmember : (id, raw) ∈ members) (hfield : member index m.key id = .field entry) :
    (row index resolver m members).at? (fieldPlace entry.group entry.name) =
      some (value index resolver m entry.name entry raw) := by
  obtain ⟨hid, hparent⟩ := FlatIndex.childEntry?_iff.mp (member_field hfield)
  obtain ⟨⟨group, hgroup⟩, -, -⟩ := hindex.below_variant hvariant hnode hid hparent
  have hheld := row_held resolver hindex hvariant hnode hsorted hclear.foreign
  have hplaced : .grouped group entry.name (value index resolver m entry.name entry raw) ∈
      members.filterMap (placement? index resolver m) :=
    grouped_mem_placements.mpr ⟨id, raw, entry, hmember, hfield, hgroup, rfl, rfl⟩
  obtain ⟨⟨name, w⟩, hopen, rfl⟩ := List.mem_map.mp (hheld.opened hplaced)
  obtain ⟨fields, rfl, -, hfieldsSorted, hfields⟩ := hheld.grouped hopen
  have hname := hfieldsSorted.get?_of_mem ((hfields _ _).mpr hplaced)
  have hinner : Entries.get? group.name (Entries.insert metaKey
      ({ m with stored := .ofList (blockRecords index resolver m.key none members) } :
        BlockMeta).toValue
      ((placements index resolver m none members).foldl Placement.put [])) =
      some (.object fields) := by
    rw [Entries.get?_insert_of_ne _ (FieldGroup.name_ne_metaKey group)]
    exact hheld.sorted.get?_of_mem hopen
  rw [hgroup]
  simp only [fieldPlace, Option.map_some, Option.toList_some, List.singleton_append, row, assemble,
    Value.at?, Value.get?, Value.members?, Option.bind_some, hinner, hname]

/-- In what clear rows are read as, every collection stands at its place. -/
theorem InLayout.held (hindex : index.Coherent) (h : InLayout index resolver layout rows c)
    (hwell : Value.WellFormedItems rows) (hclear : Clear.layout index layout rows) :
    (Value.array (rehydrateLayout index resolver layout rows).value).at? c.place =
        some (.array c.read) ∧
      Clear.variants index c.id c.stored := by
  induction h with
  | top hlayout =>
    rw [Clear.layout, hlayout] at hclear
    dsimp only at hclear
    rw [Clear.collection] at hclear
    exact ⟨rfl, hclear.2⟩
  | @nested around c position members tag id variant entry raw haround hrow hvariant hmember hfield
      h ih =>
    obtain ⟨hat, hvariants⟩ := ih
    obtain ⟨-, -, hlookup, hnode⟩ := variant?_named hindex hvariant
    have hin := List.mem_of_getElem? hrow
    have hobject := Value.wellFormed_of_mem_items (haround.wellFormed hwell) _ hin
    have hblock := Clear.of_mem_variants hvariants hin
    rw [Clear.variant, hvariant] at hblock
    have hread : (Value.array around.read).at? [.position position] =
        some (row index resolver (metaAt layout around.parent position tag variant) members) := by
      simp only [Value.at?, Value.items?, Option.bind_some, haround.read_eq, variantRows_getElem?,
        hrow, Option.map_some, Nat.zero_add, variantRow_eq hvariant]
    refine h.held hindex
      (hindex.lookup_key (FlatIndex.childEntry?_iff.mp (member_field hfield)).1)
      (Value.wellFormed_of_mem_members hobject.2 _ hmember)
      ((Clear.of_mem_block hblock.2 hmember).2 entry hfield) ?_
    rw [← List.singleton_append, Value.at?_append, hat, Option.bind_some, Value.at?_append, hread,
      Option.bind_some]
    exact row_at? hindex hlookup hnode hobject.1 hblock.2 hmember hfield

/-! ## Rows -/

/-- A row that names a variant becomes a block of it, with an envelope that is found again. -/
theorem variantRow_known (layout parent : String) {collection tag : String} {position : Nat}
    {variant : IndexEntry} {members : List (String × Value)} (hresolver : resolver.WellFormed)
    (hwell : Value.WellFormedMembers members)
    (hvariant : variant? index collection members = some (tag, variant))
    (hposition : position < 18446744073709551616) :
    ∃ data m, variantRow index resolver layout parent collection position (.object members) =
        .object data ∧ BlockMeta.ofMembers? data = some m ∧ m.layout = layout ∧
      m.block = variant.name ∧ m.key = variant.key ∧ m.tag = tag ∧ m.index = position ∧
      m.parent = parent := by
  rw [variantRow_eq hvariant]
  refine ⟨_, _, rfl, BlockMeta.ofMembers?_insert (fun r hr => ?_) hposition, rfl, rfl, rfl, rfl,
    rfl, rfl⟩
  exact blockRecords_wellFormed hresolver hwell (Entries.mem_ofList hr)

/-- A row that names no variant stays as it is. -/
theorem variantRow_unknown {parent collection : String} {position : Nat} {v : Value}
    (hunknown : ∀ members tag variant, v = .object members →
      variant? index collection members ≠ some (tag, variant)) :
    variantRow index resolver layout parent collection position v = v := by
  cases v with
  | object members =>
    have hnone : variant? index collection members = none := by
      cases hvariant : variant? index collection members with
      | none => rfl
      | some found => exact absurd hvariant (hunknown members found.1 found.2 rfl)
    rw [variantRow, hnone]
  | _ => simp only [variantRow]

theorem variantRows_length {parent collection : String} (stored : List Value) (start : Nat) :
    (variantRows index resolver layout parent collection start stored).length = stored.length := by
  induction stored generalizing start with
  | nil => rw [variantRows]
  | cons row rest ih => rw [variantRows, List.length_cons, List.length_cons, ih]

end Rehydrate

/-- Every collection of a layout, at whatever depth, is read row by row, in order. A row whose tag
resolves in the collection becomes a block with an envelope that tells the layout, the variant, the
tag, the row's position and the collection's parent; any other row stays as it is. In clear rows the
collection stands at its place. A position has 64 bits. -/
theorem blocks_seated {definitions : Definitions} {resources : Resources} {registry : Registry}
    {now : Instant} {schema : CompiledSchema} {resolver : Resolver} {layout : String}
    {rows : List Value} (hbuilt : Gives (Registry.build definitions resources) registry)
    (hcompiled : Gives (compile registry now) schema) (hresolver : resolver.WellFormed)
    (hwell : Value.WellFormedItems rows) :
    (∀ l, registry.layout? layout = some l → ∃ c,
      Rehydrate.InLayout schema.index resolver layout rows c ∧ c.place = [] ∧ c.parent = layout ∧
        c.stored = rows ∧ c.read = (rehydrateLayout schema.index resolver layout rows).value) ∧
      ∀ c, Rehydrate.InLayout schema.index resolver layout rows c →
        c.read.length = c.stored.length ∧
        (∀ (i : Nat) (members : List (String × Value)) (tag : String) (variant : IndexEntry),
          c.stored[i]? = some (.object members) →
          Entries.get? variantTag members = some (.string tag) →
          schema.index.resolveVariant c.id tag = some variant → i < 18446744073709551616 →
          ∃ data m, c.read[i]? = some (.object data) ∧ BlockMeta.ofMembers? data = some m ∧
            m.layout = layout ∧ m.block = variant.name ∧ m.key = variant.key ∧ m.tag = tag ∧
            m.index = i ∧ m.parent = c.parent) ∧
        (∀ (i : Nat) (row : Value), c.stored[i]? = some row →
          (∀ (members : List (String × Value)) (tag : String) (variant : IndexEntry),
            row = .object members →
            Entries.get? variantTag members = some (.string tag) →
            schema.index.resolveVariant c.id tag ≠ some variant) →
          c.read[i]? = some row) ∧
        (Clear.layout schema.index layout rows →
          (Value.array (rehydrateLayout schema.index resolver layout rows).value).at? c.place =
            some (.array c.read)) := by
  have hfollows := compile_follows hbuilt hcompiled
  have hindex := hfollows.coherent
  constructor
  · intro l hl
    have hname : l.name = layout := (hfollows.registered.layout hl).1
    obtain ⟨path, node, hp⟩ := compile_layouts hcompiled (hname.symm ▸ hl)
    have hkey : schema.index.layoutKey layout = some node.key :=
      (hfollows.layoutKey_iff (compile_grown hbuilt hcompiled)).mpr
        ⟨path, l, node, hp, hname, rfl⟩
    exact ⟨_, .top hkey, rfl, rfl, rfl, rfl⟩
  · intro c hc
    have hat : ∀ i row, c.stored[i]? = some row → c.read[i]? = some
        (Rehydrate.variantRow schema.index resolver layout c.parent c.id i row) := by
      intro i row hrow
      rw [hc.read_eq, Rehydrate.variantRows_getElem?, hrow, Option.map_some, Nat.zero_add]
    refine ⟨?_, ?_, ?_, fun hclear => (hc.held hindex hwell hclear).1⟩
    · rw [hc.read_eq, Rehydrate.variantRows_length]
    · intro i members tag variant hrow htag hresolved hposition
      have hobject := Value.wellFormed_of_mem_items (hc.wellFormed hwell) _
        (List.mem_of_getElem? hrow)
      obtain ⟨data, m, hread, htold⟩ := Rehydrate.variantRow_known layout c.parent hresolver
        hobject.2 (Rehydrate.variant?_eq_some.mpr ⟨htag, hresolved⟩) hposition
      exact ⟨data, m, (hat i _ hrow).trans (congrArg some hread), htold⟩
    · intro i row hrow hunknown
      rw [hat i row hrow, Rehydrate.variantRow_unknown]
      intro members tag variant hobject hvariant
      obtain ⟨htag, hresolved⟩ := Rehydrate.variant?_eq_some.mp hvariant
      exact hunknown members tag variant hobject htag hresolved

/-- The members of a shelf with a text behind a value that is no row. -/
def shelfMembers : List (String × Value) :=
  [("acf_fc_layout", .string "shelf"),
    ("field_0dbe48d395a3c9c3fa6dd32c249ca328",
      .array [.string "kept", .object [("acf_fc_layout", .string "text")]])]

/-- A text and a shelf. -/
def shelfRows : List Value :=
  [.object [("acf_fc_layout", .string "text")], .object shelfMembers]

/-- The text on the shelf tells its place, and what stands before it on the shelf is kept. -/
theorem shelves_seated : ∃ c, Rehydrate.InLayout shelfSchema.index .none "page" shelfRows c ∧
    c.read[0]? = some (.string "kept") ∧
    ∃ data m, c.read[1]? = some (.object data) ∧ BlockMeta.ofMembers? data = some m ∧
      m.layout = "page" ∧ m.block = "text" ∧ m.tag = "text" ∧ m.index = 1 ∧
      m.parent = "page/1:shelf/blocks" := by
  obtain ⟨hbuilt, hcompiled, id, hid, v, hv, htag, hshelf, e, he, htab, hname, hnode, t, ht,
      htext⟩ :
      (Registry.build shelfDefinitions .empty).run.value.toOption.isSome = true ∧
        (compile shelfRegistry default).run.value.toOption.isSome = true ∧
        ∃ id ∈ shelfSchema.index.layoutKey "page",
        ∃ v ∈ Rehydrate.variant? shelfSchema.index id shelfMembers, v.1 = "shelf" ∧
        v.2.name = "shelf" ∧
        ∃ e ∈ shelfSchema.index.childEntry? v.2.key "field_0dbe48d395a3c9c3fa6dd32c249ca328",
        e.isTab = false ∧ e.name = "blocks" ∧ e.node = .field .flexibleContent ∧
        ∃ t ∈ shelfSchema.index.resolveVariant e.key "text", t.name = "text" := by
    decide +kernel
  have hbuilt' : Gives (Registry.build shelfDefinitions .empty) shelfRegistry :=
    gives_result hbuilt
  have hcompiled' : Gives (compile shelfRegistry default) shelfSchema := gives_result hcompiled
  have hindex := (compile_follows hbuilt' hcompiled').coherent
  obtain ⟨tag, shelf⟩ := v
  dsimp only at htag hshelf he
  subst htag
  have hshape : e.node.shape = .collection := by rw [hnode]; rfl
  have hwell : (Value.array shelfRows).WellFormed := by decide
  have hrow : shelfRows[1]? = some (.object shelfMembers) := rfl
  have htop : Rehydrate.InLayout shelfSchema.index .none "page" shelfRows _ := .top hid
  have hinner := htop.nested hrow hv (List.mem_cons_of_mem _ (List.mem_cons_self ..))
    ((Rehydrate.member_eq_field hindex).mpr ⟨he, htab⟩)
    (.collection hshape (Rehydrate.value_collection hshape))
  have hseated := (blocks_seated hbuilt' hcompiled' Resolver.none_wellFormed hwell).2 _ hinner
  obtain ⟨-, hknown, hunknown, -⟩ := hseated
  obtain ⟨data, m, hdata, hm, hlayout, hblock, -, htag, hposition, hparent⟩ :=
    hknown 1 [("acf_fc_layout", .string "text")] "text" t rfl rfl ht (by decide)
  have hkept := hunknown 0 (.string "kept") rfl fun _ _ _ h => nomatch h
  refine ⟨_, hinner, hkept, data, m, hdata, hm, hlayout, hblock.trans htext, htag, hposition, ?_⟩
  rw [hparent]
  simp only [Rehydrate.metaAt, hshelf, hname]
  decide

end PageBlocks
