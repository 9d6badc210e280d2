import PageBlocks.Proofs.Rows.Restored
import PageBlocks.Proofs.Tree.Enlarged

/-!
# Rows of larger registries

Stored rows outlive the definitions that they were written for. When blocks and
layouts are added, rows are read by an index that knows all ids that it knew
before; it knows more variants, but none of them in a place where rows that
were read before have anything (`FlatIndex.Extends`).

> `rows_carried_over`: rows whose variants were all found are read as they
> were, unless a variant goes by the name of an added block.

A row may tell its variant by id, and the name of a block comes first. So an
added block that is named like an id takes over the rows that are told by it
(`id_taken_over`).
-/

namespace PageBlocks

open Attempt

namespace Rehydrate

/-! ## The variants that rows tell -/

section Tags

variable (index : FlatIndex)

mutual
/-- The collections in the value of a field, with the variants that their rows tell. -/
def tags (entry : IndexEntry) : Value → List (String × String)
  | .array items =>
    match entry.node.shape with
    | .collection => variantTags entry.key items
    | .rows => rowTags entry items
    | _ => []
  | .object members =>
    match entry.node.shape with
    | .fields => fieldTags entry members
    | _ => []
  | _ => []

def rowTags (entry : IndexEntry) : List Value → List (String × String)
  | [] => []
  | .object members :: rest => fieldTags entry members ++ rowTags entry rest
  | _ :: rest => rowTags entry rest

def fieldTags (parent : IndexEntry) : List (String × Value) → List (String × String)
  | [] => []
  | (id, raw) :: rest =>
    (match index.childEntry? parent.key id with
      | some entry => tags entry raw
      | none => []) ++ fieldTags parent rest

def variantTags (collection : String) : List Value → List (String × String)
  | [] => []
  | row :: rest => rowTag collection row ++ variantTags collection rest

/-- The variant that a row tells, and those inside it. -/
def rowTag (collection : String) : Value → List (String × String)
  | .object members =>
    match (Entries.get? variantTag members).bind Value.string? with
    | some tag =>
      (collection, tag) ::
        match index.resolveVariant collection tag with
        | some entry => blockTags entry.key members
        | none => []
    | none => []
  | _ => []

def blockTags (key : String) : List (String × Value) → List (String × String)
  | [] => []
  | (id, raw) :: rest =>
    (match member index key id with
      | .field entry => tags entry raw
      | _ => []) ++ blockTags key rest
end

/-- The collections in the rows of a layout, with the variants that are told in them. -/
def layoutTags (name : String) (stored : List Value) : List (String × String) :=
  match index.layoutKey name with
  | some collection => variantTags index collection stored
  | none => []

end Tags

end Rehydrate

/-! ## Looking up in a larger index -/

theorem IndexEntry.isCollection_eq_false {e : IndexEntry} (h : e.node.shape ≠ .collection) :
    e.isCollection = false := by
  unfold isCollection
  cases hnode : e.node with
  | layout =>
    rw [hnode] at h
    exact absurd rfl h
  | block => rfl
  | field kind =>
    rw [hnode, NodeType.shape] at h
    by_cases hkind : kind.isBlockCollection = true
    · exact absurd (if_pos hkind) h
    · exact Bool.eq_false_iff.mpr hkind

namespace FlatIndex.Extends

variable {index larger : FlatIndex} {isNew : String → Prop}

theorem childEntry?_eq (h : larger.Extends index isNew) {parent id : String} {v : IndexEntry}
    (hparent : index.lookup parent = some v) (hv : v.node.shape ≠ .collection) :
    larger.childEntry? parent id = index.childEntry? parent id := by
  refine Option.ext fun e => ?_
  rw [childEntry?_iff, childEntry?_iff]
  constructor
  · rintro ⟨hid, hbelow⟩
    rcases h.child hparent hid hbelow with hknown | ⟨hcollection, -⟩
    · exact ⟨hknown, hbelow⟩
    · rw [IndexEntry.isCollection_eq_false hv] at hcollection
      cases hcollection
  · rintro ⟨hid, hbelow⟩
    exact ⟨h.lookup hid, hbelow⟩

/-- A tag that stood for a variant stands for it still, unless it is a new name. -/
theorem resolveVariant_eq (h : larger.Extends index isNew) {collection tag : String}
    {v : IndexEntry} (hcollection : index.lookup collection = some v)
    (hresolved : index.resolveVariant collection tag ≠ none) (htag : ¬isNew tag) :
    larger.resolveVariant collection tag = index.resolveVariant collection tag := by
  unfold resolveVariant at hresolved ⊢
  cases hchild : index.child? collection none tag with
  | some e =>
    obtain ⟨hentry, hslot⟩ := h.coherent.childEntry?_of_child? hchild
    obtain ⟨hid, hbelow⟩ := childEntry?_iff.mp hentry
    have hkept : larger.child? collection none tag = some e := by
      have hkey := h.largerCoherent.childKey_iff.mpr ⟨e, h.lookup hid, hbelow, hslot⟩
      unfold child?
      rw [hkey]
      exact h.lookup hid
    rw [hkept]
    rfl
  | none =>
    -- What the name stands for now, if anything, is new.
    have hnone : larger.child? collection none tag = none := by
      cases hfound : larger.child? collection none tag with
      | none => rfl
      | some e =>
        obtain ⟨hentry, hslot⟩ := h.largerCoherent.childEntry?_of_child? hfound
        obtain ⟨hid, hbelow⟩ := childEntry?_iff.mp hentry
        rcases h.child hcollection hid hbelow with hknown | ⟨-, hgroup, hnew⟩
        · have hkey := h.coherent.childKey_iff.mpr ⟨e, hknown, hbelow, hslot⟩
          rw [h.coherent.child?_eq_none.mp hchild] at hkey
          cases hkey
        · rw [hgroup] at hslot
          obtain rfl : e.name = tag := hslot
          exact absurd hnew htag
    rw [hchild] at hresolved
    cases hentry : index.childEntry? collection tag with
    | none =>
      rw [hentry] at hresolved
      exact absurd rfl hresolved
    | some e =>
      obtain ⟨hid, hbelow⟩ := childEntry?_iff.mp hentry
      rw [hnone, childEntry?_iff.mpr ⟨h.lookup hid, hbelow⟩]

end FlatIndex.Extends

namespace Rehydrate

/-! ## Reading -/

section Reading

variable {index larger : FlatIndex} {isNew : String → Prop} {resolver : Resolver}

theorem member_eq_larger (h : larger.Extends index isNew) {key id : String} {v : IndexEntry}
    (hkey : index.lookup key = some v) (hv : v.node = .block) :
    member larger key id = member index key id := by
  have hshape : v.node.shape = .bare := by rw [hv]; rfl
  unfold member
  rw [h.childEntry?_eq hkey (hshape.trans_ne nofun)]

/-- A tag that stands for a variant and is no new name. -/
def Lasts (index : FlatIndex) (isNew : String → Prop) (t : String × String) : Prop :=
  index.resolveVariant t.1 t.2 ≠ none ∧ ¬isNew t.2

theorem variant?_eq_larger (h : larger.Extends index isNew) {collection : String} {v : IndexEntry}
    (hcollection : index.lookup collection = some v) {members : List (String × Value)}
    (htags : ∀ t ∈ rowTag index collection (.object members), Lasts index isNew t) :
    variant? larger collection members = variant? index collection members := by
  unfold variant?
  rw [rowTag] at htags
  cases htag : (Entries.get? variantTag members).bind Value.string? with
  | none => rfl
  | some tag =>
    rw [htag] at htags
    obtain ⟨hresolved, hnew⟩ := htags (collection, tag) (List.mem_cons_self ..)
    show (larger.resolveVariant collection tag).bind _ =
      (index.resolveVariant collection tag).bind _
    rw [h.resolveVariant_eq hcollection hresolved hnew]

section Records

variable {group : Option FieldGroup}

mutual
/-- The same is recorded below a field. -/
theorem records_larger (h : larger.Extends index isNew) :
    ∀ (v : Value) {trail : String} {entry : IndexEntry}, index.lookup entry.key = some entry →
      records larger resolver group trail entry v = records index resolver group trail entry v
  | .array items, trail, entry, hentry => by
    rw [records, records]
    cases hshape : entry.node.shape with
    | rows => exact rowRecords_larger h items hentry (hshape.trans_ne nofun)
    | _ => rfl
  | .object members, trail, entry, hentry => by
    rw [records, records]
    cases hshape : entry.node.shape with
    | fields => exact fieldRecords_larger h members hentry (hshape.trans_ne nofun)
    | _ => rfl
  | .null, _, _, _ | .bool _, _, _, _ | .int _, _, _, _ | .float _, _, _, _
  | .string _, _, _, _ => rfl

theorem rowRecords_larger (h : larger.Extends index isNew) :
    ∀ (items : List Value) {trail : String} {entry : IndexEntry} {position : Nat},
      index.lookup entry.key = some entry → entry.node.shape ≠ .collection →
      rowRecords larger resolver group trail entry position items =
        rowRecords index resolver group trail entry position items
  | [], _, _, _, _, _ => rfl
  | .object members :: rest, trail, entry, position, hentry, hshape => by
    rw [rowRecords, rowRecords, fieldRecords_larger h members hentry hshape,
      rowRecords_larger h rest hentry hshape]
  | .null :: rest, _, _, _, hentry, hshape | .bool _ :: rest, _, _, _, hentry, hshape
  | .int _ :: rest, _, _, _, hentry, hshape | .float _ :: rest, _, _, _, hentry, hshape
  | .string _ :: rest, _, _, _, hentry, hshape | .array _ :: rest, _, _, _, hentry, hshape => by
    unfold rowRecords
    exact rowRecords_larger h rest hentry hshape

theorem fieldRecords_larger (h : larger.Extends index isNew) :
    ∀ (members : List (String × Value)) {trail : String} {parent : IndexEntry},
      index.lookup parent.key = some parent → parent.node.shape ≠ .collection →
      fieldRecords larger resolver group trail parent members =
        fieldRecords index resolver group trail parent members
  | [], _, _, _, _ => rfl
  | (id, raw) :: rest, trail, parent, hparent, hshape => by
    rw [fieldRecords, fieldRecords, h.childEntry?_eq hparent hshape,
      fieldRecords_larger h rest hparent hshape]
    cases hchild : index.childEntry? parent.key id with
    | none => rfl
    | some entry =>
      have hentry := h.coherent.lookup_of_childEntry? hchild
      dsimp only
      rw [records_larger h raw hentry]
end

end Records

theorem blockRecords_larger (h : larger.Extends index isNew)
    {key : String} {v : IndexEntry} (hkey : index.lookup key = some v) (hv : v.node = .block) :
    ∀ (members : List (String × Value)) {opened : Option FieldGroup},
      blockRecords larger resolver key opened members =
        blockRecords index resolver key opened members
  | [], _ => rfl
  | (id, raw) :: rest, opened => by
    rw [blockRecords, blockRecords, member_eq_larger h hkey hv]
    cases hmember : member index key id with
    | field entry =>
      have hentry := h.coherent.lookup_of_childEntry? (member_field hmember)
      dsimp only
      rw [records_larger h raw hentry, blockRecords_larger h hkey hv rest]
    | _ => exact blockRecords_larger h hkey hv rest

mutual
/-- A field is read as it was. -/
theorem value_larger (h : larger.Extends index isNew) :
    ∀ (v : Value) {m : BlockMeta} {trail : String} {entry : IndexEntry},
      index.lookup entry.key = some entry → (∀ t ∈ tags index entry v, Lasts index isNew t) →
      value larger resolver m trail entry v = value index resolver m trail entry v
  | .array items, m, trail, entry, hentry, htags => by
    rw [tags] at htags
    rw [value, value]
    cases hshape : entry.node.shape with
    | collection =>
      rw [hshape] at htags
      dsimp only at htags ⊢
      rw [variantRows_larger h items hentry htags]
    | rows =>
      rw [hshape] at htags
      dsimp only at htags ⊢
      rw [rows_larger h items hentry (hshape.trans_ne nofun) htags]
    | _ => rfl
  | .object members, m, trail, entry, hentry, htags => by
    rw [tags] at htags
    rw [value, value]
    cases hshape : entry.node.shape with
    | fields =>
      rw [hshape] at htags
      dsimp only at htags ⊢
      rw [fields_larger h members hentry (hshape.trans_ne nofun) htags]
    | _ => rfl
  | .null, _, _, _, _, _ | .bool _, _, _, _, _, _ | .int _, _, _, _, _, _
  | .float _, _, _, _, _, _ | .string _, _, _, _, _, _ => rfl

theorem rows_larger (h : larger.Extends index isNew) :
    ∀ (items : List Value) {m : BlockMeta} {trail : String} {entry : IndexEntry} {position : Nat},
      index.lookup entry.key = some entry → entry.node.shape ≠ .collection →
      (∀ t ∈ rowTags index entry items, Lasts index isNew t) →
      rows larger resolver m trail entry position items =
        rows index resolver m trail entry position items
  | [], _, _, _, _, _, _, _ => rfl
  | .object members :: rest, m, trail, entry, position, hentry, hshape, htags => by
    rw [rowTags] at htags
    obtain ⟨hmembers, hrest⟩ := List.forall_mem_append.mp htags
    rw [rows, rows, fields_larger h members hentry hshape hmembers,
      rows_larger h rest hentry hshape hrest]
  | .null :: rest, _, _, _, _, hentry, hshape, htags
  | .bool _ :: rest, _, _, _, _, hentry, hshape, htags
  | .int _ :: rest, _, _, _, _, hentry, hshape, htags
  | .float _ :: rest, _, _, _, _, hentry, hshape, htags
  | .string _ :: rest, _, _, _, _, hentry, hshape, htags
  | .array _ :: rest, _, _, _, _, hentry, hshape, htags => by
    unfold rowTags at htags
    unfold rows
    rw [rows_larger h rest hentry hshape htags]

theorem fields_larger (h : larger.Extends index isNew) :
    ∀ (members : List (String × Value)) {m : BlockMeta} {trail : String} {parent : IndexEntry},
      index.lookup parent.key = some parent → parent.node.shape ≠ .collection →
      (∀ t ∈ fieldTags index parent members, Lasts index isNew t) →
      fields larger resolver m trail parent members = fields index resolver m trail parent members
  | [], _, _, _, _, _, _ => rfl
  | (id, raw) :: rest, m, trail, parent, hparent, hshape, htags => by
    rw [fieldTags] at htags
    obtain ⟨hraw, hrest⟩ := List.forall_mem_append.mp htags
    rw [fields, fields, h.childEntry?_eq hparent hshape, fields_larger h rest hparent hshape hrest]
    cases hchild : index.childEntry? parent.key id with
    | none => rfl
    | some entry =>
      have hentry := h.coherent.lookup_of_childEntry? hchild
      rw [hchild] at hraw
      dsimp only
      rw [value_larger h raw hentry hraw]

theorem variantRows_larger (h : larger.Extends index isNew) :
    ∀ (items : List Value) {layout parent collection : String} {position : Nat}
      {v : IndexEntry}, index.lookup collection = some v →
      (∀ t ∈ variantTags index collection items, Lasts index isNew t) →
      variantRows larger resolver layout parent collection position items =
        variantRows index resolver layout parent collection position items
  | [], _, _, _, _, _, _, _ => rfl
  | row :: rest, layout, parent, collection, position, v, hcollection, htags => by
    rw [variantTags] at htags
    obtain ⟨hrow, hrest⟩ := List.forall_mem_append.mp htags
    rw [variantRows, variantRows, variantRow_larger h row hcollection hrow,
      variantRows_larger h rest hcollection hrest]

/-- A row tells the variant that it told, and its members are read as they were. -/
theorem variantRow_larger (h : larger.Extends index isNew) :
    ∀ (row : Value) {layout parent collection : String} {position : Nat} {v : IndexEntry},
      index.lookup collection = some v →
      (∀ t ∈ rowTag index collection row, Lasts index isNew t) →
      variantRow larger resolver layout parent collection position row =
        variantRow index resolver layout parent collection position row
  | .object members, layout, parent, collection, position, v, hcollection, htags => by
    rw [variantRow, variantRow, variant?_eq_larger h hcollection htags]
    cases hvariant : variant? index collection members with
    | none => rfl
    | some found =>
      obtain ⟨tag, entry⟩ := found
      obtain ⟨htag, -, hentry, hnode⟩ := variant?_named h.coherent hvariant
      have hresolved := (variant?_eq_some.mp hvariant).2
      have hinner : ∀ t ∈ blockTags index entry.key members, Lasts index isNew t := by
        rw [rowTag, htag] at htags
        dsimp only [Option.bind_some, Value.string?] at htags
        rw [hresolved] at htags
        exact (List.forall_mem_cons.mp htags).2
      have hkey : (metaAt layout parent position tag entry).key = entry.key := rfl
      dsimp only
      rw [placements_larger h members (hkey ▸ hentry) hnode (hkey ▸ hinner), hkey,
        blockRecords_larger h hentry hnode]
  | .null, _, _, _, _, _, _, _ | .bool _, _, _, _, _, _, _, _ | .int _, _, _, _, _, _, _, _
  | .float _, _, _, _, _, _, _, _ | .string _, _, _, _, _, _, _, _
  | .array _, _, _, _, _, _, _, _ => rfl

theorem placements_larger (h : larger.Extends index isNew) :
    ∀ (members : List (String × Value)) {m : BlockMeta} {opened : Option FieldGroup}
      {v : IndexEntry}, index.lookup m.key = some v → v.node = .block →
      (∀ t ∈ blockTags index m.key members, Lasts index isNew t) →
      placements larger resolver m opened members = placements index resolver m opened members
  | [], _, _, _, _, _, _ => rfl
  | (id, raw) :: rest, m, opened, v, hkey, hv, htags => by
    rw [blockTags] at htags
    obtain ⟨hraw, hlater⟩ := List.forall_mem_append.mp htags
    have hrest : ∀ {opened : Option FieldGroup},
        placements larger resolver m opened rest = placements index resolver m opened rest :=
      placements_larger h rest hkey hv hlater
    rw [placements, placements, member_eq_larger h hkey hv]
    cases hmember : member index m.key id with
    | tag => exact hrest
    | foreign =>
      dsimp only
      rw [hrest]
    | tab group => exact hrest
    | field entry =>
      have hentry := h.coherent.lookup_of_childEntry? (member_field hmember)
      rw [hmember] at hraw
      dsimp only
      rw [hrest, value_larger h raw hentry hraw]
end

end Reading

end Rehydrate

/-- Adding blocks and layouts leaves every entry of the index as it is. And rows of a layout that
was there are read as they were, for every resolver, when all their variants were found at every
depth and none of them goes by the name of an added block. -/
theorem rows_carried_over {definitions more : Definitions} {resources resources' : Resources}
    {registry larger : Registry} {now now' : Instant} {schema schema' : CompiledSchema}
    (hbuilt : Gives (Registry.build definitions resources) registry)
    (hbuilt' : Gives (Registry.build more resources') larger)
    (hwithin : registry.Within larger) (hcompiled : Gives (compile registry now) schema)
    (hcompiled' : Gives (compile larger now') schema') :
    (∀ id e, schema.index.lookup id = some e → schema'.index.lookup id = some e) ∧
      ∀ resolver layout rows, registry.layout? layout ≠ none →
        (∀ t ∈ Rehydrate.layoutTags schema.index layout rows,
          schema.index.resolveVariant t.1 t.2 ≠ none ∧
            (registry.block? t.2 = none → larger.block? t.2 = none)) →
        (rehydrateLayout schema'.index resolver layout rows).value =
          (rehydrateLayout schema.index resolver layout rows).value := by
  have hextends := compile_extends hbuilt hbuilt' hwithin hcompiled hcompiled'
  refine ⟨fun id e hid => hextends.lookup hid, fun resolver layout rows hlayout htags => ?_⟩
  obtain ⟨l, hl⟩ := Option.ne_none_iff_exists'.mp hlayout
  have hname : l.name = layout := ((Registry.build_sound hbuilt).layout hl).1
  obtain ⟨path, node, hp⟩ := compile_layouts hcompiled (hname.symm ▸ hl)
  have hkey : schema.index.layoutKey layout = some node.key :=
    ((compile_follows hbuilt hcompiled).layoutKey_iff (compile_grown hbuilt hcompiled)).mpr
      ⟨path, l, node, hp, hname, rfl⟩
  obtain ⟨hkey', v, hcollection⟩ := hextends.layout hkey
  show Rehydrate.layout _ _ _ _ = Rehydrate.layout _ _ _ _
  unfold Rehydrate.layoutTags at htags
  unfold Rehydrate.layout
  rw [hkey] at htags
  rw [hkey, hkey']
  refine Rehydrate.variantRows_larger hextends rows hcollection fun t ht => ?_
  obtain ⟨hresolved, hold⟩ := htags t ht
  exact ⟨hresolved, fun hnew => hnew.2 (hold hnew.1)⟩

/-- Boxes with texts in them. -/
def textBoxDefinitions : Definitions :=
  boxDefinitions.withBlock "text" {}

def textBoxRegistry : Registry := (Registry.build textBoxDefinitions .empty).result

def textBoxSchema : CompiledSchema := (compile textBoxRegistry default).result

/-- A box that is told by its name, and one that is told by its id. -/
def toldBoxes : List Value :=
  [.object [("acf_fc_layout", .string "box"),
      ("field_1a94a039a4de91fd59f18937116e32e9", .string "A")],
    .object [("acf_fc_layout", .string "block_67effbea4f8f40e84e80347ebe9f70af"),
      ("field_1a94a039a4de91fd59f18937116e32e9", .string "B"),
      ("field_67c14fcd7f7ea0fe050797ac194ebef8", .array [.string "kept"])]]

/-- Boxes outlive that texts are added. -/
theorem boxes_outlive_texts :
    (rehydrateLayout textBoxSchema.index .none "page" toldBoxes).value =
      (rehydrateLayout boxSchema.index .none "page" toldBoxes).value := by
  obtain ⟨hbuilt, hcompiled, hlayout, htags⟩ :
      (Registry.build textBoxDefinitions .empty).run.value.toOption.isSome = true ∧
        (compile textBoxRegistry default).run.value.toOption.isSome = true ∧
        (boxRegistry.layout? "page").isSome = true ∧
        ∀ t ∈ Rehydrate.layoutTags boxSchema.index "page" toldBoxes,
          (boxSchema.index.resolveVariant t.1 t.2).isSome = true ∧
            (textBoxRegistry.block? t.2).isNone = (boxRegistry.block? t.2).isNone := by
    decide +kernel
  have hwithin : boxRegistry.Within textBoxRegistry :=
    Registry.withBlock_within (by decide +kernel) boxes_built (gives_result hbuilt)
  refine (rows_carried_over boxes_built (gives_result hbuilt) hwithin boxes_compiled
    (gives_result hcompiled)).2 .none "page" toldBoxes (Option.isSome_iff_ne_none.mp hlayout)
    fun t ht => ?_
  obtain ⟨hresolved, hnames⟩ := htags t ht
  refine ⟨Option.isSome_iff_ne_none.mp hresolved, fun hold => ?_⟩
  rw [hold] at hnames
  exact Option.isNone_iff_eq_none.mp hnames

/-- Boxes, and a block that is named like the id of the box on a page. -/
def boxTwinDefinitions : Definitions :=
  boxDefinitions.withBlock "block_67effbea4f8f40e84e80347ebe9f70af" {}

def boxTwinRegistry : Registry := (Registry.build boxTwinDefinitions .empty).result

def boxTwinSchema : CompiledSchema := (compile boxTwinRegistry default).result

/-- A box that is told by its id is read as a block of the added kind. -/
theorem id_taken_over :
    Gives (Registry.build boxTwinDefinitions .empty) boxTwinRegistry ∧
      Gives (compile boxTwinRegistry default) boxTwinSchema ∧
      boxRegistry.Within boxTwinRegistry ∧
      (∀ t ∈ Rehydrate.layoutTags boxSchema.index "page" toldBoxes,
        boxSchema.index.resolveVariant t.1 t.2 ≠ none) ∧
      (rehydrateLayout boxTwinSchema.index .none "page" toldBoxes).value ≠
        (rehydrateLayout boxSchema.index .none "page" toldBoxes).value := by
  obtain ⟨hbuilt, hcompiled, htags, hrows⟩ :
      (Registry.build boxTwinDefinitions .empty).run.value.toOption.isSome = true ∧
        (compile boxTwinRegistry default).run.value.toOption.isSome = true ∧
        (∀ t ∈ Rehydrate.layoutTags boxSchema.index "page" toldBoxes,
          (boxSchema.index.resolveVariant t.1 t.2).isSome = true) ∧
        Value.sameItems (rehydrateLayout boxTwinSchema.index .none "page" toldBoxes).value
          (rehydrateLayout boxSchema.index .none "page" toldBoxes).value = false := by
    decide +kernel
  have hwithin : boxRegistry.Within boxTwinRegistry :=
    Registry.withBlock_within (by decide +kernel) boxes_built (gives_result hbuilt)
  refine ⟨gives_result hbuilt, gives_result hcompiled, hwithin,
    fun t ht => Option.isSome_iff_ne_none.mp (htags t ht), fun hsame => ?_⟩
  rw [hsame, Value.sameItems_self] at hrows
  cases hrows

end PageBlocks
