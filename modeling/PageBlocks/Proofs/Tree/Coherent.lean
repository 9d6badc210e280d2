import PageBlocks.Proofs.Name
import PageBlocks.Proofs.Tree.Published
import PageBlocks.Rows.Meta

/-!
# What rows rely on

Rows are read and written by the index alone. What they rely on is stated here
without the tree: an entry is found under its own id and in its slot, and what
stands below a variant or below a field with rows is a field, in a group, with
a valid name.

> `Follows.coherent`: the index of every compiled schema is coherent.
-/

namespace PageBlocks

/-- What reading and writing rows rely on. -/
structure FlatIndex.Coherent (index : FlatIndex) : Prop where
  key : ∀ {id : String} {e : IndexEntry}, index.lookup id = some e → e.key = id
  lead : ∀ {id : String} {e : IndexEntry}, index.lookup id = some e →
    ∃ (kind : KeyKind) (digits : String), id = kind.lead ++ digits
  field_lead : ∀ {id : String} {e : IndexEntry} {kind : FieldKind}, index.lookup id = some e →
    e.node = .field kind → ∃ digits : String, id = KeyKind.field.lead ++ digits
  childKey_iff : ∀ {parent name id : String} {group : Option FieldGroup},
    index.childKey parent group name = some id ↔
      ∃ e, index.lookup id = some e ∧ e.parent = some parent ∧
        slot e.group e.name = slot group name
  variant_name : ∀ {id : String} {e : IndexEntry}, index.lookup id = some e → e.node = .block →
    isValidName e.name = true
  below_variant : ∀ {parent id : String} {v e : IndexEntry}, index.lookup parent = some v →
    v.node = .block → index.lookup id = some e → e.parent = some parent →
    (∃ g, e.group = some g) ∧ (∃ kind, e.node = .field kind) ∧ isValidName e.name = true
  below_row : ∀ {parent id : String} {r e : IndexEntry} {kind : FieldKind},
    index.lookup parent = some r → r.node = .field kind → kind.hasSubFields = true →
    index.lookup id = some e → e.parent = some parent →
    e.group = r.group ∧ (∃ kind', e.node = .field kind') ∧ isValidName e.name = true

theorem FieldGroup.tabName_valid (g : FieldGroup) : isValidName g.tabName = true := by
  cases g <;> decide +kernel

namespace Position

theorem Sound.name_valid {registry : Registry} (hr : registry.Sound) {p : Position}
    (h : p.Sound registry) (hbelow : p.parent ≠ none) : isValidName p.node.name = true := by
  rw [h.name_eq]
  cases h with
  | control => exact absurd rfl hbelow
  | layout => exact absurd rfl hbelow
  | variant hblock => exact (hr.block hblock).2.2.name
  | tab => exact FieldGroup.tabName_valid _
  | field _ _ _ hnamed => exact hnamed.name

end Position

/-- Entries one of which is the parent of the other are those of a node and of one below it. -/
theorem CompiledSchema.Follows.child_of_lookup {registry : Registry} {schema : CompiledSchema}
    (h : schema.Follows registry) {parent id : String} {v e : IndexEntry}
    (hparent : schema.index.lookup parent = some v) (hid : schema.index.lookup id = some e)
    (hbelow : e.parent = some parent) :
    ∃ q p, v = q.entry ∧ e = p.entry ∧ Position.Child registry.settings q p ∧
      isValidName e.name = true := by
  obtain ⟨q, hq, hqid, rfl⟩ := h.lookup_iff.mp hparent
  obtain ⟨p, hp, -, rfl⟩ := h.lookup_iff.mp hid
  obtain ⟨q', hq', hchild, hqid'⟩ := h.exists_parent hp hbelow
  -- An id is that of one position.
  obtain rfl := h.eq_of_id hq hq' (hqid.trans hqid'.symm)
  have hvalid := (h.sound p hp).name_valid h.registered fun hnone =>
    Option.some_ne_none _ (hbelow.symm.trans hnone)
  exact ⟨q, p, rfl, rfl, hchild, hvalid⟩

/-- The index of a compiled schema is coherent. -/
theorem CompiledSchema.Follows.coherent {registry : Registry} {schema : CompiledSchema}
    (h : schema.Follows registry) : schema.index.Coherent where
  key := fun hid => by
    obtain ⟨p, -, rfl, rfl⟩ := h.lookup_iff.mp hid
    rfl
  lead := fun hid => by
    obtain ⟨p, hp, rfl, -⟩ := h.lookup_iff.mp hid
    exact ⟨p.keyKind, _, (h.sound p hp).id_eq⟩
  field_lead := fun hid hnode => by
    obtain ⟨p, hp, rfl, rfl⟩ := h.lookup_iff.mp hid
    have hkind : p.keyKind = .field := by
      cases p with
      | variant => cases hnode
      | _ => rfl
    have hlead := (h.sound p hp).id_eq
    rw [hkind] at hlead
    exact ⟨_, hlead⟩
  childKey_iff := by
    intro parent name id group
    rw [h.childKey_iff]
    constructor
    · rintro ⟨p, hp, hid, hparent, hslot⟩
      exact ⟨p.entry, h.lookup_iff.mpr ⟨p, hp, hid, rfl⟩, hparent, hslot⟩
    · rintro ⟨e, he, hparent, hslot⟩
      obtain ⟨p, hp, hid, rfl⟩ := h.lookup_iff.mp he
      exact ⟨p, hp, hid, hparent, hslot⟩
  variant_name := fun hid hnode => by
    obtain ⟨p, hp, -, rfl⟩ := h.lookup_iff.mp hid
    refine (h.sound p hp).name_valid h.registered ?_
    cases p with
    | variant => exact Option.some_ne_none _
    | _ => cases hnode
  -- What stands below a node is read off the rules: of those for a variant every child has a group.
  below_variant := fun hparent hnode hid hbelow => by
    obtain ⟨q, p, rfl, rfl, hchild, hvalid⟩ := h.child_of_lookup hparent hid hbelow
    cases hchild with
    | ofLayout => cases hnode
    | ofCollection => cases hnode
    | tab => exact ⟨⟨_, rfl⟩, ⟨_, rfl⟩, hvalid⟩
    | ofBlock => exact ⟨⟨_, rfl⟩, ⟨_, rfl⟩, hvalid⟩
    | ofRow => cases hnode
  below_row := fun hparent hnode hkind hid hbelow => by
    obtain ⟨q, p, rfl, rfl, hchild, hvalid⟩ := h.child_of_lookup hparent hid hbelow
    cases hchild with
    | ofLayout => cases hnode
    | ofCollection hcol =>
      -- No kind holds both blocks and sub-fields.
      cases hnode
      exact absurd hcol (Compile.not_collection_of_hasSubFields hkind)
    | tab => cases hnode
    | ofBlock => cases hnode
    | ofRow => exact ⟨rfl, ⟨_, rfl⟩, hvalid⟩

/-- Layouts are indexed under the names that they were registered with. -/
theorem CompiledSchema.Follows.isValidName_layout {registry : Registry} {schema : CompiledSchema}
    (h : schema.Follows registry) {name id : String}
    (hlayout : schema.index.layoutKey name = some id) : isValidName name = true := by
  obtain ⟨entries, hholds, hperm⟩ := h.indexed
  unfold FlatIndex.layoutKey at hlayout
  rw [hholds.layouts] at hlayout
  obtain ⟨e, he, hpair⟩ := List.mem_filterMap.mp (Entries.mem_of_last? hlayout)
  obtain ⟨p, hp, rfl⟩ := List.mem_map.mp (hperm.mem_iff.mp he)
  have hsound := h.sound p hp
  -- Of all nodes only layouts are filed by the name of a layout.
  cases hsound with
  | @layout path l node hregistered =>
    cases hpair
    exact (h.registered.layout hregistered).2.2.name
  | control => cases hpair
  | variant => cases hpair
  | tab => cases hpair
  | field => cases hpair

theorem FlatIndex.childEntry?_iff {index : FlatIndex} {parent id : String} {e : IndexEntry} :
    index.childEntry? parent id = some e ↔ index.lookup id = some e ∧ e.parent = some parent := by
  unfold childEntry?
  rw [Option.filter_eq_some_iff]
  simp

/-- The slot of a valid name is not empty. -/
theorem FlatIndex.slot_ne_empty {group : Option FieldGroup} {name : String}
    (h : isValidName name = true) : slot group name ≠ "" := by
  cases group with
  | none => exact ne_empty_of_isValidName h
  | some g =>
    intro heq
    have hchars := congrArg String.toList heq
    simp [slot, String.toList_append] at hchars

namespace FlatIndex.Coherent

variable {index : FlatIndex}

/-- An entry is found under its own id. -/
theorem lookup_key (h : index.Coherent) {id : String} {e : IndexEntry}
    (hid : index.lookup id = some e) : index.lookup e.key = some e := by
  rw [h.key hid]
  exact hid

/-- An id is no text that lacks the lead of every kind of id. -/
theorem ne_of_lead (h : index.Coherent) {id text : String} {e : IndexEntry}
    (hid : index.lookup id = some e) (htext : ∀ kind : KeyKind, ¬kind.lead.toList <+: text.toList) :
    id ≠ text := by
  obtain ⟨kind, digits, rfl⟩ := h.lead hid
  rintro rfl
  refine htext kind ?_
  rw [String.toList_append]
  exact List.prefix_append ..

/-- No id is empty or the key of a variant's name. -/
theorem id_ne (h : index.Coherent) {id : String} {e : IndexEntry}
    (hid : index.lookup id = some e) : id ≠ "" ∧ id ≠ variantTag :=
  ⟨h.ne_of_lead hid fun kind => by cases kind <;> decide,
    h.ne_of_lead hid fun kind => by cases kind <;> decide⟩

/-- No id is the key of an envelope. -/
theorem id_ne_metaKey (h : index.Coherent) {id : String} {e : IndexEntry}
    (hid : index.lookup id = some e) : id ≠ metaKey :=
  h.ne_of_lead hid fun kind => by cases kind <;> decide

/-- No id is the name of a group. -/
theorem id_ne_name (h : index.Coherent) {id : String} {e : IndexEntry}
    (hid : index.lookup id = some e) (group : FieldGroup) : id ≠ group.name :=
  h.ne_of_lead hid fun kind => by cases kind <;> cases group <;> decide

/-- The name of a group sorts before the id of every field. -/
theorem name_lt_id (h : index.Coherent) {id : String} {e : IndexEntry} {kind : FieldKind}
    (hid : index.lookup id = some e) (hnode : e.node = .field kind) (group : FieldGroup) :
    group.name < id := by
  obtain ⟨digits, rfl⟩ := h.field_lead hid hnode
  rw [String.lt_iff, String.toList_append]
  -- All three names start with an earlier letter.
  cases group <;> exact .rel (by decide)

/-- A child is found by the group and the name that it has. -/
theorem child?_eq (h : index.Coherent) {parent id : String} {e : IndexEntry}
    (hchild : index.childEntry? parent id = some e) :
    index.child? parent e.group e.name = some e := by
  obtain ⟨hid, hparent⟩ := childEntry?_iff.mp hchild
  have hkey : index.childKey parent e.group e.name = some id :=
    h.childKey_iff.mpr ⟨e, hid, hparent, rfl⟩
  unfold child?
  rw [hkey]
  exact hid

/-- Children of one parent with the same slot have the same id. -/
theorem id_eq (h : index.Coherent) {parent id id' : String} {e e' : IndexEntry}
    (hchild : index.childEntry? parent id = some e)
    (hchild' : index.childEntry? parent id' = some e')
    (hslot : slot e.group e.name = slot e'.group e'.name) : id = id' := by
  obtain ⟨hid, hparent⟩ := childEntry?_iff.mp hchild
  obtain ⟨hid', hparent'⟩ := childEntry?_iff.mp hchild'
  have hkey := h.childKey_iff.mpr ⟨e, hid, hparent, hslot⟩
  rw [h.childKey_iff.mpr ⟨e', hid', hparent', rfl⟩] at hkey
  exact (Option.some.inj hkey).symm

/-- A variant of a collection is named by a text that is not empty. -/
theorem resolveVariant_named (h : index.Coherent) {collection tag : String} {v : IndexEntry}
    (hresolved : index.resolveVariant collection tag = some v) :
    tag ≠ "" ∧ index.lookup v.key = some v ∧ v.node = .block := by
  unfold resolveVariant at hresolved
  obtain ⟨hfound, hblock⟩ := Option.filter_eq_some_iff.mp hresolved
  have hnode : v.node = .block := beq_iff_eq.mp hblock
  rw [Option.orElse_eq_orElse, Option.orElse_eq_or] at hfound
  rcases Option.or_eq_some_iff.mp hfound with hchild | ⟨-, hchild⟩
  · -- By the name of the block, which is valid.
    unfold child? at hchild
    obtain ⟨id, hkey, hid⟩ := Option.bind_eq_some_iff.mp hchild
    obtain ⟨e, he, -, hslot⟩ := h.childKey_iff.mp hkey
    obtain rfl := Option.some.inj (hid.symm.trans he)
    refine ⟨fun hempty => ?_, h.lookup_key hid, hnode⟩
    rw [hempty] at hslot
    exact slot_ne_empty (h.variant_name hid hnode) hslot
  · -- By the id of the variant.
    obtain ⟨hid, -⟩ := childEntry?_iff.mp hchild
    exact ⟨(h.id_ne hid).1, h.lookup_key hid, hnode⟩

theorem lookup_of_childEntry? (h : index.Coherent) {parent id : String} {e : IndexEntry}
    (hchild : index.childEntry? parent id = some e) : index.lookup e.key = some e :=
  h.lookup_key (childEntry?_iff.mp hchild).1

/-- What is found by a group and a name is a child in that slot. -/
theorem childEntry?_of_child? (h : index.Coherent) {parent name : String}
    {group : Option FieldGroup} {e : IndexEntry}
    (hchild : index.child? parent group name = some e) :
    index.childEntry? parent e.key = some e ∧ slot e.group e.name = slot group name := by
  unfold child? at hchild
  obtain ⟨id, hkey, hid⟩ := Option.bind_eq_some_iff.mp hchild
  obtain ⟨e', hid', hparent, hslot⟩ := h.childKey_iff.mp hkey
  obtain rfl := Option.some.inj (hid.symm.trans hid')
  exact ⟨childEntry?_iff.mpr ⟨h.lookup_key hid, hparent⟩, hslot⟩

/-- A field of a variant is in the group that it is found in, and has the name that it is found
under. -/
theorem child?_variant (h : index.Coherent) {parent name : String} {g : FieldGroup}
    {v e : IndexEntry} (hparent : index.lookup parent = some v) (hnode : v.node = .block)
    (hchild : index.child? parent (some g) name = some e) :
    index.childEntry? parent e.key = some e ∧ e.group = some g ∧ e.name = name := by
  obtain ⟨hentry, hslot⟩ := h.childEntry?_of_child? hchild
  obtain ⟨hid, hbelow⟩ := childEntry?_iff.mp hentry
  obtain ⟨⟨g', hgroup⟩, -, -⟩ := h.below_variant hparent hnode hid hbelow
  rw [hgroup] at hslot ⊢
  obtain ⟨rfl, hname⟩ := FieldGroup.name_slash_inj hslot
  exact ⟨hentry, rfl, hname⟩

/-- A sub-field is in the group of the field around it, and has the name that it is found under. -/
theorem child?_row (h : index.Coherent) {name : String} {r e : IndexEntry} {kind : FieldKind}
    (hparent : index.lookup r.key = some r) (hnode : r.node = .field kind)
    (hkind : kind.hasSubFields = true) (hchild : index.child? r.key r.group name = some e) :
    index.childEntry? r.key e.key = some e ∧ e.group = r.group ∧ e.name = name := by
  obtain ⟨hentry, hslot⟩ := h.childEntry?_of_child? hchild
  obtain ⟨hid, hbelow⟩ := childEntry?_iff.mp hentry
  obtain ⟨hgroup, -, -⟩ := h.below_row hparent hnode hkind hid hbelow
  refine ⟨hentry, hgroup, ?_⟩
  rw [hgroup] at hslot
  cases hr : r.group with
  | none =>
    rw [hr] at hslot
    exact hslot
  | some g =>
    rw [hr] at hslot
    exact (FieldGroup.name_slash_inj hslot).2

theorem child?_eq_none (h : index.Coherent) {parent name : String} {group : Option FieldGroup} :
    index.child? parent group name = none ↔ index.childKey parent group name = none := by
  unfold child?
  cases hkey : index.childKey parent group name with
  | none => simp
  | some id =>
    obtain ⟨e, he, -, -⟩ := h.childKey_iff.mp hkey
    simp [he]

end FlatIndex.Coherent

end PageBlocks
