import PageBlocks.Proofs.Rows.Read

/-!
# Leaves, read and written back

A leaf of a row is a value of a field that holds no others: a field of the row
itself, or one in groups and repeaters below it (`LeafAt`, `HasLeaf`). Reading a
leaf that it changes is recorded, and the record gives the stored form back.
What is read as it is needs no record and is written as it was read. Booleans in
switches fall between the two: reading keeps them, so that nothing is recorded,
and writing makes numbers of them, whether they were edited or not.

> `HasLeaf.written`: what a leaf is written as, by the envelope of its row;
>
> `HasLeaf.restored`: it stands in the written row where the leaf stood;
>
> `leaf_written_back`: every leaf is written back as it was stored, but for
> booleans that were stored in switches, which come back as numbers.

Values are compared as they are when reading decides what to record, so that a
reference that a resolver answers with the other float zero comes back as that.
Whatever else is equal is the same.
-/

namespace PageBlocks

open Attempt

/-- Values of the kind are references that a resolver may expand. -/
def FieldKind.isReference : FieldKind → Bool
  | .image | .file | .gallery | .postObject | .pageLink | .relationship => true
  | _ => false

/-- A resolver that expands no reference to one that is equal but not the same. -/
def Resolver.Exact (resolver : Resolver) : Prop :=
  ∀ v w, resolver.attachment v = some w ∨ resolver.contentItem v = some w →
    (v == w) = true → w = v

/-- How a leaf that was stored as one value is written back as another. -/
structure WrittenBack (resolver : Resolver) (kind : FieldKind) (raw written : Value) : Prop where
  /-- A boolean of a switch comes back as a number. -/
  switch : kind = .trueFalse → ∀ b, raw = .bool b → written = .int (if b then 1 else 0)
  /-- Anything else comes back equal. -/
  equal : (kind = .trueFalse → ∀ b, raw ≠ .bool b) → (written == raw) = true
  /-- It comes back the same, unless it is a reference that the resolver answers with an equal. -/
  same : (kind = .trueFalse → ∀ b, raw ≠ .bool b) →
    (kind.isReference = true → resolver.Exact) → written = raw

namespace Rehydrate

variable {index : FlatIndex} {resolver : Resolver} {group : Option FieldGroup}

/-! ## Values that are read as they are -/

theorem expandWith_exact {resolve : Value → Option Value} {v : Value}
    (hexact : ∀ w, resolve v = some w → (v == w) = true → w = v)
    (h : (v == expandWith resolve v) = true) : expandWith resolve v = v := by
  unfold expandWith at h ⊢
  split at h
  next hblank => rw [if_pos hblank]
  next hblank =>
    rw [if_neg hblank]
    cases hw : resolve v with
    | none => rfl
    | some w =>
      rw [hw] at h
      exact hexact w hw h

theorem map_exact {f : Value → Value} (hf : ∀ v, (v == f v) = true → f v = v) :
    ∀ {items : List Value}, Value.sameItems items (items.map f) = true → items.map f = items
  | [], _ => rfl
  | v :: rest, h => by
    rw [List.map_cons, Value.sameItems, Bool.and_eq_true] at h
    rw [List.map_cons, hf v h.1, map_exact hf h.2]

theorem numberOf_exact {s : String} (h : (Value.string s == numberOf s) = true) :
    numberOf s = .string s := by
  have hsame : Value.same (.string s) (numberOf s) = true := h
  cases hn : numberOf s with
  | string t =>
    rw [hn] at hsame
    rw [beq_iff_eq.mp (show (s == t) = true from hsame)]
  | _ =>
    rw [hn] at hsame
    cases hsame

/-- A value that is read as one that is equal to it is read as itself. -/
theorem normalise_exact {kind : FieldKind} (hexact : kind.isReference = true → resolver.Exact)
    {raw : Value} (h : (raw == normalise resolver kind raw) = true) :
    normalise resolver kind raw = raw := by
  have hattachment : resolver.Exact → ∀ v, (v == expandWith resolver.attachment v) = true →
      expandWith resolver.attachment v = v := fun hexact v =>
    expandWith_exact fun w hw => hexact v w (.inl hw)
  have hitem : resolver.Exact → ∀ v, (v == expandWith resolver.contentItem v) = true →
      expandWith resolver.contentItem v = v := fun hexact v =>
    expandWith_exact fun w hw => hexact v w (.inr hw)
  generalize hread : normalise resolver kind raw = read at h ⊢
  unfold normalise at hread
  split at hread <;> subst hread
  next => exact (eq_bool_of_beq h).symm
  next => exact numberOf_exact h
  next => exact numberOf_exact h
  next => exact hattachment (hexact rfl) _ h
  next => exact hattachment (hexact rfl) _ h
  next => exact congrArg _ (map_exact (hattachment (hexact rfl)) h)
  next => exact congrArg _ (map_exact (hitem (hexact rfl)) h)
  next => exact congrArg _ (map_exact (hitem (hexact rfl)) h)
  next => exact congrArg _ (map_exact (hitem (hexact rfl)) h)
  next => exact hitem (hexact rfl) _ h
  next => exact hitem (hexact rfl) _ h
  next => exact hitem (hexact rfl) _ h
  next => rfl

/-! ## Leaves of values -/

/-- The value of a field at a trail holds the value of a leaf at another trail. -/
inductive LeafAt (index : FlatIndex) :
    IndexEntry → String → Value → IndexEntry → String → Value → Prop where
  | here {entry : IndexEntry} {trail : String} {raw : Value} {kind : FieldKind}
      (h : entry.node.shape = .leaf kind) : LeafAt index entry trail raw entry trail raw
  | part {entry sub leaf : IndexEntry} {trail t id : String} {members : List (String × Value)}
      {v raw : Value} (h : entry.node = .field .group) (hmem : (id, v) ∈ members)
      (hsub : index.childEntry? entry.key id = some sub)
      (hbelow : LeafAt index sub (subTrail trail sub.name) v leaf t raw) :
      LeafAt index entry trail (.object members) leaf t raw
  | row {entry sub leaf : IndexEntry} {trail t id : String} {items : List Value}
      {members : List (String × Value)} {v raw : Value} (position : Nat)
      (h : entry.node = .field .repeater) (hitem : items[position]? = some (.object members))
      (hmem : (id, v) ∈ members) (hsub : index.childEntry? entry.key id = some sub)
      (hbelow : LeafAt index sub (subTrail (rowTrail trail position) sub.name) v leaf t raw) :
      LeafAt index entry trail (.array items) leaf t raw

theorem mem_rowObjects {members : List (String × Value)} :
    ∀ {items : List Value} {start i : Nat}, items[i]? = some (.object members) →
      (start + i, members) ∈ rowObjects start items
  | [], _, _, h => by cases h
  | item :: rest, start, 0, h => by
    obtain rfl : item = .object members := Option.some.inj h
    exact List.mem_cons_self ..
  | item :: rest, start, i + 1, h => by
    have hrest : (start + 1 + i, members) ∈ rowObjects (start + 1) rest := mem_rowObjects h
    rw [Nat.add_right_comm] at hrest
    cases item <;> first | exact hrest | exact List.mem_cons_of_mem _ hrest

theorem mem_subFields {parent id : String} {members : List (String × Value)} {v : Value}
    {sub : IndexEntry} (hmem : (id, v) ∈ members) (hsub : index.childEntry? parent id = some sub) :
    (sub, v) ∈ subFields index parent members :=
  List.mem_filterMap.mpr ⟨_, hmem, by rw [hsub]; rfl⟩

/-- What agrees with the records of a value agrees with those of its leaves. -/
theorem LeafAt.agrees (hindex : index.Coherent) {stored : Dict StoredValue}
    {entry leaf : IndexEntry} {trail t : String} {v raw : Value}
    (h : LeafAt index entry trail v leaf t raw) (hentry : index.lookup entry.key = some entry)
    (hwell : v.WellFormed)
    (hrecords : Agrees stored (fieldPath group trail)
      (records index resolver group trail entry v)) :
    ∃ kind, leaf.node.shape = .leaf kind ∧
      Agrees stored (fieldPath group t) (leafRecords index resolver group t kind raw) := by
  induction h with
  | @here entry trail raw kind hshape =>
    refine ⟨kind, hshape, ?_⟩
    rwa [records_of_leaf hshape] at hrecords
  | @part entry sub leaf trail t id members v raw hnode hmem hsub _ ih =>
    have hshape : entry.node.shape = .fields := by rw [hnode]; rfl
    rw [records, hshape] at hrecords
    have hlookup := hindex.lookup_key (FlatIndex.childEntry?_iff.mp hsub).1
    have hsubs := agrees_subField hindex hentry hnode rfl hwell.1.nodup_keys hrecords
      (mem_subFields hmem hsub)
    exact ih hlookup (Value.wellFormed_of_mem_members hwell.2 _ hmem) hsubs
  | @row entry sub leaf trail t id items members v raw position hnode hitem hmem hsub _ ih =>
    have hshape : entry.node.shape = .rows := by rw [hnode]; rfl
    rw [records, hshape] at hrecords
    have hlookup := hindex.lookup_key (FlatIndex.childEntry?_iff.mp hsub).1
    have hobject := Value.wellFormed_of_mem_items hwell _ (List.mem_of_getElem? hitem)
    have hposition : (0 + position, members) ∈ rowObjects 0 items := mem_rowObjects hitem
    rw [Nat.zero_add] at hposition
    have hrow := agrees_rowObject hrecords hposition
    have hsubs := agrees_subField hindex hentry hnode rfl hobject.1.nodup_keys hrow
      (mem_subFields hmem hsub)
    exact ih hlookup (Value.wellFormed_of_mem_members hobject.2 _ hmem) hsubs

/-- What becomes of a leaf with the stored forms of its row at hand. -/
theorem leaf_written {m : BlockMeta} {stored : Dict StoredValue} {leaf : IndexEntry} {t : String}
    {kind : FieldKind} {raw : Value} (hshape : leaf.node.shape = .leaf kind)
    (h : Agrees stored (fieldPath group t) (leafRecords index resolver group t kind raw)) :
    WrittenBack resolver kind raw
      (Flatten.value index stored group t leaf (value index resolver m t leaf raw)) := by
  rw [flatten_value_leaf hshape, value_leaf hshape, NodeType.shape_leaf hshape]
  refine ⟨?_, fun hswitch => leaf_restored hswitch h, fun hswitch hexact => ?_⟩
  · rintro rfl b rfl
    -- Nothing was recorded, so that the boolean counts as edited.
    have hsame : (Value.bool b == .bool b) = true := Value.same_self _
    have hget : stored.get? (fieldPath group t) = none := by
      rw [h _ (Under.refl _)]
      unfold leafRecords
      dsimp only [normalise, truthy]
      rw [if_pos hsame]
      rfl
    unfold Flatten.leaf
    rw [hget]
    rfl
  · rcases leaf_cases hswitch h with hback | ⟨hsame, hback⟩
    · exact hback
    · rw [hback]
      exact normalise_exact hexact hsame

/-! ## Leaves of what is written -/

/-- A row of a repeater, as it is written at a position. -/
def writtenAt (index : FlatIndex) (stored : Dict StoredValue) (group : Option FieldGroup)
    (trail : String) (entry : IndexEntry) (position : Nat) : Value → Value
  | .object members =>
    .object (Entries.ofList
      (Flatten.fields index stored group (rowTrail trail position) entry members))
  | v => v

/-- The rows of a repeater are written one by one, each at its own position. -/
theorem flatten_rows_getElem? {stored : Dict StoredValue} {trail : String} {entry : IndexEntry} :
    ∀ {items : List Value} {start i : Nat},
      (Flatten.rows index stored group trail entry start items)[i]? =
        items[i]?.map (writtenAt index stored group trail entry (start + i)) := by
  intro items
  induction items with
  | nil =>
    intro start i
    rw [Flatten.rows]
    rfl
  | cons item rest ih =>
    intro start i
    have hrows : Flatten.rows index stored group trail entry start (item :: rest) =
        writtenAt index stored group trail entry start item ::
          Flatten.rows index stored group trail entry (start + 1) rest := by
      cases item <;> simp only [Flatten.rows, writtenAt]
    rw [hrows]
    cases i with
    | zero => rfl
    | succ i =>
      rw [List.getElem?_cons_succ, List.getElem?_cons_succ, ih]
      congr 2
      omega

/-- What is written back of a clear object has the value of a sub-field under its id. -/
theorem subField_restored (hindex : index.Coherent) {m : BlockMeta} {stored : Dict StoredValue}
    {trail id : String} {parent sub : IndexEntry} {kind : FieldKind}
    {members : List (String × Value)} {v : Value}
    (hparent : index.lookup parent.key = some parent) (hnode : parent.node = .field kind)
    (hkind : kind.hasSubFields = true) (hgroup : parent.group = group)
    (hsorted : Entries.Sorted members) (hclear : Clear.fields index parent members)
    (hmem : (id, v) ∈ members) (hsub : index.childEntry? parent.key id = some sub) :
    (id, Flatten.value index stored group (subTrail trail sub.name) sub
        (value index resolver m (subTrail trail sub.name) sub v)) ∈
      Entries.ofList (Flatten.fields index stored group trail parent
        (Entries.ofList (fields index resolver m trail parent members))) := by
  subst hgroup
  rw [object_restored hindex hparent hnode hkind hsorted fun _ he =>
    (Clear.of_mem_fields hclear he).1]
  refine List.mem_map.mpr ⟨_, hmem, ?_⟩
  unfold restoredField
  rw [hsub]

/-- Where a clear value has a leaf, what is written back of it has what the leaf is written as. -/
theorem LeafAt.restored (hindex : index.Coherent) {m : BlockMeta} {stored : Dict StoredValue}
    {entry leaf : IndexEntry} {trail t : String} {v raw : Value}
    (h : LeafAt index entry trail v leaf t raw) (hentry : index.lookup entry.key = some entry)
    (hgroup : entry.group = group) (hwell : v.WellFormed) (hclear : Clear.value index entry v) :
    LeafAt index entry trail
      (Flatten.value index stored group trail entry (value index resolver m trail entry v)) leaf t
      (Flatten.value index stored group t leaf (value index resolver m t leaf raw)) := by
  induction h with
  | here hshape => exact .here hshape
  | @part entry sub leaf trail t id members v raw hnode hmem hsub _ ih =>
    have hshape : entry.node.shape = .fields := by rw [hnode]; rfl
    rw [Clear.value, hshape] at hclear
    have hsubgroup := (subField_found hindex hentry hnode rfl hsub).1.trans hgroup
    have hbelow := ih (hindex.lookup_key (FlatIndex.childEntry?_iff.mp hsub).1) hsubgroup
      (Value.wellFormed_of_mem_members hwell.2 _ hmem) ((Clear.of_mem_fields hclear hmem).2 _ hsub)
    rw [value, hshape, Flatten.value, hshape]
    exact .part hnode
      (subField_restored hindex hentry hnode rfl hgroup hwell.1 hclear hmem hsub) hsub hbelow
  | @row entry sub leaf trail t id items members v raw position hnode hitem hmem hsub _ ih =>
    have hshape : entry.node.shape = .rows := by rw [hnode]; rfl
    rw [Clear.value, hshape] at hclear
    have hrow := Clear.of_mem_rows hclear (List.mem_of_getElem? hitem)
    have hobject := Value.wellFormed_of_mem_items hwell _ (List.mem_of_getElem? hitem)
    have hsubgroup := (subField_found hindex hentry hnode rfl hsub).1.trans hgroup
    have hbelow := ih (hindex.lookup_key (FlatIndex.childEntry?_iff.mp hsub).1) hsubgroup
      (Value.wellFormed_of_mem_members hobject.2 _ hmem) ((Clear.of_mem_fields hrow hmem).2 _ hsub)
    rw [value, hshape, Flatten.value, hshape]
    refine .row position hnode ?_
      (subField_restored hindex hentry hnode rfl hgroup hobject.1 hrow hmem hsub) hsub hbelow
    rw [flatten_rows_getElem?, rows_getElem?, hitem, Nat.zero_add]
    rfl

theorem LeafAt.group_eq (hindex : index.Coherent) {entry leaf : IndexEntry} {trail t : String}
    {v raw : Value} (h : LeafAt index entry trail v leaf t raw)
    (hentry : index.lookup entry.key = some entry) : leaf.group = entry.group := by
  induction h with
  | here => rfl
  | part hnode _ hsub _ ih | row _ hnode _ _ hsub _ ih =>
    have hlookup := hindex.lookup_key (FlatIndex.childEntry?_iff.mp hsub).1
    exact (ih hlookup).trans (subField_found hindex hentry hnode rfl hsub).1

/-! ## Leaves of rows -/

/-- A row of a variant has a leaf in the field of an id. -/
def HasLeaf (index : FlatIndex) (key : String) (members : List (String × Value)) (id : String)
    (leaf : IndexEntry) (t : String) (raw : Value) : Prop :=
  ∃ v entry, (id, v) ∈ members ∧ member index key id = .field entry ∧
    LeafAt index entry entry.name v leaf t raw

/-- What becomes of a leaf of a row with the records of the row at hand. -/
theorem HasLeaf.written (hindex : index.Coherent) {m : BlockMeta} {variant leaf : IndexEntry}
    {row : List (String × Value)} {id t : String} {raw : Value} {kind : FieldKind}
    (h : HasLeaf index m.key row id leaf t raw) (hvariant : index.lookup m.key = some variant)
    (hnode : variant.node = .block) (hwell : (Value.object row).WellFormed)
    (hkind : leaf.node = .field kind) :
    WrittenBack resolver kind raw
      (Flatten.value index (.ofList (blockRecords index resolver m.key none row)) leaf.group t leaf
        (value index resolver m t leaf raw)) := by
  obtain ⟨v, entry, hmem, hmember, hleaf⟩ := h
  obtain ⟨hid, -⟩ := FlatIndex.childEntry?_iff.mp (member_field hmember)
  have hentry : index.lookup entry.key = some entry := hindex.lookup_key hid
  have hkey : variant.key = m.key := hindex.key hvariant
  have hlookup : index.lookup variant.key = some variant := by rwa [hkey]
  -- The field has its records in the envelope, and the leaf has its own among them.
  have hrow : (entry, v) ∈ rowFields index variant.key row := by
    rw [hkey]
    exact List.mem_filterMap.mpr ⟨(id, v), hmem, rowField?_eq_some.mpr ⟨hmember, rfl⟩⟩
  have hfield : Agrees (.ofList (blockRecords index resolver variant.key none row))
      (fieldPath entry.group entry.name)
      (records index resolver entry.group entry.name entry v) :=
    agrees_rowField hindex hlookup hnode hwell.1.nodup_keys hrow
  rw [hkey] at hfield
  obtain ⟨kind', hshape, hagrees⟩ := hleaf.agrees hindex hentry
    (Value.wellFormed_of_mem_members hwell.2 _ hmem) hfield
  obtain rfl := NodeType.field.inj (hkind.symm.trans (NodeType.shape_leaf hshape))
  rw [hleaf.group_eq hindex hentry]
  exact leaf_written hshape hagrees

section Row

variable {m : BlockMeta} {variant : IndexEntry} {members : List (String × Value)}
  {stored : Dict StoredValue} {envelope : Value}

/-- A clear row is written back member by member, but for its tag and its tabs. -/
theorem mem_clearMembers (hindex : index.Coherent) (hvariant : index.lookup m.key = some variant)
    (hnode : variant.node = .block) (hsorted : Entries.Sorted members)
    (hclear : Clear.block index m.key members) (hmeta : metaKey ∉ members.map (·.1))
    {x : String × Value} :
    x ∈ Flatten.blockMembers index { m with stored := stored }
        (Entries.insert metaKey envelope
          ((placements index resolver m none members).foldl Placement.put [])) ↔
      ∃ e ∈ members, (placement? index resolver m e).isSome = true ∧
        x = (e.1, restored index resolver m stored e) := by
  have hkey : ∀ e ∈ members, e.1 ≠ metaKey := fun e he heq =>
    hmeta (heq ▸ List.mem_map_of_mem he)
  have hplaced : ∀ e ∈ members, ∀ p, placement? index resolver m e = some p →
      p.Apart ∧ p.written index { m with stored := stored } =
        [(e.1, restored index resolver m stored e)] := by
    intro e he p hp
    refine written_of_placement hindex hp (hkey e he) fun hforeign => ?_
    obtain ⟨hname, hslot⟩ := (Clear.of_mem_block hclear he).1 hforeign
    exact ⟨hname, hindex.child?_eq_none.mpr hslot⟩
  have hapart : ∀ p ∈ members.filterMap (placement? index resolver m), p.Apart := by
    intro p hp
    obtain ⟨e, he, hpe⟩ := List.mem_filterMap.mp hp
    exact (hplaced e he p hpe).1
  have hslot : (none, metaKey) ∉
      (members.filterMap (placement? index resolver m)).map Placement.slot := by
    intro hmem
    obtain ⟨p, hp, hslot⟩ := List.mem_map.mp hmem
    obtain ⟨e, he, hpe⟩ := List.mem_filterMap.mp hp
    exact placement_slot_ne hpe (hkey e he) hslot
  rw [placements_eq hindex hvariant hnode, (foldl_put_written hapart
    (placements_nodup hindex hsorted.nodup_keys) hslot).mem_iff, List.mem_flatMap]
  constructor
  · rintro ⟨p, hp, hx⟩
    obtain ⟨e, he, hpe⟩ := List.mem_filterMap.mp hp
    rw [(hplaced e he p hpe).2, List.mem_singleton] at hx
    exact ⟨e, he, Option.isSome_iff_exists.mpr ⟨p, hpe⟩, hx⟩
  · rintro ⟨e, he, hsome, rfl⟩
    obtain ⟨p, hpe⟩ := Option.isSome_iff_exists.mp hsome
    refine ⟨p, List.mem_filterMap.mpr ⟨e, he, hpe⟩, ?_⟩
    rw [(hplaced e he p hpe).2]
    exact List.mem_singleton_self _

/-- What is written back of a clear row has the value of a field under its id. -/
theorem field_restored (hindex : index.Coherent) (hvariant : index.lookup m.key = some variant)
    (hnode : variant.node = .block) (hsorted : Entries.Sorted members)
    (hclear : Clear.block index m.key members) (hmeta : metaKey ∉ members.map (·.1))
    {entry : IndexEntry} {v : Value} {tag id : String} (he : (id, v) ∈ members)
    (hmember : member index m.key id = .field entry) :
    (id, Flatten.value index stored entry.group entry.name entry
        (value index resolver m entry.name entry v)) ∈
      Entries.ofList ((variantTag, .string tag) ::
        Flatten.blockMembers index { m with stored := stored }
          (Entries.insert metaKey envelope
            ((placements index resolver m none members).foldl Placement.put []))) := by
  obtain ⟨⟨g, hg⟩, -⟩ := field_named hindex hvariant hnode hmember
  have hplaced : (placement? index resolver m (id, v)).isSome = true := by
    unfold placement?
    rw [hmember]
    dsimp only
    rw [hg]
    rfl
  have hrestored : restored index resolver m stored (id, v) =
      Flatten.value index stored entry.group entry.name entry
        (value index resolver m entry.name entry v) := by
    unfold restored
    rw [hmember]
  obtain ⟨hid, -⟩ := FlatIndex.childEntry?_iff.mp (member_field hmember)
  refine Entries.mem_of_get? ?_
  rw [Entries.get?_ofList]
  refine Entries.last?_eq_some (List.mem_cons_of_mem _
    ((mem_clearMembers hindex hvariant hnode hsorted hclear hmeta).mpr
      ⟨(id, v), he, hplaced, by rw [hrestored]⟩)) fun w hw => ?_
  -- Nothing else is written under the id: neither the tag nor another member has it.
  rcases List.mem_cons.mp hw with htag | hw
  · exact absurd (Prod.mk.inj htag).1 (hindex.id_ne hid).2
  · obtain ⟨⟨id', v'⟩, he', -, heq⟩ :=
      (mem_clearMembers hindex hvariant hnode hsorted hclear hmeta).mp hw
    obtain ⟨rfl, rfl⟩ := Prod.mk.inj heq
    have hget := hsorted.get?_of_mem he
    rw [hsorted.get?_of_mem he'] at hget
    obtain rfl := Option.some.inj hget
    exact hrestored

/-- Where a clear row has a leaf, what is written back of it has what the leaf is written as. -/
theorem HasLeaf.restored (hindex : index.Coherent) {leaf : IndexEntry} {tag id t : String}
    {raw : Value} (h : HasLeaf index m.key members id leaf t raw)
    (hvariant : index.lookup m.key = some variant) (hnode : variant.node = .block)
    (hwell : (Value.object members).WellFormed) (hclear : Clear.block index m.key members)
    (hmeta : metaKey ∉ members.map (·.1)) :
    HasLeaf index m.key (Entries.ofList ((variantTag, .string tag) ::
        Flatten.blockMembers index { m with stored := stored }
          (Entries.insert metaKey envelope
            ((placements index resolver m none members).foldl Placement.put [])))) id leaf t
      (Flatten.value index stored leaf.group t leaf (value index resolver m t leaf raw)) := by
  obtain ⟨v, entry, hmem, hmember, hleaf⟩ := h
  obtain ⟨hid, -⟩ := FlatIndex.childEntry?_iff.mp (member_field hmember)
  have hentry : index.lookup entry.key = some entry := hindex.lookup_key hid
  refine ⟨_, entry, field_restored hindex hvariant hnode hwell.1 hclear hmeta hmem hmember,
    hmember, ?_⟩
  rw [hleaf.group_eq hindex hentry]
  exact hleaf.restored hindex hentry rfl (Value.wellFormed_of_mem_members hwell.2 _ hmem)
    ((Clear.of_mem_block hclear hmem).2 _ hmember)

end Row

end Rehydrate

/-- Every leaf of a row of a variant is written back as it was stored, but for booleans that were
stored in switches: they come back as numbers. This is so for the value that was read and the
envelope of the block, whatever else the row holds, and it is so where the leaf stood in the row if
the keys of the row clash with nothing. -/
theorem leaf_written_back {definitions : Definitions} {resources : Resources}
    {registry : Registry} {now : Instant} {schema : CompiledSchema} {resolver : Resolver}
    {m : BlockMeta} {variant : IndexEntry} {row : List (String × Value)}
    (hbuilt : Gives (Registry.build definitions resources) registry)
    (hcompiled : Gives (compile registry now) schema) (hresolver : resolver.WellFormed)
    (hvariant : schema.index.lookup m.key = some variant) (hnode : variant.node = .block)
    (hposition : m.index < 18446744073709551616) (hwell : (Value.object row).WellFormed) :
    (∃ envelope,
      BlockMeta.ofData? (rehydrateRow schema.index resolver m row).value = some envelope ∧
        ∀ id leaf t raw kind, Rehydrate.HasLeaf schema.index m.key row id leaf t raw →
          leaf.node = .field kind →
          WrittenBack resolver kind raw
            (Flatten.value schema.index envelope.stored leaf.group t leaf
              (Rehydrate.value schema.index resolver m t leaf raw))) ∧
    (metaKey ∉ row.map (·.1) → Clear.block schema.index m.key row →
      ∃ flat,
        (flattenBlock schema.index (rehydrateRow schema.index resolver m row).value).value =
            .object flat ∧
          ∀ id leaf t raw kind, Rehydrate.HasLeaf schema.index m.key row id leaf t raw →
            leaf.node = .field kind →
            ∃ written, Rehydrate.HasLeaf schema.index m.key flat id leaf t written ∧
              WrittenBack resolver kind raw written) := by
  have hindex : schema.index.Coherent := (compile_follows hbuilt hcompiled).coherent
  let stored : Dict StoredValue :=
    .ofList (Rehydrate.blockRecords schema.index resolver m.key none row)
  have hrecords : BlockMeta.WellFormed { m with stored := stored } := fun r hr =>
    Rehydrate.blockRecords_wellFormed hresolver hwell.2 (Entries.mem_ofList hr)
  have hback : ∀ id leaf t raw kind, Rehydrate.HasLeaf schema.index m.key row id leaf t raw →
      leaf.node = .field kind → WrittenBack resolver kind raw
        (Flatten.value schema.index stored leaf.group t leaf
          (Rehydrate.value schema.index resolver m t leaf raw)) := by
    intro id leaf t raw kind hleaf hkind
    exact hleaf.written hindex hvariant hnode hwell hkind
  refine ⟨⟨_, BlockMeta.ofMembers?_insert hrecords hposition, hback⟩, fun hmeta hclear => ?_⟩
  have hflat : Flatten.block schema.index (Rehydrate.row schema.index resolver m row) =
      .object (Entries.ofList ((variantTag,
          .string (BlockMeta.storedTag { m with stored := stored })) ::
        Flatten.blockMembers schema.index { m with stored := stored }
          (Entries.insert metaKey (BlockMeta.toValue { m with stored := stored })
            ((Rehydrate.placements schema.index resolver m none row).foldl
              Rehydrate.Placement.put [])))) := by
    unfold Rehydrate.row Rehydrate.assemble
    rw [Flatten.block, BlockMeta.ofMembers?_insert hrecords hposition]
  exact ⟨_, hflat, fun id leaf t raw kind hleaf hkind =>
    ⟨_, hleaf.restored hindex hvariant hnode hwell hclear hmeta,
      hback id leaf t raw kind hleaf hkind⟩⟩

/-- A page of lamps, each with a switch and a timer. -/
def lampDefinitions : Definitions :=
  let minutes : FieldSlot := .literal ⟨some "minutes", { type := "number" }, []⟩
  { settings := { coreFields := false }
    blocks := .ofList [("lamp",
      { content := [.literal ⟨some "lit", { type := "true_false" }, []⟩,
          .literal ⟨some "timer", { type := "group" }, [minutes]⟩] })]
    layouts := .ofList [("page", {})] }

def lampRegistry : Registry := (Registry.build lampDefinitions .empty).result

def lampSchema : CompiledSchema := (compile lampRegistry default).result

/-- A timer that has its minutes as a text. -/
def lampTimer : Value := .object [("field_5a6a695e051974ee9a381e5f3de9dd2c", .string "15")]

/-- A lamp with its timer, and with whatever its switch is stored as. -/
def lampRow (lit : Value) : List (String × Value) :=
  [("acf_fc_layout", .string "lamp"), ("field_93b18689d12427daaba708b32c0c6d72", lampTimer),
    ("field_e1a9cb788544091c7f1a7e284f6bf911", lit)]

def lampMeta : BlockMeta :=
  { layout := "page", block := "lamp", key := "block_90af1ecbed2c5a7f85c2e13b15c52318"
    tag := "lamp", index := 0, parent := "page" }

/-- The minutes of a lamp are read as a number and written back as the text that they were. -/
theorem minutes_written_back :
    let row := lampRow (.string "1")
    ∃ flat leaf t,
      (flattenBlock lampSchema.index
        (rehydrateRow lampSchema.index .none lampMeta row).value).value = .object flat ∧
      Rehydrate.value lampSchema.index .none lampMeta t leaf (.string "15") = .int 15 ∧
      Rehydrate.HasLeaf lampSchema.index lampMeta.key flat
        "field_93b18689d12427daaba708b32c0c6d72" leaf t (.string "15") := by
  intro row
  -- One evaluation for all: the kernel compiles the definitions once.
  obtain ⟨hbuilt, hcompiled, ⟨variant, hvariant, hnode⟩, hstorable, p, hp, hgroup, leaf, hleaf,
      hkind⟩ :
      (Registry.build lampDefinitions .empty).run.value.toOption.isSome = true ∧
        (compile lampRegistry default).run.value.toOption.isSome = true ∧
        (∃ variant ∈ lampSchema.index.lookup lampMeta.key, variant.node = .block) ∧
        @decide _ (Storable.decideBlock lampSchema.index lampMeta.key
          (lampRow (.string "1"))) = true ∧
        ∃ p ∈ Rehydrate.rowField? lampSchema.index lampMeta.key
            ("field_93b18689d12427daaba708b32c0c6d72", lampTimer),
          p.1.node = .field .group ∧
            ∃ leaf ∈ lampSchema.index.childEntry? p.1.key
              "field_5a6a695e051974ee9a381e5f3de9dd2c", leaf.node = .field .number := by
    decide +kernel
  have hbuilt : Gives (Registry.build lampDefinitions .empty) lampRegistry := gives_result hbuilt
  have hcompiled : Gives (compile lampRegistry default) lampSchema := gives_result hcompiled
  have hwell : (Value.object row).WellFormed :=
    ⟨by decide, trivial, ⟨⟨by decide, trivial, trivial⟩, trivial, trivial⟩⟩
  have hclear : Clear.block lampSchema.index lampMeta.key row :=
    Storable.block_clear (compile_follows hbuilt hcompiled).coherent hvariant hnode
      (@of_decide_eq_true _ (Storable.decideBlock ..) hstorable)
  have hposition : lampMeta.index < 18446744073709551616 := by decide
  have hmeta : metaKey ∉ row.map (·.1) := by decide
  have hshape : leaf.node.shape = .leaf .number := by
    rw [hkind]
    rfl
  have hat : Rehydrate.HasLeaf lampSchema.index lampMeta.key row
      "field_93b18689d12427daaba708b32c0c6d72" leaf (subTrail p.1.name leaf.name)
      (.string "15") :=
    ⟨lampTimer, p.1, .tail _ (.head _), (Rehydrate.rowField?_eq_some.mp hp).1,
      .part hgroup (List.mem_singleton.mpr rfl) hleaf (.here hshape)⟩
  obtain ⟨flat, hflat, hback⟩ := (leaf_written_back hbuilt hcompiled Resolver.none_wellFormed
    hvariant hnode hposition hwell).2 hmeta hclear
  obtain ⟨written, hwritten, hsame⟩ := hback _ _ _ _ _ hat hkind
  obtain rfl : written = .string "15" := hsame.same nofun nofun
  refine ⟨flat, leaf, _, hflat, ?_, hwritten⟩
  rw [Rehydrate.value_leaf hshape]
  rfl

/-- What a page of one lamp comes back as, with nothing edited. -/
def lampBack (lit : Value) : List Value :=
  (flattenLayout lampSchema.index
    (rehydrateLayout lampSchema.index .none "page" [.object (lampRow lit)]).value).value

/-- A switch that was stored as a boolean comes back as a number. -/
theorem switch_comes_back_as_number :
    Gives (Registry.build lampDefinitions .empty) lampRegistry ∧
      Gives (compile lampRegistry default) lampSchema ∧
      (lampBack (.bool true) == [.object (lampRow (.int 1))]) = true ∧
      (lampBack (.bool true) == [.object (lampRow (.bool true))]) = false := by
  obtain ⟨hbuilt, hcompiled, hback⟩ :
      (Registry.build lampDefinitions .empty).run.value.toOption.isSome = true ∧
        (compile lampRegistry default).run.value.toOption.isSome = true ∧
        (lampBack (.bool true) == [.object (lampRow (.int 1))]) = true ∧
        (lampBack (.bool true) == [.object (lampRow (.bool true))]) = false := by
    decide +kernel
  exact ⟨gives_result hbuilt, gives_result hcompiled, hback⟩

end PageBlocks
