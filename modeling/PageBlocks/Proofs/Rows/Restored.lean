import PageBlocks.Proofs.Rows.Placing
import PageBlocks.Proofs.Rows.Records

/-!
# Values, objects and rows, read and written back

What becomes of the parts of a row on the way to blocks and back, one level at a
time. A value gets its stored form back. An object of sub-fields and a row of a
variant keep their members, because no two fields share a slot and an id is
found again by the name that it was read under; what stands under each id is the
value that was there, read and written back.

> `object_restored`, `row_restored`: the members of an object or a row, with
> each value read and written back.
-/

namespace PageBlocks

namespace NodeType

theorem shape_rows {node : NodeType} (h : node.shape = .rows) : node = .field .repeater := by
  cases node with
  | layout => cases h
  | block => cases h
  | field kind => cases kind <;> first | rfl | cases h

theorem shape_fields {node : NodeType} (h : node.shape = .fields) : node = .field .group := by
  cases node with
  | layout => cases h
  | block => cases h
  | field kind => cases kind <;> first | rfl | cases h

theorem shape_leaf {node : NodeType} {kind : FieldKind} (h : node.shape = .leaf kind) :
    node = .field kind := by
  cases node with
  | layout => cases h
  | block => cases h
  | field found => cases found <;> cases h <;> rfl

theorem shape_bare {node : NodeType} (h : node.shape = .bare) : node = .block := by
  cases node with
  | layout => cases h
  | block => rfl
  | field kind => cases kind <;> cases h

end NodeType

namespace Rehydrate

variable {index : FlatIndex} {resolver : Resolver}

/-! ## Rows at their positions -/

/-- Rows of a collection are read one by one, each at its own position. -/
theorem variantRows_getElem? {layout parent collection : String} :
    ∀ {rows : List Value} {start i : Nat},
      (variantRows index resolver layout parent collection start rows)[i]? =
        rows[i]?.map (variantRow index resolver layout parent collection (start + i)) := by
  intro rows
  induction rows with
  | nil =>
    intro start i
    rw [variantRows]
    rfl
  | cons row rest ih =>
    intro start i
    rw [variantRows]
    cases i with
    | zero => rfl
    | succ i =>
      rw [List.getElem?_cons_succ, List.getElem?_cons_succ, ih]
      congr 2
      omega

/-- A row of a repeater, as it is read at a position. -/
def readRow (index : FlatIndex) (resolver : Resolver) (m : BlockMeta) (trail : String)
    (entry : IndexEntry) (position : Nat) : Value → Value
  | .object members =>
    .object (Entries.ofList
      (fields index resolver m (rowTrail trail position) entry members))
  | v => v

/-- The rows of a repeater are read one by one, each at its own position. -/
theorem rows_getElem? {m : BlockMeta} {trail : String} {entry : IndexEntry} :
    ∀ {items : List Value} {start i : Nat},
      (rows index resolver m trail entry start items)[i]? =
        items[i]?.map (readRow index resolver m trail entry (start + i)) := by
  intro items
  induction items with
  | nil =>
    intro start i
    rw [rows]
    rfl
  | cons item rest ih =>
    intro start i
    have hrows : rows index resolver m trail entry start (item :: rest) =
        readRow index resolver m trail entry start item ::
          rows index resolver m trail entry (start + 1) rest := by
      cases item <;> simp only [rows, readRow]
    rw [hrows]
    cases i with
    | zero => rfl
    | succ i =>
      rw [List.getElem?_cons_succ, List.getElem?_cons_succ, ih]
      congr 2
      omega

/-! ## A single value -/

theorem value_leaf {m : BlockMeta} {trail : String} {entry : IndexEntry} {kind : FieldKind}
    {v : Value} (hshape : entry.node.shape = .leaf kind) :
    value index resolver m trail entry v = normalise resolver kind v := by
  cases v <;> simp only [value, hshape]

theorem records_of_leaf {group : Option FieldGroup} {trail : String} {entry : IndexEntry}
    {kind : FieldKind} {v : Value} (hshape : entry.node.shape = .leaf kind) :
    records index resolver group trail entry v =
      leafRecords index resolver group trail kind v := by
  cases v <;> simp only [records, hshape]

theorem flatten_value_leaf {stored : Dict StoredValue} {group : Option FieldGroup}
    {trail : String} {entry : IndexEntry} {kind : FieldKind}
    (hshape : entry.node.shape = .leaf kind) (v : Value) :
    Flatten.value index stored group trail entry v =
      Flatten.leaf stored (fieldPath group trail) entry.node v := by
  cases v <;> simp only [Flatten.value, hshape]

/-- A boolean is equal to no other value. -/
theorem eq_bool_of_beq {v : Value} {b : Bool} (h : (v == .bool b) = true) : v = .bool b := by
  have hsame : Value.same v (.bool b) = true := h
  cases v with
  | bool b' => rw [beq_iff_eq.mp (show (b' == b) = true from hsame)]
  | _ => cases hsame

/-- A leaf is written back in its recorded form, or as it was read if reading did not change it. -/
theorem leaf_cases {stored : Dict StoredValue} {group : Option FieldGroup} {trail : String}
    {kind : FieldKind} {v : Value} (hswitch : kind = .trueFalse → ∀ b, v ≠ .bool b)
    (h : Agrees stored (fieldPath group trail) (leafRecords index resolver group trail kind v)) :
    Flatten.leaf stored (fieldPath group trail) (.field kind) (normalise resolver kind v) = v ∨
      (v == normalise resolver kind v) = true ∧
        Flatten.leaf stored (fieldPath group trail) (.field kind) (normalise resolver kind v) =
          normalise resolver kind v := by
  have hget := h _ (Under.refl _)
  unfold leafRecords at hget
  dsimp only at hget
  unfold Flatten.leaf
  rw [hget]
  by_cases hsame : (v == normalise resolver kind v) = true
  · refine .inr ⟨hsame, ?_⟩
    rw [if_pos hsame]
    dsimp only [Entries.last?, Option.filter_none]
    split
    next b hnode hvalue =>
      -- A switch is read as a boolean, so only a boolean is read as itself.
      obtain rfl : kind = .trueFalse := NodeType.field.inj hnode
      rw [hvalue] at hsame
      exact absurd (eq_bool_of_beq hsame) (hswitch rfl b)
    next => rfl
  · refine .inl ?_
    rw [if_neg hsame]
    -- The record is trusted because the value is still the one that was read.
    have hself : (normalise resolver kind v == normalise resolver kind v) = true :=
      Value.same_self _
    have hlast : Entries.last? (fieldPath group trail)
        [(fieldPath group trail, (⟨v, normalise resolver kind v⟩ : StoredValue))] =
          some ⟨v, normalise resolver kind v⟩ := by
      rw [Entries.last?, if_pos rfl]
      rfl
    rw [hlast, Option.filter_some, if_pos hself]

/-- The stored form of a value is found again, or reading did not change it. -/
theorem leaf_restored {stored : Dict StoredValue} {group : Option FieldGroup} {trail : String}
    {kind : FieldKind} {v : Value} (hswitch : kind = .trueFalse → ∀ b, v ≠ .bool b)
    (h : Agrees stored (fieldPath group trail) (leafRecords index resolver group trail kind v)) :
    Value.same (Flatten.leaf stored (fieldPath group trail) (.field kind)
      (normalise resolver kind v)) v = true := by
  rcases leaf_cases hswitch h with hback | ⟨hsame, hback⟩
  · rw [hback]
    exact Value.same_self v
  · rw [hback]
    exact Value.same_symm hsame

/-- A value that is no array and no object is written back as it was. -/
theorem scalar_restored {m : BlockMeta} {stored : Dict StoredValue} {trail : String}
    {entry : IndexEntry} {kind : FieldKind} {v : Value} (hnode : entry.node = .field kind)
    (hswitch : kind = .trueFalse → ∀ b, v ≠ .bool b) (hitems : ∀ items, v ≠ .array items)
    (hmembers : ∀ members, v ≠ .object members)
    (h : Agrees stored (fieldPath entry.group trail)
      (records index resolver entry.group trail entry v)) :
    Value.same (Flatten.value index stored entry.group trail entry
      (value index resolver m trail entry v)) v = true := by
  cases hshape : entry.node.shape with
  | leaf kind' =>
    obtain rfl := NodeType.field.inj (hnode.symm.trans (NodeType.shape_leaf hshape))
    rw [records_of_leaf hshape] at h
    rw [value_leaf hshape, flatten_value_leaf hshape, hnode]
    exact leaf_restored hswitch h
  | bare => rw [NodeType.shape_bare hshape] at hnode; cases hnode
  | _ =>
    have hvalue : value index resolver m trail entry v = v := by
      cases v with
      | array items => exact absurd rfl (hitems items)
      | object members => exact absurd rfl (hmembers members)
      | _ => simp only [value, hshape]
    have hback : Flatten.value index stored entry.group trail entry v = v := by
      cases v with
      | array items => exact absurd rfl (hitems items)
      | object members => exact absurd rfl (hmembers members)
      | _ => simp only [Flatten.value, hshape]
    rw [hvalue, hback]
    exact Value.same_self v

/-! ## Objects of sub-fields -/

/-- A member of an object of sub-fields, read and written back. -/
def restoredField (index : FlatIndex) (resolver : Resolver) (m : BlockMeta)
    (stored : Dict StoredValue) (trail : String) (parent : IndexEntry) (e : String × Value) :
    Value :=
  match index.childEntry? parent.key e.1 with
  | some entry =>
    Flatten.value index stored parent.group (subTrail trail entry.name) entry
      (value index resolver m (subTrail trail entry.name) entry e.2)
  | none => e.2

/-- A member of an object of sub-fields under the name that it is read with. -/
def readField (index : FlatIndex) (resolver : Resolver) (m : BlockMeta) (trail : String)
    (parent : IndexEntry) (e : String × Value) : String × Value :=
  match index.childEntry? parent.key e.1 with
  | some entry => (entry.name, value index resolver m (subTrail trail entry.name) entry e.2)
  | none => e

/-- A member of an object of sub-fields under the id that it is written back with. -/
def writtenField (index : FlatIndex) (stored : Dict StoredValue) (trail : String)
    (parent : IndexEntry) (e : String × Value) : String × Value :=
  match index.child? parent.key parent.group e.1 with
  | some entry =>
    (entry.key, Flatten.value index stored parent.group (subTrail trail e.1) entry e.2)
  | none => e

theorem fields_eq_map {m : BlockMeta} {trail : String} {parent : IndexEntry}
    (members : List (String × Value)) :
    fields index resolver m trail parent members =
      members.map (readField index resolver m trail parent) := by
  induction members with
  | nil =>
    rw [fields]
    rfl
  | cons e rest ih =>
    rw [fields, ih, List.map_cons]
    rfl

theorem flatten_fields_eq_map {stored : Dict StoredValue} {trail : String}
    {parent : IndexEntry} (members : List (String × Value)) :
    Flatten.fields index stored parent.group trail parent members =
      members.map (writtenField index stored trail parent) := by
  induction members with
  | nil =>
    rw [Flatten.fields]
    rfl
  | cons e rest ih =>
    rw [Flatten.fields, ih, List.map_cons]
    rfl

/-- No member of a storable object stands under the name of a sub-field. -/
theorem childKey_none {parent : IndexEntry} :
    ∀ {members : List (String × Value)}, Storable.fields index parent members →
      ∀ e ∈ members, index.childKey parent.key parent.group e.1 = none
  | [], _, _, he => absurd he List.not_mem_nil
  | (id, raw) :: rest, h, e, he => by
    rw [Storable.fields] at h
    rcases List.mem_cons.mp he with rfl | he
    · exact h.1
    · exact childKey_none h.2.2 e he

section Object

variable {m : BlockMeta} {stored : Dict StoredValue} {trail : String} {parent : IndexEntry}
  {kind : FieldKind} {members : List (String × Value)}

/-- The sub-field of an id is found by its name, in the group of the field around it. -/
theorem subField_found (hindex : index.Coherent) (hparent : index.lookup parent.key = some parent)
    (hnode : parent.node = .field kind) (hkind : kind.hasSubFields = true) {id : String}
    {e : IndexEntry} (he : index.childEntry? parent.key id = some e) :
    e.group = parent.group ∧ e.key = id ∧
      index.childKey parent.key parent.group e.name = some id ∧
      index.child? parent.key parent.group e.name = some e := by
  obtain ⟨hid, hbelow⟩ := FlatIndex.childEntry?_iff.mp he
  have hgroup := (hindex.below_row hparent hnode hkind hid hbelow).1
  rw [← hgroup]
  exact ⟨rfl, hindex.key hid, hindex.childKey_iff.mpr ⟨e, hid, hbelow, rfl⟩, hindex.child?_eq he⟩

/-- The name that a member is read under leads back to its id if it is a sub-field. -/
theorem childKey_readField (hindex : index.Coherent)
    (hparent : index.lookup parent.key = some parent) (hnode : parent.node = .field kind)
    (hkind : kind.hasSubFields = true) {e : String × Value}
    (hfree : index.childKey parent.key parent.group e.1 = none) :
    index.childKey parent.key parent.group (readField index resolver m trail parent e).1 =
      (index.childEntry? parent.key e.1).map fun _ => e.1 := by
  unfold readField
  cases hc : index.childEntry? parent.key e.1 with
  | none => exact hfree
  | some c => exact (subField_found hindex hparent hnode hkind hc).2.2.1

/-- No two members are read under one name. -/
theorem readField_nodup (hindex : index.Coherent)
    (hparent : index.lookup parent.key = some parent) (hnode : parent.node = .field kind)
    (hkind : kind.hasSubFields = true) (hsorted : Entries.Sorted members)
    (hfree : ∀ e ∈ members, index.childKey parent.key parent.group e.1 = none) :
    ((members.map (readField index resolver m trail parent)).map (·.1)).Nodup := by
  rw [List.map_map]
  refine List.pairwise_map.mpr ?_
  refine List.Pairwise.imp_of_mem ?_ (List.pairwise_map.mp hsorted.nodup_keys)
  intro e e' he he' hne hsame
  have hname : (readField index resolver m trail parent e).1 =
      (readField index resolver m trail parent e').1 := hsame
  -- The name leads back to both ids, or neither is that of a sub-field.
  have hids : ((index.childEntry? parent.key e.1).map fun _ => e.1) =
      (index.childEntry? parent.key e'.1).map fun _ => e'.1 := by
    rw [← childKey_readField hindex hparent hnode hkind (hfree e he), hname]
    exact childKey_readField hindex hparent hnode hkind (hfree e' he')
  unfold readField at hname
  cases hc : index.childEntry? parent.key e.1 with
  | none =>
    cases hc' : index.childEntry? parent.key e'.1 with
    | none =>
      rw [hc, hc'] at hname
      exact hne hname
    | some c' => rw [hc, hc'] at hids; cases hids
  | some c =>
    cases hc' : index.childEntry? parent.key e'.1 with
    | none => rw [hc, hc'] at hids; cases hids
    | some c' =>
      rw [hc, hc'] at hids
      exact hne (Option.some.inj hids)

/-- What is read under a name is written back under its id. -/
theorem writtenField_readField (hindex : index.Coherent)
    (hparent : index.lookup parent.key = some parent) (hnode : parent.node = .field kind)
    (hkind : kind.hasSubFields = true) {e : String × Value}
    (hfree : index.childKey parent.key parent.group e.1 = none) :
    writtenField index stored trail parent (readField index resolver m trail parent e) =
      (e.1, restoredField index resolver m stored trail parent e) := by
  unfold restoredField readField writtenField
  cases hc : index.childEntry? parent.key e.1 with
  | none =>
    have hchild : index.child? parent.key parent.group e.1 = none := by
      unfold FlatIndex.child?
      rw [hfree]
      rfl
    dsimp only
    rw [hchild]
  | some c =>
    obtain ⟨-, hkey, -, hchild⟩ := subField_found hindex hparent hnode hkind hc
    dsimp only
    rw [hchild]
    dsimp only
    rw [hkey]

/-- An object of sub-fields keeps its members, each with its value read and written back. -/
theorem object_restored (hindex : index.Coherent)
    (hparent : index.lookup parent.key = some parent) (hnode : parent.node = .field kind)
    (hkind : kind.hasSubFields = true) (hsorted : Entries.Sorted members)
    (hfree : ∀ e ∈ members, index.childKey parent.key parent.group e.1 = none) :
    Entries.ofList (Flatten.fields index stored parent.group trail parent
        (Entries.ofList (fields index resolver m trail parent members))) =
      members.map fun e => (e.1, restoredField index resolver m stored trail parent e) := by
  have hnames : ((members.map (readField index resolver m trail parent)).map (·.1)).Nodup :=
    readField_nodup hindex hparent hnode hkind hsorted hfree
  have hback : Entries.Sorted
      (members.map fun e => (e.1, restoredField index resolver m stored trail parent e)) :=
    List.pairwise_map.mpr hsorted
  rw [fields_eq_map, flatten_fields_eq_map]
  -- Names sort in another order than ids, so the members come back in their order only at the end.
  refine Entries.ofList_eq_of_perm hback (((Entries.ofList_perm hnames).map _).trans ?_)
  rw [List.map_map]
  exact List.Perm.of_eq (List.map_congr_left fun e he =>
    writtenField_readField hindex hparent hnode hkind (hfree e he))

end Object

/-! ## Rows of a variant -/

/-- A member of a row of a variant, read and written back. -/
def restored (index : FlatIndex) (resolver : Resolver) (m : BlockMeta)
    (stored : Dict StoredValue) (e : String × Value) : Value :=
  match member index m.key e.1 with
  | .field entry =>
    Flatten.value index stored entry.group entry.name entry
      (value index resolver m entry.name entry e.2)
  | _ => e.2

/-- What a member of a storable row of a variant is. -/
theorem block_member {key : String} :
    ∀ {members : List (String × Value)}, Storable.block index key members → ∀ e ∈ members,
      match member index key e.1 with
      | .tag => True
      | .foreign => FieldGroup.ofName? e.1 = none ∧ '/' ∉ e.1.toList
      | .tab _ => False
      | .field entry => Storable.value index entry e.2
  | [], _, _, he => absurd he List.not_mem_nil
  | (id, raw) :: rest, h, e, he => by
    rw [Storable.block] at h
    rcases List.mem_cons.mp he with rfl | he
    · exact h.1
    · exact block_member h.2 e he

/-- The placement of a member of a row of a variant. -/
def placement? (index : FlatIndex) (resolver : Resolver) (m : BlockMeta) (e : String × Value) :
    Option Placement :=
  match member index m.key e.1 with
  | .tag => none
  | .foreign => some (.plain e.1 e.2)
  | .tab _ => none
  | .field entry =>
    entry.group.map fun g => .grouped g entry.name (value index resolver m entry.name entry e.2)

section Block

variable {m : BlockMeta} {variant : IndexEntry} {members : List (String × Value)}

theorem placements_eq (hindex : index.Coherent) (hvariant : index.lookup m.key = some variant)
    (hnode : variant.node = .block) :
    ∀ (members : List (String × Value)) (opened : Option FieldGroup),
      placements index resolver m opened members =
        members.filterMap (placement? index resolver m)
  | [], opened => by rw [placements]; rfl
  | (id, raw) :: rest, opened => by
    have hrest := placements_eq hindex hvariant hnode rest
    rw [placements, List.filterMap_cons, placement?]
    dsimp only
    cases hmember : member index m.key id with
    | tag => exact hrest opened
    | foreign =>
      dsimp only
      rw [hrest]
    | tab group => exact hrest group
    | field entry =>
      obtain ⟨hid, hbelow⟩ := FlatIndex.childEntry?_iff.mp (member_field hmember)
      obtain ⟨⟨g, hg⟩, -, -⟩ := hindex.below_variant hvariant hnode hid hbelow
      dsimp only
      rw [hrest, hg]
      rfl

/-- A child of a variant never stands beside the groups. -/
theorem child?_foreign (hindex : index.Coherent) {key id : String}
    (hvariant : index.lookup key = some variant) (hnode : variant.node = .block)
    (hslash : '/' ∉ id.toList) : index.child? key none id = none := by
  unfold FlatIndex.child?
  cases hkey : index.childKey key none id with
  | none => rfl
  | some found =>
    obtain ⟨e, he, hparent, hslot⟩ := hindex.childKey_iff.mp hkey
    obtain ⟨⟨g, hg⟩, -, -⟩ := hindex.below_variant hvariant hnode he hparent
    rw [hg] at hslot
    -- The slot of a child of a variant is its group, a slash and its name.
    have hid : g.name ++ "/" ++ e.name = id := hslot
    rw [← hid] at hslash
    exact absurd (by simp) hslash

/-- A member beside the groups, which is not to be taken for one, is written back as it is. -/
theorem written_plain {id : String} {v : Value} (hmeta : id ≠ metaKey)
    (hname : FieldGroup.ofName? id = none ∨ ∀ inner, v ≠ .object inner)
    (hchild : index.child? m.key none id = none) :
    Placement.written index m (.plain id v) = [(id, v)] := by
  show Flatten.blockMembers index m [(id, v)] = _
  cases v <;>
    rw [Flatten.blockMembers, Flatten.blockMembers, List.append_nil, if_neg hmeta, hchild]
  case object members => rw [hname.resolve_right fun hno => hno members rfl]
  all_goals
    intro inner heq
    cases heq

/-- The value of a field in a group is written back under the id of the field. -/
theorem written_grouped (hindex : index.Coherent) {id : String} {entry : IndexEntry}
    {g : FieldGroup} {v : Value} (hchild : index.childEntry? m.key id = some entry)
    (hgroup : entry.group = some g) :
    Placement.written index m (.grouped g entry.name v) =
      [(id, Flatten.value index m.stored entry.group entry.name entry v)] := by
  have hfound := hindex.child?_eq hchild
  have hkey : entry.key = id := hindex.key (FlatIndex.childEntry?_iff.mp hchild).1
  show Flatten.groupMembers index m g [(entry.name, v)] = _
  rw [hgroup] at hfound ⊢
  rw [Flatten.groupMembers, Flatten.groupMembers, List.append_nil, hfound]
  dsimp only
  rw [hkey]

/-- A placement of a member is written back as the member is restored, if nothing beside the groups
is to be taken for one or for a field. -/
theorem written_of_placement (hindex : index.Coherent) {stored : Dict StoredValue}
    {e : String × Value} {p : Placement} (hp : placement? index resolver m e = some p)
    (hmeta : e.1 ≠ metaKey)
    (hforeign : member index m.key e.1 = .foreign →
      FieldGroup.ofName? e.1 = none ∧ index.child? m.key none e.1 = none) :
    p.Apart ∧ p.written index { m with stored := stored } =
      [(e.1, restored index resolver m stored e)] := by
  unfold placement? at hp
  unfold restored
  cases hm : member index m.key e.1 with
  | tag => rw [hm] at hp; cases hp
  | tab group => rw [hm] at hp; cases hp
  | foreign =>
    rw [hm] at hp
    obtain rfl := Option.some.inj hp
    obtain ⟨hname, hchild⟩ := hforeign hm
    exact ⟨hname, written_plain hmeta (.inl hname) hchild⟩
  | field entry =>
    rw [hm] at hp
    obtain ⟨g, hg, rfl⟩ := Option.map_eq_some_iff.mp hp
    exact ⟨trivial, written_grouped hindex (member_field hm) hg⟩

/-- A member other than the name of the variant has a placement, which is written back as the
member is restored. -/
theorem placement_written (hindex : index.Coherent) {stored : Dict StoredValue}
    {e : String × Value} (hvariant : index.lookup m.key = some variant)
    (hnode : variant.node = .block) (hstorable : Storable.block index m.key members)
    (hmeta : metaKey ∉ members.map (·.1)) (he : e ∈ members) (htag : e.1 ≠ variantTag) :
    ∃ p, placement? index resolver m e = some p ∧ p.Apart ∧
      p.written index { m with stored := stored } =
        [(e.1, restored index resolver m stored e)] := by
  have hne : e.1 ≠ metaKey := fun heq => hmeta (heq ▸ List.mem_map_of_mem he)
  have hmember := block_member hstorable e he
  have hplaced : ∃ p, placement? index resolver m e = some p := by
    unfold placement?
    cases hm : member index m.key e.1 with
    | tag =>
      unfold member at hm
      rw [if_neg htag] at hm
      split at hm
      next => cases hm
      next => split at hm <;> cases hm
    | foreign => exact ⟨_, rfl⟩
    | tab group =>
      rw [hm] at hmember
      exact hmember.elim
    | field entry =>
      obtain ⟨hid, hbelow⟩ := FlatIndex.childEntry?_iff.mp (member_field hm)
      obtain ⟨⟨g, hg⟩, -, -⟩ := hindex.below_variant hvariant hnode hid hbelow
      dsimp only
      rw [hg]
      exact ⟨_, rfl⟩
  obtain ⟨p, hp⟩ := hplaced
  refine ⟨p, hp, written_of_placement hindex hp hne fun hm => ?_⟩
  rw [hm] at hmember
  exact ⟨hmember.1, child?_foreign hindex hvariant hnode hmember.2⟩

/-- A placement is that of a field, in a group and by name, or of what is no field, as it is. -/
theorem placement?_cases {e : String × Value} {p : Placement}
    (hp : placement? index resolver m e = some p) :
    p = .plain e.1 e.2 ∨
      ∃ entry g, index.childEntry? m.key e.1 = some entry ∧ entry.group = some g ∧
        p = .grouped g entry.name (value index resolver m entry.name entry e.2) := by
  unfold placement? at hp
  cases hm : member index m.key e.1 with
  | tag => rw [hm] at hp; cases hp
  | tab group => rw [hm] at hp; cases hp
  | foreign =>
    rw [hm] at hp
    exact .inl (Option.some.inj hp).symm
  | field entry =>
    rw [hm] at hp
    obtain ⟨g, hg, rfl⟩ := Option.map_eq_some_iff.mp hp
    exact .inr ⟨entry, g, member_field hm, hg, rfl⟩

/-- Only a member with that key is placed beside the groups under a key. -/
theorem placement_slot_ne {e : String × Value} {p : Placement} {key : String}
    (hp : placement? index resolver m e = some p) (hne : e.1 ≠ key) : p.slot ≠ (none, key) := by
  intro hslot
  rcases placement?_cases hp with rfl | ⟨entry, g, -, -, rfl⟩
  · exact hne (Prod.mk.inj hslot).2
  · cases (Prod.mk.inj hslot).1

/-- The placements of a row of a variant share no slot. -/
theorem placements_nodup (hindex : index.Coherent) (hkeys : (members.map (·.1)).Nodup) :
    ((members.filterMap (placement? index resolver m)).map Placement.slot).Nodup := by
  refine List.pairwise_map.mpr (List.Pairwise.filterMap _ ?_ (List.pairwise_map.mp hkeys))
  intro e e' hne p hp p' hp' hslot
  rcases placement?_cases hp with rfl | ⟨entry, g, hentry, hg, rfl⟩
  · rcases placement?_cases hp' with rfl | ⟨entry', g', -, -, rfl⟩
    · exact hne (Prod.mk.inj hslot).2
    · cases (Prod.mk.inj hslot).1
  · rcases placement?_cases hp' with rfl | ⟨entry', g', hentry', hg', rfl⟩
    · cases (Prod.mk.inj hslot).1
    · -- Two fields in one slot would have one id.
      obtain ⟨hgroup, hname⟩ := Prod.mk.inj hslot
      refine hne (hindex.id_eq hentry hentry' ?_)
      rw [hg, hg', hgroup, hname]

/-- Every member of a row but the name of the variant is written back as it is restored. -/
theorem flatMap_written (hindex : index.Coherent) {stored : Dict StoredValue}
    (hvariant : index.lookup m.key = some variant) (hnode : variant.node = .block)
    (hstorable : Storable.block index m.key members) (hmeta : metaKey ∉ members.map (·.1)) :
    ∀ {rest : List (String × Value)}, (∀ e ∈ rest, e ∈ members ∧ e.1 ≠ variantTag) →
      (rest.filterMap (placement? index resolver m)).flatMap
          (Placement.written index { m with stored := stored }) =
        rest.map fun e => (e.1, restored index resolver m stored e)
  | [], _ => rfl
  | e :: rest, h => by
    obtain ⟨he, htag⟩ := h e (List.mem_cons_self ..)
    obtain ⟨p, hp, -, hwritten⟩ :
        ∃ p, placement? index resolver m e = some p ∧ p.Apart ∧
          p.written index { m with stored := stored } =
            [(e.1, restored index resolver m stored e)] :=
      placement_written hindex hvariant hnode hstorable hmeta he htag
    rw [List.filterMap_cons_some hp, List.flatMap_cons, List.map_cons, hwritten,
      flatMap_written hindex hvariant hnode hstorable hmeta fun e' he' =>
        h e' (List.mem_cons_of_mem _ he')]
    rfl

/-- A row of a variant keeps its members, each with its value read and written back. -/
theorem members_restored (hindex : index.Coherent) {stored : Dict StoredValue} {v : Value}
    (hvariant : index.lookup m.key = some variant) (hnode : variant.node = .block)
    (hsorted : Entries.Sorted members) (hstorable : Storable.block index m.key members)
    (hmeta : metaKey ∉ members.map (·.1))
    (htag : Entries.get? variantTag members = some (.string m.tag)) :
    Entries.ofList ((variantTag, .string m.tag) ::
        Flatten.blockMembers index { m with stored := stored }
          (Entries.insert metaKey v ((placements index resolver m none members).foldl
            Placement.put []))) =
      members.map fun e => (e.1, restored index resolver m stored e) := by
  have hback : Entries.Sorted
      (members.map fun e => (e.1, restored index resolver m stored e)) :=
    List.pairwise_map.mpr hsorted
  -- The tag is written first and the other members follow in the order of their placements.
  obtain ⟨rest, hperm, -⟩ := Entries.insert_perm_of_mem (v := .string m.tag) hsorted
    (Entries.mem_of_get? htag)
  have hkeys : (((variantTag, Value.string m.tag) :: rest).map (·.1)).Nodup :=
    (hperm.map (·.1)).nodup_iff.mp hsorted.nodup_keys
  have hrest : ∀ e ∈ rest, e ∈ members ∧ e.1 ≠ variantTag := by
    intro e he
    refine ⟨hperm.mem_iff.mpr (List.mem_cons_of_mem _ he), fun heq => ?_⟩
    rw [List.map_cons, List.nodup_cons] at hkeys
    exact hkeys.1 (List.mem_map.mpr ⟨e, he, heq⟩)
  have hplacement : ∀ p ∈ members.filterMap (placement? index resolver m),
      p.Apart ∧ p.slot ≠ (none, metaKey) := by
    intro p hp
    obtain ⟨e, he, hpe⟩ := List.mem_filterMap.mp hp
    by_cases htagged : e.1 = variantTag
    · unfold placement? member at hpe
      rw [if_pos htagged] at hpe
      cases hpe
    · obtain ⟨p', hp', hapart, -⟩ :
          ∃ p', placement? index resolver m e = some p' ∧ p'.Apart ∧
            p'.written index { m with stored := stored } =
              [(e.1, restored index resolver m stored e)] :=
        placement_written hindex hvariant hnode hstorable hmeta he htagged
      obtain rfl := Option.some.inj (hpe.symm.trans hp')
      exact ⟨hapart, placement_slot_ne hpe fun heq => hmeta (heq ▸ List.mem_map_of_mem he)⟩
  have htagged : (variantTag, restored index resolver m stored (variantTag, .string m.tag)) =
      (variantTag, Value.string m.tag) := by
    unfold restored member
    rw [if_pos rfl]
  have hnone : placement? index resolver m (variantTag, .string m.tag) = none := by
    unfold placement? member
    rw [if_pos rfl]
  refine Entries.ofList_eq_of_perm hback (List.Perm.trans ?_ (hperm.map _).symm)
  rw [List.map_cons, htagged, placements_eq hindex hvariant hnode]
  refine ((foldl_put_written (fun p hp => (hplacement p hp).1)
    (placements_nodup hindex hsorted.nodup_keys) ?_).trans ?_).cons _
  · intro hmem
    obtain ⟨p, hp, hslot⟩ := List.mem_map.mp hmem
    exact (hplacement p hp).2 hslot
  · refine ((hperm.filterMap _).flatMap_right _).trans (List.Perm.of_eq ?_)
    rw [List.filterMap_cons_none hnone]
    exact flatMap_written hindex hvariant hnode hstorable hmeta hrest

/-- A row that is read as a block of a variant is written back member by member. -/
theorem row_restored (hindex : index.Coherent) (hresolver : resolver.WellFormed)
    (hvariant : index.lookup m.key = some variant) (hnode : variant.node = .block)
    (hsorted : Entries.Sorted members) (hwell : Value.WellFormedMembers members)
    (hstorable : Storable.block index m.key members) (hmeta : metaKey ∉ members.map (·.1))
    (htag : Entries.get? variantTag members = some (.string m.tag)) (hnamed : m.tag ≠ "")
    (hposition : m.index < 18446744073709551616) :
    Flatten.block index (row index resolver m members) =
      .object (members.map fun e => (e.1, restored index resolver m
        (.ofList (blockRecords index resolver m.key none members)) e)) := by
  have hrecords : BlockMeta.WellFormed
      { m with stored := .ofList (blockRecords index resolver m.key none members) } :=
    fun r hr => blockRecords_wellFormed hresolver hwell (Entries.mem_ofList hr)
  unfold row assemble
  rw [Flatten.block, BlockMeta.ofMembers?_insert hrecords hposition]
  dsimp only
  have hstored : BlockMeta.storedTag
      { m with stored := .ofList (blockRecords index resolver m.key none members) } = m.tag := by
    unfold BlockMeta.storedTag
    rw [if_neg hnamed]
  rw [hstored, members_restored hindex hvariant hnode hsorted hstorable hmeta htag]

/-- The envelope of a block is read from what it was written as. -/
theorem ofData?_assemble {m : BlockMeta} {placements : List Placement} :
    BlockMeta.ofData? (assemble m placements) = BlockMeta.ofDatum? (.ofValue m.toValue) := by
  unfold BlockMeta.ofData? assemble
  show BlockMeta.ofMembers? _ = _
  unfold BlockMeta.ofMembers?
  rw [Entries.get?_insert_self]
  rfl

theorem variant?_eq_some {collection tag : String} :
    variant? index collection members = some (tag, variant) ↔
      Entries.get? variantTag members = some (.string tag) ∧
        index.resolveVariant collection tag = some variant := by
  unfold variant?
  constructor
  · intro h
    obtain ⟨tag', htag', h⟩ := Option.bind_eq_some_iff.mp h
    obtain ⟨entry, hentry, h⟩ := Option.bind_eq_some_iff.mp h
    cases h
    obtain ⟨v, hv, hstring⟩ := Option.bind_eq_some_iff.mp htag'
    cases v with
    | string s =>
      cases hstring
      exact ⟨hv, hentry⟩
    | _ => cases hstring
  · rintro ⟨hget, hresolved⟩
    rw [hget]
    simp [Value.string?, hresolved]

/-- A row that names a variant of a collection names it by a text that is not empty. -/
theorem variant?_named (hindex : index.Coherent) {collection tag : String}
    (h : variant? index collection members = some (tag, variant)) :
    Entries.get? variantTag members = some (.string tag) ∧ tag ≠ "" ∧
      index.lookup variant.key = some variant ∧ variant.node = .block := by
  obtain ⟨hget, hresolved⟩ := variant?_eq_some.mp h
  exact ⟨hget, hindex.resolveVariant_named hresolved⟩

/-- A row that names a variant is read as a block of it. -/
theorem variantRow_eq {layout parent collection tag : String} {position : Nat}
    (h : variant? index collection members = some (tag, variant)) :
    variantRow index resolver layout parent collection position (.object members) =
      row index resolver (metaAt layout parent position tag variant) members := by
  rw [variantRow, h]
  rfl

end Block

end Rehydrate

end PageBlocks
