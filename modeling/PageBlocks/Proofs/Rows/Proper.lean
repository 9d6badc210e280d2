import PageBlocks.Proofs.Rows.Honest

/-!
# Proper block data

What block data must be like for writing it to lose nothing: the values of
leaves are normal for their kinds, blocks name variants of their collections and
have honest records, groups hold fields and nothing else, and what stands beside
the fields of an object or a block is none of them.

> `Rehydrate.layout_proper`: what clear rows are read as is proper.
-/

namespace PageBlocks

namespace Proper

open Rehydrate

variable (index : FlatIndex) (layout : String)

/-- The envelope of a block in a collection. -/
structure Envelope (collection : String) (m : BlockMeta) : Prop where
  layout : m.layout = layout
  variant : ∃ v, index.resolveVariant collection m.tag = some v ∧ v.key = m.key ∧
    v.name = m.block
  honest : ∀ group name entry, index.child? m.key (some group) name = some entry →
    Honest index m.stored (some group) entry name

/-- A key that stands beside the groups of a block of a variant. -/
def Beside (variant key : String) : Prop :=
  FieldGroup.ofName? key = none ∧ member index variant key = .foreign ∧
    index.childKey variant none key = none

mutual
/-- The value of a field. -/
def value (entry : IndexEntry) : Value → Prop
  | .array items =>
    match entry.node.shape with
    | .collection => blocks entry.key items
    | .rows => rows entry items
    | .leaf kind => normalise .none kind (.array items) = .array items
    | _ => True
  | .object members =>
    match entry.node.shape with
    | .fields => Entries.Sorted members ∧ fields entry.key entry.group members
    | .leaf kind => normalise .none kind (.object members) = .object members
    | _ => True
  | v =>
    match entry.node.shape with
    | .leaf kind => normalise .none kind v = v
    | _ => True

/-- The rows of a repeater. -/
def rows (entry : IndexEntry) : List Value → Prop
  | [] => True
  | .object members :: rest =>
    (Entries.Sorted members ∧ fields entry.key entry.group members) ∧ rows entry rest
  | _ :: rest => rows entry rest

/-- Fields by their names, and whatever is no field under the parent. -/
def fields (parent : String) (group : Option FieldGroup) : List (String × Value) → Prop
  | [] => True
  | (name, v) :: rest =>
    (match index.child? parent group name with
      | some entry => value entry v
      | none => index.childEntry? parent name = none) ∧
      fields parent group rest

/-- The blocks of a collection. -/
def blocks (collection : String) : List Value → Prop
  | [] => True
  | v :: rest => block collection v ∧ blocks collection rest

/-- A block of a collection, or a row that is none. -/
def block (collection : String) : Value → Prop
  | .object members =>
    match BlockMeta.ofMembers? members with
    | some m =>
      Entries.Sorted members ∧ Entries.get? metaKey members = some m.toValue ∧
        Envelope index layout collection m ∧ blockMembers m.key members
    | none => variant? index collection members = none
  | _ => True

/-- The members of a block of a variant. -/
def blockMembers (variant : String) : List (String × Value) → Prop
  | [] => True
  | (name, v) :: rest => blockMember variant name v ∧ blockMembers variant rest

/-- A member of a block: its envelope, a group, or what stands beside the groups. -/
def blockMember (variant name : String) : Value → Prop
  | .object inner =>
    name = metaKey ∨ Beside index variant name ∨
      ∃ group, FieldGroup.ofName? name = some group ∧ inner ≠ [] ∧ Entries.Sorted inner ∧
        (∀ e ∈ inner, ∃ entry, index.child? variant (some group) e.1 = some entry ∧
          entry.isTab = false) ∧
        fields variant (some group) inner
  | _ => name = metaKey ∨ Beside index variant name
end

/-- The blocks of a layout. -/
def ofLayout (blockData : List Value) : Prop :=
  match index.layoutKey layout with
  | some collection => blocks index layout collection blockData
  | none => ∀ v ∈ blockData, NoEnvelope v

variable {index layout}

/-! ## Parts -/

theorem value_leaf {entry : IndexEntry} {kind : FieldKind} {v : Value}
    (hshape : entry.node.shape = .leaf kind) :
    value index layout entry v ↔ normalise .none kind v = v := by
  cases v <;> simp only [value, hshape]

theorem rows_iff {entry : IndexEntry} {items : List Value} :
    rows index layout entry items ↔ ∀ members, .object members ∈ items →
      Entries.Sorted members ∧ fields index layout entry.key entry.group members := by
  induction items with
  | nil => simp [rows]
  | cons item rest ih => cases item <;> simp [rows, ih]

theorem fields_iff {parent : String} {group : Option FieldGroup}
    {members : List (String × Value)} :
    fields index layout parent group members ↔ ∀ e ∈ members,
      (∀ entry, index.child? parent group e.1 = some entry → value index layout entry e.2) ∧
      (index.child? parent group e.1 = none → index.childEntry? parent e.1 = none) := by
  induction members with
  | nil => simp [fields]
  | cons e rest ih =>
    rw [fields, ih, List.forall_mem_cons]
    cases index.child? parent group e.1 with
    | none => simp
    | some entry => simp

theorem blocks_iff {collection : String} {items : List Value} :
    blocks index layout collection items ↔ ∀ v ∈ items, block index layout collection v := by
  induction items with
  | nil => simp [blocks]
  | cons item rest ih => rw [blocks, ih, List.forall_mem_cons]

theorem blockMembers_iff {variant : String} {members : List (String × Value)} :
    blockMembers index layout variant members ↔
      ∀ e ∈ members, blockMember index layout variant e.1 e.2 := by
  induction members with
  | nil => simp [blockMembers]
  | cons e rest ih => rw [blockMembers, ih, List.forall_mem_cons]

theorem blockMember_meta {variant : String} {v : Value} :
    blockMember index layout variant metaKey v := by
  cases v <;> simp [blockMember]

theorem blockMember_beside {variant key : String} {v : Value} (h : Beside index variant key) :
    blockMember index layout variant key v := by
  cases v <;> simp [blockMember, h]

end Proper

namespace Rehydrate

open Proper

variable {index : FlatIndex} {layout : String}

/-! ## Reading -/

/-- What is shown here of a value: it is read as a proper one. -/
def ReadsProper (index : FlatIndex) (layout : String) (raw : Value) : Prop :=
  ∀ {m : BlockMeta} {trail : String} {entry : IndexEntry}, m.layout = layout →
    index.lookup entry.key = some entry → raw.WellFormed → Clear.value index entry raw →
    Proper.value index layout entry (value index .none m trail entry raw)

theorem fields_proper (hindex : index.Coherent) {m : BlockMeta} {trail : String}
    {entry : IndexEntry} {kind : FieldKind} {members : List (String × Value)}
    (hlayout : m.layout = layout) (hentry : index.lookup entry.key = some entry)
    (hnode : entry.node = .field kind) (hkind : kind.hasSubFields = true)
    (hwell : (Value.object members).WellFormed) (hclear : Clear.fields index entry members)
    (hmembers : ∀ e ∈ members, ReadsProper index layout e.2) :
    Proper.fields index layout entry.key entry.group
      (Entries.ofList (fields index .none m trail entry members)) := by
  refine fields_iff.mpr fun e he => ?_
  obtain ⟨e', he', rfl⟩ := (mem_readFields hindex hentry hnode hkind hwell.1 hclear).mp he
  obtain ⟨hfree, hvalue⟩ := Clear.of_mem_fields hclear he'
  unfold readField
  cases hsub : index.childEntry? entry.key e'.1 with
  | none =>
    refine ⟨fun sub hchild => ?_, fun _ => hsub⟩
    rw [hindex.child?_eq_none.mpr hfree] at hchild
    cases hchild
  | some sub =>
    obtain ⟨-, -, -, hfound⟩ := subField_found hindex hentry hnode hkind hsub
    obtain ⟨hid, -⟩ := FlatIndex.childEntry?_iff.mp hsub
    refine ⟨fun sub' hchild => ?_, fun hnone => ?_⟩
    · obtain rfl := Option.some.inj (hfound.symm.trans hchild)
      exact hmembers e' he' hlayout (hindex.lookup_key hid)
        (Value.wellFormed_of_mem_members hwell.2 e' he') (hvalue sub hsub)
    · rw [hfound] at hnone
      cases hnone

theorem placed_proper (hindex : index.Coherent) {m : BlockMeta} {variant : IndexEntry}
    {members : List (String × Value)} (hlayout : m.layout = layout)
    (hvariant : index.lookup m.key = some variant) (hnode : variant.node = .block)
    (hwell : (Value.object members).WellFormed) (hclear : Clear.block index m.key members)
    (hmembers : ∀ e ∈ members, ReadsProper index layout e.2) :
    ∀ e ∈ (placements index .none m none members).foldl Placement.put [],
      Proper.blockMember index layout m.key e.1 e.2 := by
  intro e he
  obtain ⟨key, w⟩ := e
  have hheld := row_held .none hindex hvariant hnode hwell.1 hclear.foreign
  cases hgroup : FieldGroup.ofName? key with
  | none =>
    obtain ⟨hmem, hforeign⟩ := plain_mem_placements.mp ((hheld.plain hgroup).mp he)
    exact blockMember_beside ⟨hgroup, hforeign, ((Clear.of_mem_block hclear hmem).1 hforeign).2⟩
  | some g =>
    obtain rfl := FieldGroup.name_of_ofName? hgroup
    obtain ⟨inner, rfl, hne, hsorted, hinner⟩ := hheld.grouped he
    -- Every member of the group is read from a field of the row.
    have hfield : ∀ e ∈ inner, ∃ entry, index.child? m.key (some g) e.1 = some entry ∧
        entry.isTab = false ∧ Proper.value index layout entry e.2 := by
      intro e he
      obtain ⟨id, raw, entry, hmem, hmember, hg, hname, hvalue⟩ :=
        grouped_mem_placements.mp ((hinner e.1 e.2).mp he)
      have hchild := hindex.child?_eq (member_field hmember)
      obtain ⟨hid, -⟩ := FlatIndex.childEntry?_iff.mp (member_field hmember)
      rw [hg, hname] at hchild
      rw [← hvalue]
      exact ⟨entry, hchild, member_not_tab hmember, hmembers (id, raw) hmem hlayout
        (hindex.lookup_key hid) (Value.wellFormed_of_mem_members hwell.2 _ hmem)
        ((Clear.of_mem_block hclear hmem).2 entry hmember)⟩
    rw [blockMember]
    refine .inr (.inr ⟨g, hgroup, hne, hsorted, fun e he => ?_, fields_iff.mpr fun e he => ?_⟩)
    · obtain ⟨entry, hchild, htab, -⟩ := hfield e he
      exact ⟨entry, hchild, htab⟩
    · obtain ⟨entry, hchild, -, hproper⟩ := hfield e he
      refine ⟨fun entry' hchild' => ?_, fun hnone => ?_⟩
      · obtain rfl := Option.some.inj (hchild.symm.trans hchild')
        exact hproper
      · rw [hchild] at hnone
        cases hnone

/-- A clear row is read as a proper block. -/
theorem row_proper (hindex : index.Coherent) {collection : String} {m : BlockMeta}
    {variant : IndexEntry} {members : List (String × Value)} (hlayout : m.layout = layout)
    (hposition : m.index < 18446744073709551616)
    (hresolved : index.resolveVariant collection m.tag = some variant)
    (hkey : variant.key = m.key) (hname : variant.name = m.block)
    (hvariant : index.lookup m.key = some variant) (hnode : variant.node = .block)
    (hwell : (Value.object members).WellFormed) (hclear : Clear.block index m.key members)
    (hmembers : ∀ e ∈ members, ReadsProper index layout e.2) :
    Proper.block index layout collection (row index .none m members) := by
  have hrecords : BlockMeta.WellFormed
      { m with stored := .ofList (blockRecords index .none m.key none members) } :=
    fun r hr => blockRecords_wellFormed Resolver.none_wellFormed hwell.2
      (Entries.mem_ofList hr)
  have hheld := row_held .none hindex hvariant hnode hwell.1 hclear.foreign
  unfold row assemble
  rw [Proper.block, BlockMeta.ofMembers?_insert hrecords hposition]
  refine ⟨Entries.sorted_insert _ _ hheld.sorted, Entries.get?_insert_self .., ?_,
    blockMembers_iff.mpr fun e he => ?_⟩
  · exact ⟨hlayout, ⟨variant, hresolved, hkey, hname⟩, fun g name entry h =>
      blockRecords_honest hindex hvariant hnode h⟩
  · rcases (Entries.mem_insert_iff hheld.sorted).mp he with rfl | ⟨-, he⟩
    · exact blockMember_meta
    · exact placed_proper hindex hlayout hvariant hnode hwell hclear hmembers e he

theorem variantRow_proper (hindex : index.Coherent) {parent collection : String}
    {position : Nat} {raw : Value} (hposition : position < 18446744073709551616)
    (hwell : raw.WellFormed) (hclear : Clear.variant index collection raw)
    (hbelow : ∀ w, sizeOf w < sizeOf raw → ReadsProper index layout w) :
    Proper.block index layout collection
      (variantRow index .none layout parent collection position raw) := by
  cases raw with
  | object members =>
    rw [Clear.variant] at hclear
    cases hvariant : variant? index collection members with
    | none =>
      rw [variantRow, hvariant]
      dsimp only
      rw [Proper.block, BlockMeta.ofMembers?_eq_none hclear.1]
      exact hvariant
    | some found =>
      obtain ⟨tag, variant⟩ := found
      obtain ⟨-, -, hlookup, hnode⟩ := variant?_named hindex hvariant
      rw [hvariant] at hclear
      rw [variantRow_eq hvariant]
      exact row_proper hindex rfl hposition (variant?_eq_some.mp hvariant).2 rfl rfl hlookup hnode
        hwell hclear.2 fun e he => hbelow e.2 (Value.sizeOf_member he)
  | _ => simp only [variantRow, Proper.block]

theorem variantRows_proper (hindex : index.Coherent) {parent collection : String}
    {items : List Value} (hwell : Value.WellFormedItems items)
    (hclear : Clear.collection index collection items)
    (hbelow : ∀ item ∈ items, ∀ w, sizeOf w < sizeOf item → ReadsProper index layout w) :
    Proper.blocks index layout collection
      (variantRows index .none layout parent collection 0 items) := by
  rw [Clear.collection] at hclear
  refine blocks_iff.mpr fun v hv => ?_
  obtain ⟨i, hi⟩ := List.mem_iff_getElem?.mp hv
  rw [variantRows_getElem?] at hi
  obtain ⟨item, hitem, rfl⟩ := Option.map_eq_some_iff.mp hi
  have hmem := List.mem_of_getElem? hitem
  have hlt : i < items.length := (List.getElem?_eq_some_iff.mp hitem).1
  exact variantRow_proper hindex (by omega) (Value.wellFormed_of_mem_items hwell item hmem)
    (Clear.of_mem_variants hclear.2 hmem) (hbelow item hmem)

/-- Every clear value is read as a proper one. -/
theorem value_proper (hindex : index.Coherent) (raw : Value) :
    ReadsProper index layout raw := by
  induction raw using Value.below_induction with
  | h raw ih =>
    intro m trail entry hlayout hentry hwell hclear
    cases hshape : entry.node.shape with
    | leaf kind =>
      rw [value_leaf hshape, Proper.value_leaf hshape]
      exact normalise_normalise kind raw
    | collection =>
      cases raw with
      | array items =>
        rw [Clear.value, hshape] at hclear
        rw [value, hshape]
        dsimp only
        rw [Proper.value, hshape]
        dsimp only
        rw [hlayout]
        exact variantRows_proper hindex hwell hclear fun item hitem w hw =>
          ih w (Nat.lt_trans hw (Value.sizeOf_item hitem))
      | _ => simp only [value, hshape, Proper.value]
    | rows =>
      cases raw with
      | array items =>
        rw [Clear.value, hshape] at hclear
        rw [value, hshape]
        dsimp only
        rw [Proper.value, hshape]
        refine rows_iff.mpr fun members hmem => ?_
        obtain ⟨i, hi⟩ := List.mem_iff_getElem?.mp hmem
        rw [rows_getElem?] at hi
        obtain ⟨item, hitem, hread⟩ := Option.map_eq_some_iff.mp hi
        have hitem := List.mem_of_getElem? hitem
        cases item <;> cases hread
        refine ⟨Entries.sorted_ofList _, ?_⟩
        exact fields_proper hindex hlayout hentry (NodeType.shape_rows hshape) rfl
          (Value.wellFormed_of_mem_items hwell _ hitem) (Clear.of_mem_rows hclear hitem)
          fun e he => ih e.2 (Nat.lt_trans (Value.sizeOf_member he) (Value.sizeOf_item hitem))
      | _ => simp only [value, hshape, Proper.value]
    | fields =>
      cases raw with
      | object members =>
        rw [Clear.value, hshape] at hclear
        rw [value, hshape]
        dsimp only
        rw [Proper.value, hshape]
        exact ⟨Entries.sorted_ofList _, fields_proper hindex hlayout hentry
          (NodeType.shape_fields hshape) rfl hwell hclear
          fun e he => ih e.2 (Value.sizeOf_member he)⟩
      | _ => simp only [value, hshape, Proper.value]
    | bare => cases raw <;> simp only [value, hshape, Proper.value]

/-- What clear rows of a layout are read as is proper. -/
theorem layout_proper (hindex : index.Coherent) {rows : List Value}
    (hwell : Value.WellFormedItems rows) (hclear : Clear.layout index layout rows) :
    Proper.ofLayout index layout (Rehydrate.layout index .none layout rows) := by
  unfold Clear.layout at hclear
  unfold Proper.ofLayout Rehydrate.layout
  cases hkey : index.layoutKey layout with
  | none =>
    rw [hkey] at hclear
    exact hclear
  | some collection =>
    rw [hkey] at hclear
    exact variantRows_proper hindex hwell hclear fun _ _ w _ => value_proper hindex w

end Rehydrate

end PageBlocks
