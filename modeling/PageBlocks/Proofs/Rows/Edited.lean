import PageBlocks.Proofs.Rows.Changed
import PageBlocks.Proofs.Rows.Reread
import PageBlocks.Proofs.Rows.RoundTrip

/-!
# Edits survive storage

Proper block data that is written to rows and read again is the same data, with
new places and records in its envelopes. The proof follows the data down: what a
value is written as is read as an equal value, whichever stored form was used;
an object and a block keep their members, because an id leads back to the name
that it was written for.

> `edits_survive`: so what clear rows are read as may be edited, written and read
> again.
-/

namespace PageBlocks

open Attempt

namespace Rehydrate

open Proper

variable {index : FlatIndex} {layout : String}

/-! ## A single value -/

/-- A normal value is read again from whatever it is stored as. -/
theorem leaf_survives {stored : Dict StoredValue} {path : String} {kind : FieldKind} {v : Value}
    (hnormal : normalise .none kind v = v)
    (hhonest : ∀ s, stored.get? path = some s → normalise .none kind s.raw = s.value) :
    (normalise .none kind (Flatten.leaf stored path (.field kind) v) == v) = true := by
  unfold Flatten.leaf
  cases hfound : (stored.get? path).filter fun s => s.value == v with
  | some s =>
    obtain ⟨hget, hsame⟩ := Option.filter_eq_some_iff.mp hfound
    dsimp only
    rw [hhonest s hget]
    exact hsame
  | none =>
    dsimp only
    split
    next b hnode =>
      obtain rfl : kind = .trueFalse := NodeType.field.inj hnode
      cases b <;> rfl
    next =>
      rw [hnormal]
      exact Value.same_self _

/-- What is shown here of a value: it is written to one that is read as it was. -/
def Survives (index : FlatIndex) (layout : String) (v : Value) : Prop :=
  ∀ {m : BlockMeta} {stored : Dict StoredValue} {trail trail' : String} {entry : IndexEntry}
    {kind : FieldKind}, m.layout = layout → index.lookup entry.key = some entry →
    entry.node = .field kind → Proper.value index layout entry v →
    Honest index stored entry.group entry trail →
    Changed.value .storing index entry v (value index .none m trail' entry
      (Flatten.value index stored entry.group trail entry v))

/-! ## Objects of sub-fields -/

section Object

variable {m : BlockMeta} {stored : Dict StoredValue} {trail trail' : String} {parent : IndexEntry}
  {kind : FieldKind} {members : List (String × Value)}

theorem fields_survive (hindex : index.Coherent) (hlayout : m.layout = layout)
    (hparent : index.lookup parent.key = some parent) (hnode : parent.node = .field kind)
    (hkind : kind.hasSubFields = true)
    (hproper : Proper.fields index layout parent.key parent.group members)
    (hmembers : ∀ e ∈ members, Survives index layout e.2)
    (hhonest : ∀ id sub, index.childEntry? parent.key id = some sub →
      Honest index stored parent.group sub (subTrail trail sub.name)) :
    Changed.fields .storing index parent.key parent.group members
      (members.map fun e => (e.1, rereadField index m stored trail trail' parent e)) := by
  refine Changed.fields_map fun e he => ?_
  have hvalue := (fields_iff.mp hproper e he).1
  unfold rereadField
  cases hchild : index.child? parent.key parent.group e.1 with
  | none => rfl
  | some entry =>
    obtain ⟨hentry, hgroup, hname⟩ := hindex.child?_row hparent hnode hkind hchild
    obtain ⟨hid, hbelow⟩ := FlatIndex.childEntry?_iff.mp hentry
    obtain ⟨-, ⟨kind', hnode'⟩, -⟩ := hindex.below_row hparent hnode hkind hid hbelow
    have hrecords := hhonest entry.key entry hentry
    dsimp only
    rw [← hgroup] at hrecords ⊢
    rw [hname] at hrecords
    exact hmembers e he hlayout hid hnode' (hvalue entry hchild) hrecords

end Object

/-! ## Blocks -/

section Block

variable {m m' : BlockMeta} {variant : IndexEntry} {members : List (String × Value)}

/-- What a member of a proper block is read as is the member, but for what an envelope says
anew. -/
theorem member_survives (hindex : index.Coherent) (hvariant : index.lookup m.key = some variant)
    (hnode : variant.node = .block) (hsorted : Entries.Sorted members)
    (hget : Entries.get? metaKey members = some m.toValue)
    (hhonest : ∀ group name entry, index.child? m.key (some group) name = some entry →
      Honest index m.stored (some group) entry name)
    (hproper : Proper.blockMembers index layout m.key members) (hlayout : m'.layout = layout)
    {envelope : Value} (henvelope : unplaced envelope = unplaced m.toValue)
    (hbelow : ∀ w, sizeOf w < sizeOf (Value.object members) → Survives index layout w)
    {e : String × Value} (he : e ∈ members) :
    Changed.blockMember .storing index m.key e.1 e.2 (rereadMember index m m' envelope e) := by
  obtain ⟨key, v⟩ := e
  by_cases hmeta : key = metaKey
  · subst hmeta
    obtain rfl : m.toValue = v := Option.some.inj (hget.symm.trans (hsorted.get?_of_mem he))
    unfold rereadMember
    rw [if_pos rfl]
    exact Changed.blockMember_meta.mpr henvelope
  rcases member_cases hproper he with h | hbeside | ⟨group, rfl⟩
  · exact absurd h hmeta
  · rw [rereadMember_beside hmeta hbeside.1]
    exact Changed.blockMember_same hmeta hbeside.1
  · obtain ⟨inner, rfl, -, -, -, hfields⟩ := group_of_mem hproper he
    rw [rereadMember_group, Changed.blockMember, if_neg hmeta, FieldGroup.ofName?_name]
    refine ⟨inner, rfl, Changed.fields_map fun f hf => ?_⟩
    have hvalue := (fields_iff.mp hfields f hf).1
    unfold rereadInGroup
    cases hchild : index.child? m.key (some group) f.1 with
    | none => rfl
    | some entry =>
      obtain ⟨hentry, hgroup, -⟩ := hindex.child?_variant hvariant hnode hchild
      obtain ⟨hid, hunder⟩ := FlatIndex.childEntry?_iff.mp hentry
      obtain ⟨-, ⟨kind, hnode'⟩, -⟩ := hindex.below_variant hvariant hnode hid hunder
      have hrecords := hhonest group f.1 entry hchild
      have hsmaller : sizeOf f.2 < sizeOf (Value.object members) :=
        Nat.lt_trans (Value.sizeOf_member hf) (Value.sizeOf_member he)
      dsimp only
      rw [← hgroup] at hrecords ⊢
      exact hbelow f.2 hsmaller hlayout (hindex.lookup_key hid) hnode' (hvalue entry hchild)
        hrecords

end Block

/-- A proper block that is written to a row and read again is the block, wherever it is read. -/
theorem block_survives (hindex : index.Coherent) {parent collection : String} {position : Nat}
    {v : Value} (hproper : Proper.block index layout collection v)
    (hbelow : ∀ w, sizeOf w < sizeOf v → Survives index layout w) :
    Changed.block .storing index v
      (variantRow index .none layout parent collection position (Flatten.block index v)) := by
  cases v with
  | object members =>
    rw [Proper.block] at hproper
    rw [Flatten.block]
    cases hmeta : BlockMeta.ofMembers? members with
    | none =>
      -- A row that is no block is not written as one, and names no variant.
      rw [hmeta] at hproper
      dsimp only at hproper ⊢
      rw [variantRow, hproper]
      dsimp only
      rw [Changed.block]
      refine ⟨members, rfl, ?_⟩
      rw [hmeta]
    | some m =>
      rw [hmeta] at hproper
      obtain ⟨hsorted, hget, henvelope, hmembers⟩ := hproper
      obtain ⟨variant, hresolved, hkey, hname⟩ := henvelope.variant
      obtain ⟨hnamed, hlookup, hnode⟩ := hindex.resolveVariant_named hresolved
      rw [hkey] at hlookup
      have htagged : (variantTag, .string m.tag) ∈ writtenRow index m members := by
        refine (mem_writtenRow hindex hlookup hnode hsorted hmembers).mpr (.inl ?_)
        unfold BlockMeta.storedTag
        rw [if_neg hnamed]
      have hvariant : variant? index collection (writtenRow index m members) =
          some (m.tag, variant) :=
        variant?_eq_some.mpr ⟨writtenRow_sorted.get?_of_mem htagged, hresolved⟩
      obtain ⟨placed, ⟨hlayout', hblock', hkey', htag'⟩, hrow⟩ := row_reread
        (metaAt layout parent position m.tag variant) hindex hlookup hnode hsorted hmembers hkey
        (List.mem_map_of_mem (Entries.mem_of_get? hget))
      have hsame : unplaced placed.toValue = unplaced m.toValue :=
        BlockMeta.unplaced_toValue (hlayout'.trans henvelope.layout.symm) (hblock'.trans hname)
          (hkey'.trans hkey) htag'
      show Changed.block .storing index _ (variantRow index .none layout parent collection
        position (.object (writtenRow index m members)))
      rw [variantRow_eq hvariant, hrow, Changed.block]
      refine ⟨members, rfl, ?_⟩
      rw [hmeta]
      exact Changed.blockMembers_map fun e he => member_survives hindex hlookup hnode hsorted hget
        henvelope.honest hmembers rfl hsame hbelow he
  | _ => simp only [Flatten.block, variantRow, Changed.block]

theorem blocks_survive (hindex : index.Coherent) {parent collection : String} :
    ∀ {position : Nat} {items : List Value},
      (∀ v ∈ items, Proper.block index layout collection v ∧
        ∀ w, sizeOf w < sizeOf v → Survives index layout w) →
      Changed.blocks .storing index items
        (variantRows index .none layout parent collection position (Flatten.blocks index items))
  | _, [], _ => by
    rw [Flatten.blocks, variantRows, Changed.blocks]
    exact .inr rfl
  | _, v :: rest, h => by
    obtain ⟨hproper, hbelow⟩ := h v (List.mem_cons_self ..)
    rw [Flatten.blocks, variantRows]
    exact Changed.blocks_storing_cons (block_survives hindex hproper hbelow)
      (blocks_survive hindex fun w hw => h w (List.mem_cons_of_mem _ hw))

/-! ## Values -/

theorem rows_survive (hindex : index.Coherent) {m : BlockMeta} {stored : Dict StoredValue}
    {trail trail' : String} {entry : IndexEntry} (hlayout : m.layout = layout)
    (hentry : index.lookup entry.key = some entry) (hnode : entry.node = .field .repeater)
    (hhonest : Honest index stored entry.group entry trail) :
    ∀ {position position' : Nat} {items : List Value},
      (∀ members, .object members ∈ items →
        (Entries.Sorted members ∧
          Proper.fields index layout entry.key entry.group members) ∧
        ∀ e ∈ members, Survives index layout e.2) →
      Changed.rows .storing index entry items (rows index .none m trail' entry position'
        (Flatten.rows index stored entry.group trail entry position items))
  | _, _, [], _ => by
    rw [Flatten.rows, rows, Changed.rows]
    exact .inr rfl
  | position, position', v :: rest, h => by
    have hrest : ∀ {position position'}, Changed.rows .storing index entry rest
        (rows index .none m trail' entry position'
          (Flatten.rows index stored entry.group trail entry position rest)) :=
      rows_survive hindex hlayout hentry hnode hhonest
        fun members hmem => h members (List.mem_cons_of_mem _ hmem)
    cases v with
    | object members =>
      obtain ⟨⟨hsorted, hproper⟩, hmembers⟩ := h members (List.mem_cons_self ..)
      rw [Flatten.rows, rows, object_reread hindex hentry hnode rfl hsorted hproper]
      refine Changed.rows_storing_cons ?_ hrest
      rw [Changed.row]
      exact ⟨members, rfl, fields_survive hindex hlayout hentry hnode rfl hproper hmembers
        fun id sub hsub kind t s hleaf => hhonest kind t s (.row position hnode hsub hleaf)⟩
    | _ =>
      simp only [Flatten.rows, rows]
      exact Changed.rows_storing_cons (by simp only [Changed.row]) hrest

/-- Every proper value survives. -/
theorem value_survives (hindex : index.Coherent) (v : Value) : Survives index layout v := by
  induction v using Value.below_induction with
  | h v ih =>
    intro m stored trail trail' entry kind hlayout hentry hnode hproper hhonest
    cases hshape : entry.node.shape with
    | leaf kind' =>
      rw [Proper.value_leaf hshape] at hproper
      rw [flatten_value_leaf hshape, value_leaf hshape, Changed.value_leaf hshape,
        NodeType.shape_leaf hshape]
      exact leaf_survives hproper fun s hs => hhonest kind' trail s (.here hshape) hs
    | collection =>
      cases v with
      | array items =>
        rw [Proper.value, hshape] at hproper
        rw [Flatten.value, hshape]
        dsimp only
        rw [value, hshape]
        dsimp only
        rw [Changed.value, hshape]
        refine ⟨items, rfl, ?_⟩
        rw [hlayout]
        exact blocks_survive hindex fun w hw => ⟨Proper.blocks_iff.mp hproper w hw,
          fun u hu => ih u (Nat.lt_trans hu (Value.sizeOf_item hw))⟩
      | _ => simp only [Flatten.value, value, hshape, Changed.value]
    | rows =>
      cases v with
      | array items =>
        rw [Proper.value, hshape] at hproper
        rw [Flatten.value, hshape]
        dsimp only
        rw [value, hshape]
        dsimp only
        rw [Changed.value, hshape]
        refine ⟨items, rfl, rows_survive hindex hlayout hentry (NodeType.shape_rows hshape) hhonest
          fun members hmem => ⟨Proper.rows_iff.mp hproper members hmem, fun e he => ih e.2 ?_⟩⟩
        exact Nat.lt_trans (Value.sizeOf_member he) (Value.sizeOf_item hmem)
      | _ => simp only [Flatten.value, value, hshape, Changed.value]
    | fields =>
      cases v with
      | object members =>
        rw [Proper.value, hshape] at hproper
        obtain ⟨hsorted, hfields⟩ := hproper
        have hgroup : entry.node = .field .group := NodeType.shape_fields hshape
        rw [Flatten.value, hshape]
        dsimp only
        rw [value, hshape]
        dsimp only
        rw [object_reread hindex hentry hgroup rfl hsorted hfields, Changed.value, hshape]
        exact ⟨members, rfl, fields_survive hindex hlayout hentry hgroup rfl hfields
          (fun e he => ih e.2 (Value.sizeOf_member he))
          fun id sub hsub kind t s hleaf => hhonest kind t s (.part hgroup hsub hleaf)⟩
      | _ => simp only [Flatten.value, value, hshape, Changed.value]
    | bare => rw [NodeType.shape_bare hshape] at hnode; cases hnode

/-- Proper blocks of a layout survive. -/
theorem layout_survives (hindex : index.Coherent) {blockData : List Value}
    (hproper : Proper.ofLayout index layout blockData) :
    Changed.blocks .storing index blockData
      (Rehydrate.layout index .none layout (Flatten.blocks index blockData)) := by
  unfold Proper.ofLayout at hproper
  unfold Rehydrate.layout
  cases hkey : index.layoutKey layout with
  | none =>
    rw [hkey] at hproper
    dsimp only at hproper ⊢
    rw [blocks_unread hproper]
    exact Changed.blocks_unread hproper
  | some collection =>
    rw [hkey] at hproper
    exact blocks_survive hindex fun v hv =>
      ⟨Proper.blocks_iff.mp hproper v hv, fun w _ => value_survives hindex w⟩

end Rehydrate

/-- What clear rows are read as may be edited in any way that keeps the values of leaves normal: it
is written to rows that are read as the edited blocks, for every compiled schema and every layout.
-/
theorem edits_survive {definitions : Definitions} {resources : Resources}
    {registry : Registry} {now : Instant} {schema : CompiledSchema} {layout : String}
    {rows edited : List Value} (hbuilt : Gives (Registry.build definitions resources) registry)
    (hcompiled : Gives (compile registry now) schema) (hwell : Value.WellFormedItems rows)
    (hclear : Clear.layout schema.index layout rows)
    (hedit : Changed.blocks .edit schema.index
      (rehydrateLayout schema.index .none layout rows).value edited) :
    Changed.blocks .storing schema.index edited
      (rehydrateLayout schema.index .none layout
        (flattenLayout schema.index edited).value).value := by
  have hindex : schema.index.Coherent := (compile_follows hbuilt hcompiled).coherent
  have hproper : Proper.ofLayout schema.index layout
      (Rehydrate.layout schema.index .none layout rows) :=
    Rehydrate.layout_proper hindex hwell hclear
  exact Rehydrate.layout_survives hindex (Changed.ofLayout_proper hedit hproper)

/-- The boxes as they are read. -/
def boxBlocks : List Value := (rehydrateLayout boxSchema.index .none "page" boxRows).value

/-- The boxes under another title, and again as they were. -/
def editedBoxes : List Value :=
  boxBlocks.map (Changed.withField .content "title" (.string "B")) ++ boxBlocks

theorem edited_boxes_survive :
    Changed.blocks .edit boxSchema.index boxBlocks editedBoxes ∧
      Changed.blocks .storing boxSchema.index editedBoxes
        (rehydrateLayout boxSchema.index .none "page"
          (flattenLayout boxSchema.index editedBoxes).value).value := by
  have hwell : Value.WellFormedItems boxRows :=
    ⟨⟨by decide, trivial, trivial, ⟨⟨by decide, trivial, trivial⟩, trivial, trivial⟩, trivial,
      trivial⟩, trivial⟩
  have hstorable : Storable.layout boxSchema.index "page" boxRows := by decide +kernel
  -- Every block is read with an envelope, whose variant has a text for its title.
  have htitled : ∀ v ∈ boxBlocks, ((BlockMeta.ofData? v).bind fun m =>
      (boxSchema.index.child? m.key (some .content) "title").map (·.node.shape)) =
        some (.leaf .text) := by
    decide +kernel
  have hedit : Changed.blocks .edit boxSchema.index boxBlocks editedBoxes := by
    refine Changed.blocks_edit_iff.mpr fun new hnew => ?_
    rcases List.mem_append.mp hnew with hnew | hnew
    · obtain ⟨old, hold, rfl⟩ := List.mem_map.mp hnew
      obtain ⟨m, hmeta, hfound⟩ := Option.bind_eq_some_iff.mp (htitled old hold)
      obtain ⟨entry, hchild, hshape⟩ := Option.map_eq_some_iff.mp hfound
      exact ⟨old, hold, Changed.block_withField hmeta hchild hshape rfl⟩
    · exact ⟨new, hnew, Changed.block_self new⟩
  exact ⟨hedit, edits_survive boxes_built boxes_compiled hwell
    (Storable.layout_clear (compile_follows boxes_built boxes_compiled).coherent hstorable) hedit⟩

end PageBlocks
