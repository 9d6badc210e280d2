import PageBlocks.Proofs.Rows.Read
import PageBlocks.Render.Template

/-!
# Blocks and their places

Reading the rows of a layout makes blocks at many places: in collections, in
collections of their blocks, in the rows of repeaters and in groups of fields.
The walk below goes over stored rows in step with `Rehydrate.value` and tells
every block that is made, with its data and the path that leads to it in what
the layout is read as.

Everything that a place is known by elsewhere is text. The spot of a block is
its parent, its position and its name (`BlockMeta.spot`); the blocks inside it
continue its spot behind a slash.

> `foundLayout_at`: in what clear rows are read as, every block stands at its place.

> `foundValue_behind`: the spot of every block in the value of a field lies behind the
> spot of the block around it, under the trail of the field.
-/

namespace PageBlocks

/-- A block that reading makes. -/
structure Found where
  /-- The path to it from the blocks of the layout. -/
  place : List PathStep
  /-- Its envelope, before stored forms were recorded. -/
  envelope : BlockMeta
  data : Value
deriving Inhabited

/-- The text that the paths of all collections in a block begin with. -/
def BlockMeta.spot (m : BlockMeta) : String :=
  m.parent ++ "/" ++ (toString m.index ++ ":" ++ m.block)

theorem BlockMeta.collectionPath_eq (m : BlockMeta) (trail : String) :
    m.collectionPath trail = m.spot ++ "/" ++ trail := by
  simp only [collectionPath, spot, String.append_assoc]

namespace Rehydrate

section Walk

variable (index : FlatIndex) (resolver : Resolver)

/-- The path to a field from its block. -/
def fieldPlace (group : Option FieldGroup) (name : String) : List PathStep :=
  (group.map fun g => PathStep.member g.name).toList ++ [.member name]

mutual
/-- The blocks in the value of a field at a place. -/
def foundValue (m : BlockMeta) (trail : String) (place : List PathStep) (entry : IndexEntry) :
    Value → List Found
  | .array items =>
    match entry.node.shape with
    | .collection => foundVariants m.layout (m.collectionPath trail) entry.key place 0 items
    | .rows => foundRows m trail place entry 0 items
    | _ => []
  | .object members =>
    match entry.node.shape with
    | .fields => foundFields m trail place entry members
    | _ => []
  | _ => []

/-- The blocks in the rows of a repeater. -/
def foundRows (m : BlockMeta) (trail : String) (place : List PathStep) (entry : IndexEntry)
    (position : Nat) : List Value → List Found
  | [] => []
  | .object members :: rest =>
    foundFields m (rowTrail trail position) (place ++ [.position position]) entry members ++
      foundRows m trail place entry (position + 1) rest
  | _ :: rest => foundRows m trail place entry (position + 1) rest

/-- The blocks in an object of sub-fields. -/
def foundFields (m : BlockMeta) (trail : String) (place : List PathStep) (parent : IndexEntry) :
    List (String × Value) → List Found
  | [] => []
  | (id, raw) :: rest =>
    (match index.childEntry? parent.key id with
      | some entry =>
        foundValue m (subTrail trail entry.name) (place ++ [.member entry.name]) entry raw
      | none => []) ++ foundFields m trail place parent rest

/-- The blocks in the rows of a collection. -/
def foundVariants (layout parent collection : String) (place : List PathStep) (position : Nat) :
    List Value → List Found
  | [] => []
  | row :: rest =>
    foundVariant layout parent collection (place ++ [.position position]) position row ++
      foundVariants layout parent collection place (position + 1) rest

/-- The block of a row of a collection, and the blocks in it. -/
def foundVariant (layout parent collection : String) (place : List PathStep) (position : Nat) :
    Value → List Found
  | .object members =>
    match variant? index collection members with
    | some (tag, entry) =>
      let m := metaAt layout parent position tag entry
      ⟨place, m, row index resolver m members⟩ :: foundBlock m place none members
    | none => []
  | _ => []

/-- The blocks in a row of a variant. -/
def foundBlock (m : BlockMeta) (place : List PathStep) (opened : Option FieldGroup) :
    List (String × Value) → List Found
  | [] => []
  | (id, raw) :: rest =>
    match member index m.key id with
    | .tag | .foreign => foundBlock m place opened rest
    | .tab group => foundBlock m place group rest
    | .field entry =>
      foundValue m entry.name (place ++ fieldPlace (entry.group <|> opened) entry.name) entry
          raw ++
        foundBlock m place opened rest
end

/-- The blocks that the rows of a layout are read as. -/
def foundLayout (name : String) (stored : List Value) : List Found :=
  match index.layoutKey name with
  | some collection => foundVariants index resolver name name collection [] 0 stored
  | none => []

end Walk

variable {index : FlatIndex} {resolver : Resolver} {m : BlockMeta} {trail : String}
  {place : List PathStep} {entry : IndexEntry} {f : Found}

/-! ## One level -/

theorem mem_foundRows :
    ∀ {items : List Value} {start : Nat},
      f ∈ foundRows index resolver m trail place entry start items →
      ∃ (i : Nat) (members : List (String × Value)), items[i]? = some (.object members) ∧
        f ∈ foundFields index resolver m (rowTrail trail (start + i))
          (place ++ [.position (start + i)]) entry members := by
  intro items
  induction items with
  | nil =>
    intro start hf
    rw [foundRows] at hf
    exact absurd hf List.not_mem_nil
  | cons item rest ih =>
    intro start hf
    have hlater : f ∈ foundRows index resolver m trail place entry (start + 1) rest →
        ∃ (i : Nat) (members : List (String × Value)),
          (item :: rest)[i]? = some (.object members) ∧
          f ∈ foundFields index resolver m (rowTrail trail (start + i))
            (place ++ [.position (start + i)]) entry members := by
      intro hrest
      obtain ⟨i, members, hitem, hmem⟩ := ih hrest
      rw [Nat.add_assoc, Nat.add_comm 1 i] at hmem
      exact ⟨i + 1, members, hitem, hmem⟩
    cases item with
    | object members =>
      rw [foundRows] at hf
      rcases List.mem_append.mp hf with hhere | hrest
      · exact ⟨0, members, rfl, hhere⟩
      · exact hlater hrest
    | _ =>
      simp only [foundRows] at hf
      exact hlater hf

theorem mem_foundFields :
    ∀ {members : List (String × Value)},
      f ∈ foundFields index resolver m trail place entry members →
      ∃ e ∈ members, ∃ sub, index.childEntry? entry.key e.1 = some sub ∧
        f ∈ foundValue index resolver m (subTrail trail sub.name)
          (place ++ [.member sub.name]) sub e.2
  | [], hf => by
    rw [foundFields] at hf
    exact absurd hf List.not_mem_nil
  | (id, raw) :: rest, hf => by
    rw [foundFields] at hf
    rcases List.mem_append.mp hf with hhere | hrest
    · cases hsub : index.childEntry? entry.key id with
      | none =>
        rw [hsub] at hhere
        exact absurd hhere List.not_mem_nil
      | some sub =>
        rw [hsub] at hhere
        exact ⟨(id, raw), List.mem_cons_self .., sub, hsub, hhere⟩
    · obtain ⟨e, he, sub, hsub, hmem⟩ := mem_foundFields hrest
      exact ⟨e, List.mem_cons_of_mem _ he, sub, hsub, hmem⟩

theorem mem_foundVariants {layout parent collection : String} :
    ∀ {rows : List Value} {start : Nat},
      f ∈ foundVariants index resolver layout parent collection place start rows →
      ∃ (i : Nat) (row : Value), rows[i]? = some row ∧
        f ∈ foundVariant index resolver layout parent collection
          (place ++ [.position (start + i)]) (start + i) row := by
  intro rows
  induction rows with
  | nil =>
    intro start hf
    rw [foundVariants] at hf
    exact absurd hf List.not_mem_nil
  | cons row rest ih =>
    intro start hf
    rw [foundVariants] at hf
    rcases List.mem_append.mp hf with hhere | hrest
    · exact ⟨0, row, rfl, hhere⟩
    · obtain ⟨i, row', hrow, hmem⟩ := ih hrest
      rw [Nat.add_assoc, Nat.add_comm 1 i] at hmem
      exact ⟨i + 1, row', hrow, hmem⟩

theorem mem_foundVariant {layout parent collection : String} {position : Nat} {v : Value}
    (hf : f ∈ foundVariant index resolver layout parent collection place position v) :
    ∃ (members : List (String × Value)) (tag : String) (entry : IndexEntry),
      v = .object members ∧ variant? index collection members = some (tag, entry) ∧
      (f = ⟨place, metaAt layout parent position tag entry,
          row index resolver (metaAt layout parent position tag entry) members⟩ ∨
        f ∈ foundBlock index resolver (metaAt layout parent position tag entry) place none
          members) := by
  cases v with
  | object members =>
    rw [foundVariant] at hf
    cases hvariant : variant? index collection members with
    | none =>
      rw [hvariant] at hf
      exact absurd hf List.not_mem_nil
    | some found =>
      obtain ⟨tag, entry⟩ := found
      rw [hvariant] at hf
      exact ⟨members, tag, entry, rfl, hvariant, List.mem_cons.mp hf⟩
  | _ =>
    simp only [foundVariant] at hf
    exact absurd hf List.not_mem_nil

/-- In the value of a field blocks are in the rows of a collection, in those of a repeater, or in an
object of sub-fields. -/
theorem mem_foundValue {v : Value}
    (hf : f ∈ foundValue index resolver m trail place entry v) :
    (∃ (items : List Value) (i : Nat) (row : Value), v = .array items ∧
        entry.node.shape = .collection ∧ items[i]? = some row ∧
        f ∈ foundVariant index resolver m.layout (m.collectionPath trail) entry.key
          (place ++ [.position i]) i row) ∨
      (∃ (items : List Value) (i : Nat) (members : List (String × Value)), v = .array items ∧
        entry.node = .field .repeater ∧ items[i]? = some (.object members) ∧
        f ∈ foundFields index resolver m (rowTrail trail i) (place ++ [.position i]) entry
          members) ∨
      ∃ members : List (String × Value), v = .object members ∧ entry.node = .field .group ∧
        f ∈ foundFields index resolver m trail place entry members := by
  cases v with
  | array items =>
    rw [foundValue] at hf
    cases hshape : entry.node.shape with
    | collection =>
      rw [hshape] at hf
      obtain ⟨i, row, hrow, hmem⟩ := mem_foundVariants hf
      rw [Nat.zero_add] at hmem
      exact .inl ⟨items, i, row, rfl, rfl, hrow, hmem⟩
    | rows =>
      rw [hshape] at hf
      obtain ⟨i, members, hitem, hmem⟩ := mem_foundRows hf
      rw [Nat.zero_add] at hmem
      exact .inr (.inl ⟨items, i, members, rfl, NodeType.shape_rows hshape, hitem, hmem⟩)
    | _ =>
      rw [hshape] at hf
      exact absurd hf List.not_mem_nil
  | object members =>
    rw [foundValue] at hf
    cases hshape : entry.node.shape with
    | fields =>
      rw [hshape] at hf
      exact .inr (.inr ⟨members, rfl, NodeType.shape_fields hshape, hf⟩)
    | _ =>
      rw [hshape] at hf
      exact absurd hf List.not_mem_nil
  | _ =>
    simp only [foundValue] at hf
    exact absurd hf List.not_mem_nil

/-- In a row of a variant blocks are in the values of its fields, and every field has a group. -/
theorem mem_foundBlock (hindex : index.Coherent) {variant : IndexEntry}
    (hvariant : index.lookup m.key = some variant) (hnode : variant.node = .block) :
    ∀ {members : List (String × Value)} {opened : Option FieldGroup},
      f ∈ foundBlock index resolver m place opened members →
      ∃ e ∈ members, ∃ field g, member index m.key e.1 = .field field ∧
        field.group = some g ∧ isValidName field.name = true ∧
        f ∈ foundValue index resolver m field.name
          (place ++ fieldPlace (some g) field.name) field e.2
  | [], opened, hf => by
    rw [foundBlock] at hf
    exact absurd hf List.not_mem_nil
  | (id, raw) :: rest, opened, hf => by
    have hlater : ∀ {opened : Option FieldGroup},
        f ∈ foundBlock index resolver m place opened rest →
        ∃ e ∈ (id, raw) :: rest, ∃ field g, member index m.key e.1 = .field field ∧
          field.group = some g ∧ isValidName field.name = true ∧
          f ∈ foundValue index resolver m field.name
            (place ++ fieldPlace (some g) field.name) field e.2 := by
      intro opened hrest
      obtain ⟨e, he, found⟩ := mem_foundBlock hindex hvariant hnode hrest
      exact ⟨e, List.mem_cons_of_mem _ he, found⟩
    rw [foundBlock] at hf
    cases hmember : member index m.key id with
    | tag =>
      rw [hmember] at hf
      exact hlater hf
    | foreign =>
      rw [hmember] at hf
      exact hlater hf
    | tab group =>
      rw [hmember] at hf
      exact hlater hf
    | field field =>
      rw [hmember] at hf
      rcases List.mem_append.mp hf with hhere | hrest
      · have hchild : index.childEntry? m.key id = some field := member_field hmember
        obtain ⟨hid, hparent⟩ := FlatIndex.childEntry?_iff.mp hchild
        obtain ⟨⟨g, hgroup⟩, -, hname⟩ := hindex.below_variant hvariant hnode hid hparent
        rw [hgroup] at hhere
        exact ⟨(id, raw), List.mem_cons_self .., field, g, hmember, hgroup, hname, hhere⟩
      · exact hlater hrest

/-! ## What is at a place -/

/-- From what a place leads to the path of a block goes on, and leads to the block. -/
def LeadsTo (place : List PathStep) (v : Value) (f : Found) : Prop :=
  ∃ path, f.place = place ++ path ∧ v.at? path = some f.data

theorem LeadsTo.item {items : List Value} {i : Nat} {v : Value} (hitem : items[i]? = some v)
    (h : LeadsTo (place ++ [.position i]) v f) : LeadsTo place (.array items) f := by
  obtain ⟨path, hplace, hat⟩ := h
  refine ⟨.position i :: path, by rw [hplace, List.append_assoc]; rfl, ?_⟩
  rw [Value.at?, Value.items?, Option.bind_some, hitem]
  exact hat

theorem LeadsTo.member {members : List (String × Value)} {key : String} {v : Value}
    (hmember : Entries.get? key members = some v) (h : LeadsTo (place ++ [.member key]) v f) :
    LeadsTo place (.object members) f := by
  obtain ⟨path, hplace, hat⟩ := h
  refine ⟨.member key :: path, by rw [hplace, List.append_assoc]; rfl, ?_⟩
  rw [Value.at?, Value.get?, Value.members?, Option.bind_some, hmember]
  exact hat

/-- What is shown here of a value: the places of its blocks lead to them. -/
def FoundAt (index : FlatIndex) (resolver : Resolver) (v : Value) : Prop :=
  ∀ {m : BlockMeta} {trail : String} {place : List PathStep} {entry : IndexEntry} {f : Found},
    index.lookup entry.key = some entry → v.WellFormed → Clear.value index entry v →
    f ∈ foundValue index resolver m trail place entry v →
    LeadsTo place (value index resolver m trail entry v) f

theorem foundFields_at (hindex : index.Coherent) {kind : FieldKind}
    (hentry : index.lookup entry.key = some entry) (hnode : entry.node = .field kind)
    (hkind : kind.hasSubFields = true) {members : List (String × Value)}
    (hwell : (Value.object members).WellFormed) (hclear : Clear.fields index entry members)
    (hmembers : ∀ e ∈ members, FoundAt index resolver e.2)
    (hf : f ∈ foundFields index resolver m trail place entry members) :
    LeadsTo place (.object (Entries.ofList (fields index resolver m trail entry members))) f := by
  obtain ⟨e, he, sub, hsub, hmem⟩ := mem_foundFields hf
  obtain ⟨hid, -⟩ := FlatIndex.childEntry?_iff.mp hsub
  have hread : (sub.name, value index resolver m (subTrail trail sub.name) sub e.2) ∈
      Entries.ofList (fields index resolver m trail entry members) := by
    refine (mem_readFields hindex hentry hnode hkind hwell.1 hclear).mpr ⟨e, he, ?_⟩
    unfold readField
    rw [hsub]
  refine LeadsTo.member ((Entries.sorted_ofList _).get?_of_mem hread) ?_
  exact hmembers e he (hindex.lookup_key hid) (Value.wellFormed_of_mem_members hwell.2 e he)
    ((Clear.of_mem_fields hclear he).2 sub hsub) hmem

theorem foundBlock_at (hindex : index.Coherent) {variant : IndexEntry}
    (hvariant : index.lookup m.key = some variant) (hnode : variant.node = .block)
    {members : List (String × Value)} (hwell : (Value.object members).WellFormed)
    (hclear : Clear.block index m.key members)
    (hmembers : ∀ e ∈ members, FoundAt index resolver e.2)
    (hf : f ∈ foundBlock index resolver m place none members) :
    LeadsTo place (row index resolver m members) f := by
  obtain ⟨e, he, field, group, hmember, hgroup, -, hmem⟩ :=
    mem_foundBlock hindex hvariant hnode hf
  obtain ⟨hid, -⟩ := FlatIndex.childEntry?_iff.mp (member_field hmember)
  have hheld := row_held resolver hindex hvariant hnode hwell.1 hclear.foreign
  have hplaced : .grouped group field.name (value index resolver m field.name field e.2) ∈
      members.filterMap (placement? index resolver m) :=
    grouped_mem_placements.mpr ⟨e.1, e.2, field, he, hmember, hgroup, rfl, rfl⟩
  obtain ⟨⟨name, w⟩, hopen, rfl⟩ := List.mem_map.mp (hheld.opened hplaced)
  obtain ⟨fields, rfl, -, hsorted, hfields⟩ := hheld.grouped hopen
  have hvalue : LeadsTo (place ++ [.member group.name]) (.object fields) f := by
    refine LeadsTo.member (hsorted.get?_of_mem ((hfields _ _).mpr hplaced)) ?_
    rw [List.append_assoc]
    exact hmembers e he (hindex.lookup_key hid) (Value.wellFormed_of_mem_members hwell.2 e he)
      ((Clear.of_mem_block hclear he).2 field hmember) hmem
  unfold row assemble
  refine LeadsTo.member ?_ hvalue
  rw [Entries.get?_insert_of_ne _ (FieldGroup.name_ne_metaKey group)]
  exact hheld.sorted.get?_of_mem hopen

theorem foundVariant_at (hindex : index.Coherent) {layout parent collection : String}
    {position : Nat} {v : Value} (hwell : v.WellFormed)
    (hclear : Clear.variant index collection v)
    (hbelow : ∀ w, sizeOf w < sizeOf v → FoundAt index resolver w)
    (hf : f ∈ foundVariant index resolver layout parent collection place position v) :
    LeadsTo place (variantRow index resolver layout parent collection position v) f := by
  obtain ⟨members, tag, variant, rfl, hvariant, hcase⟩ := mem_foundVariant hf
  obtain ⟨-, -, hlookup, hnode⟩ := variant?_named hindex hvariant
  rw [Clear.variant, hvariant] at hclear
  rw [variantRow_eq hvariant]
  rcases hcase with rfl | hmem
  · exact ⟨[], (List.append_nil place).symm, rfl⟩
  · exact foundBlock_at hindex hlookup hnode hwell hclear.2
      (fun e he => hbelow e.2 (Value.sizeOf_member he)) hmem

theorem foundVariants_at (hindex : index.Coherent) {layout parent collection : String}
    {rows : List Value} (hwell : Value.WellFormedItems rows)
    (hclear : Clear.variants index collection rows)
    (hbelow : ∀ row ∈ rows, ∀ w, sizeOf w < sizeOf row → FoundAt index resolver w)
    (hf : f ∈ foundVariants index resolver layout parent collection place 0 rows) :
    LeadsTo place (.array (variantRows index resolver layout parent collection 0 rows)) f := by
  obtain ⟨i, row, hrow, hmem⟩ := mem_foundVariants hf
  have hin := List.mem_of_getElem? hrow
  have hread : (variantRows index resolver layout parent collection 0 rows)[i]? =
      some (variantRow index resolver layout parent collection (0 + i) row) := by
    rw [variantRows_getElem?, hrow]
    rfl
  refine LeadsTo.item hread ?_
  rw [Nat.zero_add] at hmem ⊢
  exact foundVariant_at hindex (Value.wellFormed_of_mem_items hwell row hin)
    (Clear.of_mem_variants hclear hin) (hbelow row hin) hmem

/-- The places of the blocks in the value of a field lead to them. -/
theorem foundValue_at (hindex : index.Coherent) (v : Value) : FoundAt index resolver v := by
  induction v using Value.below_induction with
  | h v ih =>
    intro m trail place entry f hentry hwell hclear hf
    cases v with
    | array items =>
      have hbelow : ∀ item ∈ items, ∀ w, sizeOf w < sizeOf item → FoundAt index resolver w := by
        intro item hitem w hw
        exact ih w (Nat.lt_trans hw (Value.sizeOf_item hitem))
      rw [foundValue] at hf
      rw [Clear.value] at hclear
      rw [value]
      cases hshape : entry.node.shape with
      | collection =>
        rw [hshape] at hf hclear
        dsimp only at hclear ⊢
        rw [Clear.collection] at hclear
        exact foundVariants_at hindex hwell hclear.2 hbelow hf
      | rows =>
        rw [hshape] at hf hclear
        obtain ⟨i, members, hitem, hmem⟩ := mem_foundRows hf
        have hin := List.mem_of_getElem? hitem
        have hread : (rows index resolver m trail entry 0 items)[i]? =
            some (readRow index resolver m trail entry (0 + i) (.object members)) := by
          rw [rows_getElem?, hitem]
          rfl
        refine LeadsTo.item hread ?_
        rw [Nat.zero_add] at hmem ⊢
        exact foundFields_at hindex hentry (NodeType.shape_rows hshape) rfl
          (Value.wellFormed_of_mem_items hwell _ hin) (Clear.of_mem_rows hclear hin)
          (fun e he => hbelow _ hin e.2 (Value.sizeOf_member he)) hmem
      | _ =>
        rw [hshape] at hf
        exact absurd hf List.not_mem_nil
    | object members =>
      rw [foundValue] at hf
      rw [Clear.value] at hclear
      rw [value]
      cases hshape : entry.node.shape with
      | fields =>
        rw [hshape] at hf hclear
        exact foundFields_at hindex hentry (NodeType.shape_fields hshape) rfl hwell hclear
          (fun e he => ih e.2 (Value.sizeOf_member he)) hf
      | _ =>
        rw [hshape] at hf
        exact absurd hf List.not_mem_nil
    | _ =>
      simp only [foundValue] at hf
      exact absurd hf List.not_mem_nil

/-- The place of a block of a layout leads to it, in what the layout is read as. -/
theorem foundLayout_at (hindex : index.Coherent) {layout : String} {rows : List Value}
    (hwell : Value.WellFormedItems rows) (hclear : Clear.layout index layout rows)
    (hf : f ∈ foundLayout index resolver layout rows) :
    (Value.array (Rehydrate.layout index resolver layout rows)).at? f.place = some f.data := by
  unfold foundLayout at hf
  unfold Clear.layout at hclear
  unfold Rehydrate.layout
  cases hlayout : index.layoutKey layout with
  | none =>
    rw [hlayout] at hf
    exact absurd hf List.not_mem_nil
  | some collection =>
    rw [hlayout] at hf hclear
    dsimp only at hclear ⊢
    rw [Clear.collection] at hclear
    obtain ⟨path, hplace, hat⟩ := foundVariants_at hindex hwell hclear.2
      (fun _ _ w _ => foundValue_at hindex w) hf
    rw [List.nil_append] at hplace
    rw [hplace]
    exact hat

/-! ## Where spots lie -/

/-- A block as it is read from a row, of a given layout. -/
structure ReadAs (index : FlatIndex) (resolver : Resolver) (layout : String) (f : Found) :
    Prop where
  layout : f.envelope.layout = layout
  name : isValidName f.envelope.block = true
  data : ∃ members, f.data = row index resolver f.envelope members

/-- A block whose spot lies in the field at a trail of a block. -/
structure Behind (index : FlatIndex) (resolver : Resolver) (m : BlockMeta) (trail : String)
    (f : Found) : Prop where
  read : ReadAs index resolver m.layout f
  spot : ∃ t, Under trail t ∧ '/' ∉ t.toList ∧
    Continues "/" (m.spot ++ "/" ++ t) f.envelope.spot

/-- A block whose spot lies at a position of a collection, or continues from there. -/
structure AtRow (index : FlatIndex) (resolver : Resolver) (layout parent : String)
    (position : Nat) (f : Found) : Prop where
  read : ReadAs index resolver layout f
  spot : ∃ b, '/' ∉ (toString position ++ ":" ++ b).toList ∧
    Continues "/" (parent ++ "/" ++ (toString position ++ ":" ++ b)) f.envelope.spot

theorem slash_not_mem {name : String} (h : isValidName name = true) : '/' ∉ name.toList :=
  not_mem_of_isValidName h (by decide)

theorem slash_not_mem_subTrail {name : String} (htrail : '/' ∉ trail.toList)
    (hname : isValidName name = true) : '/' ∉ (subTrail trail name).toList := by
  unfold subTrail
  simp only [String.toList_append, List.mem_append, not_or]
  exact ⟨⟨htrail, by decide⟩, slash_not_mem hname⟩

theorem slash_not_mem_rowTrail {position : Nat} (htrail : '/' ∉ trail.toList) :
    '/' ∉ (rowTrail trail position).toList := by
  unfold rowTrail
  simp only [String.toList_append, List.mem_append, not_or]
  exact ⟨⟨htrail, by decide⟩, not_mem_toString (by decide) position⟩

theorem slash_not_mem_row {position : Nat} {name : String} (hname : isValidName name = true) :
    '/' ∉ (toString position ++ ":" ++ name).toList := by
  simp only [String.toList_append, List.mem_append, not_or]
  exact ⟨⟨not_mem_toString (by decide) position, by decide⟩, slash_not_mem hname⟩

/-- What lies below a longer trail lies below the shorter one. -/
theorem Behind.of_longer {rest : String} (h : Behind index resolver m (trail ++ "." ++ rest) f) :
    Behind index resolver m trail f := by
  obtain ⟨t, hunder, hslash, hspot⟩ := h.spot
  exact ⟨h.read, t, hunder.of_append, hslash, hspot⟩

/-- The blocks in a block at a row of a collection are at that row. -/
theorem Behind.atRow {layout parent tag : String} {position : Nat} {variant : IndexEntry}
    (hname : isValidName variant.name = true)
    (h : Behind index resolver (metaAt layout parent position tag variant) trail f) :
    AtRow index resolver layout parent position f := by
  obtain ⟨t, -, -, hspot⟩ := h.spot
  exact ⟨h.read, variant.name, slash_not_mem_row hname, hspot.of_longer⟩

/-- A block of a row in a field of a block lies in that field. -/
theorem AtRow.behind {position : Nat} (htrail : '/' ∉ trail.toList)
    (h : AtRow index resolver m.layout (m.collectionPath trail) position f) :
    Behind index resolver m trail f := by
  obtain ⟨b, -, hspot⟩ := h.spot
  rw [BlockMeta.collectionPath_eq] at hspot
  exact ⟨h.read, trail, Under.refl trail, htrail, hspot.of_longer⟩

/-- What is shown here of a value: its blocks lie in the field that it is the value of. -/
def FoundBehind (index : FlatIndex) (resolver : Resolver) (v : Value) : Prop :=
  ∀ {m : BlockMeta} {trail : String} {place : List PathStep} {entry : IndexEntry} {f : Found},
    index.lookup entry.key = some entry → '/' ∉ trail.toList →
    f ∈ foundValue index resolver m trail place entry v → Behind index resolver m trail f

theorem foundFields_behind (hindex : index.Coherent) {kind : FieldKind}
    (hentry : index.lookup entry.key = some entry) (hnode : entry.node = .field kind)
    (hkind : kind.hasSubFields = true) (htrail : '/' ∉ trail.toList)
    {members : List (String × Value)}
    (hmembers : ∀ e ∈ members, FoundBehind index resolver e.2)
    (hf : f ∈ foundFields index resolver m trail place entry members) :
    ∃ e ∈ members, ∃ sub, index.childEntry? entry.key e.1 = some sub ∧
      isValidName sub.name = true ∧
      f ∈ foundValue index resolver m (subTrail trail sub.name)
        (place ++ [.member sub.name]) sub e.2 ∧
      Behind index resolver m (subTrail trail sub.name) f := by
  obtain ⟨e, he, sub, hsub, hmem⟩ := mem_foundFields hf
  obtain ⟨hid, hbelow⟩ := FlatIndex.childEntry?_iff.mp hsub
  obtain ⟨-, -, hname⟩ := hindex.below_row hentry hnode hkind hid hbelow
  exact ⟨e, he, sub, hsub, hname, hmem, hmembers e he (hindex.lookup_key hid)
    (slash_not_mem_subTrail htrail hname) hmem⟩

theorem foundBlock_behind (hindex : index.Coherent) {variant : IndexEntry}
    (hvariant : index.lookup m.key = some variant) (hnode : variant.node = .block)
    {members : List (String × Value)} {opened : Option FieldGroup}
    (hmembers : ∀ e ∈ members, FoundBehind index resolver e.2)
    (hf : f ∈ foundBlock index resolver m place opened members) :
    ∃ e ∈ members, ∃ field g, index.childEntry? m.key e.1 = some field ∧
      field.group = some g ∧ isValidName field.name = true ∧
      f ∈ foundValue index resolver m field.name
        (place ++ fieldPlace (some g) field.name) field e.2 ∧
      Behind index resolver m field.name f := by
  obtain ⟨e, he, field, g, hmember, hgroup, hname, hmem⟩ :=
    mem_foundBlock hindex hvariant hnode hf
  have hchild := member_field hmember
  obtain ⟨hid, -⟩ := FlatIndex.childEntry?_iff.mp hchild
  exact ⟨e, he, field, g, hchild, hgroup, hname, hmem, hmembers e he (hindex.lookup_key hid)
    (slash_not_mem hname) hmem⟩

theorem foundVariant_atRow (hindex : index.Coherent) {layout parent collection : String}
    {position : Nat} {v : Value}
    (hbelow : ∀ w, sizeOf w < sizeOf v → FoundBehind index resolver w)
    (hf : f ∈ foundVariant index resolver layout parent collection place position v) :
    AtRow index resolver layout parent position f := by
  obtain ⟨members, tag, variant, rfl, hvariant, hcase⟩ := mem_foundVariant hf
  obtain ⟨-, -, hlookup, hnode⟩ := variant?_named hindex hvariant
  have hname := hindex.variant_name hlookup hnode
  rcases hcase with rfl | hmem
  · exact ⟨⟨rfl, hname, members, rfl⟩, variant.name, slash_not_mem_row hname, Or.inl rfl⟩
  · obtain ⟨_, -, _, _, -, -, -, -, hbehind⟩ := foundBlock_behind hindex hlookup hnode
      (fun e he => hbelow e.2 (Value.sizeOf_member he)) hmem
    exact hbehind.atRow hname

/-- The blocks in the value of a field lie in that field. -/
theorem foundValue_behind (hindex : index.Coherent) (v : Value) :
    FoundBehind index resolver v := by
  induction v using Value.below_induction with
  | h v ih =>
    intro m trail place entry f hentry htrail hf
    rcases mem_foundValue hf with ⟨items, i, row, rfl, -, hrow, hmem⟩ |
      ⟨items, i, members, rfl, hnode, hrow, hmem⟩ | ⟨members, rfl, hnode, hmem⟩
    · have hitem := Value.sizeOf_item (List.mem_of_getElem? hrow)
      have hat : AtRow index resolver m.layout (m.collectionPath trail) i f :=
        foundVariant_atRow hindex (fun w hw => ih w (Nat.lt_trans hw hitem)) hmem
      exact hat.behind htrail
    · have hitem := Value.sizeOf_item (List.mem_of_getElem? hrow)
      obtain ⟨_, -, _, -, -, -, hbehind⟩ := foundFields_behind hindex hentry hnode rfl
        (slash_not_mem_rowTrail htrail)
        (fun e he => ih e.2 (Nat.lt_trans (Value.sizeOf_member he) hitem)) hmem
      have hrowTrail : Behind index resolver m (rowTrail trail i) f := hbehind.of_longer
      exact hrowTrail.of_longer
    · obtain ⟨_, -, _, -, -, -, hbehind⟩ := foundFields_behind hindex hentry hnode rfl htrail
        (fun e he => ih e.2 (Value.sizeOf_member he)) hmem
      exact hbehind.of_longer

end Rehydrate

end PageBlocks
