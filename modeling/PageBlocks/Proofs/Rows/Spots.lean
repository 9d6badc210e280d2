import PageBlocks.Proofs.Rows.Found
import PageBlocks.Render.Cache

/-!
# Spots of blocks

A spot says which row of which collection a block is, and of the blocks around
it the same. Of a field it says the name alone. So blocks at different places
have different spots as long as no block has two fields of one name that both
hold blocks, in two of its groups (`FlatIndex.NamesApart`).

> `foundValue_onePlace`: in the value of a field a spot leads to one place.

Renderings of blocks are kept under their spots, so they are told apart by the
same condition (`keys_apart`), and without it they are not (`keys_collide`).
-/

namespace PageBlocks

open Attempt

/-- Entries in whose values blocks can be. -/
inductive FlatIndex.HoldsBlocks (index : FlatIndex) : IndexEntry → Prop where
  | collection {e : IndexEntry} (h : e.node.shape = .collection) : HoldsBlocks index e
  | inside {e sub : IndexEntry} {id : String} (h : index.childEntry? e.key id = some sub)
      (hsub : HoldsBlocks index sub) : HoldsBlocks index e

/-- No block has two fields of one name in different groups that both hold blocks. -/
def FlatIndex.NamesApart (index : FlatIndex) : Prop :=
  ∀ variant v id e id' e', index.lookup variant = some v → v.node = .block →
    index.childEntry? variant id = some e → index.childEntry? variant id' = some e' →
    e.name = e'.name → index.HoldsBlocks e → index.HoldsBlocks e' → e.group = e'.group

/-- Fields of one name hold blocks in one group if no name is used in two groups of one parent. -/
theorem FlatIndex.NamesApart.of_entries {index : FlatIndex}
    (h : ∀ e ∈ index.entries.values, ∀ e' ∈ index.entries.values,
      e.parent = e'.parent → e.name = e'.name → e.group = e'.group) : index.NamesApart := by
  intro variant v id e id' e' _ _ hchild hchild' hname _ _
  obtain ⟨hid, hparent⟩ := childEntry?_iff.mp hchild
  obtain ⟨hid', hparent'⟩ := childEntry?_iff.mp hchild'
  exact h e (Dict.mem_values_iff.mpr ⟨id, hid⟩) e' (Dict.mem_values_iff.mpr ⟨id', hid'⟩)
    (hparent.trans hparent'.symm) hname

namespace Rehydrate

variable {index : FlatIndex} {resolver : Resolver} {m : BlockMeta} {trail : String}
  {place : List PathStep} {entry : IndexEntry} {f g : Found}

/-- Only in values of entries that hold blocks there are any. -/
theorem holdsBlocks_of_mem (v : Value) :
    ∀ {m : BlockMeta} {trail : String} {place : List PathStep} {entry : IndexEntry},
      f ∈ foundValue index resolver m trail place entry v → index.HoldsBlocks entry := by
  induction v using Value.below_induction with
  | h v ih =>
    intro m trail place entry hf
    rcases mem_foundValue hf with ⟨items, i, row, rfl, hshape, -, -⟩ |
      ⟨items, i, members, rfl, -, hrow, hmem⟩ | ⟨members, rfl, -, hmem⟩
    · exact .collection hshape
    · obtain ⟨e, he, sub, hsub, hmem⟩ := mem_foundFields hmem
      have hitem := Value.sizeOf_item (List.mem_of_getElem? hrow)
      exact .inside hsub (ih e.2 (Nat.lt_trans (Value.sizeOf_member he) hitem) hmem)
    · obtain ⟨e, he, sub, hsub, hmem⟩ := mem_foundFields hmem
      exact .inside hsub (ih e.2 (Value.sizeOf_member he) hmem)

/-! ## What a spot tells -/

/-- A spot that lies in two fields of a block lies at a trail below both. -/
theorem Behind.under {trail' : String} (hf : Behind index resolver m trail f)
    (hg : Behind index resolver m trail' g) (hspot : f.envelope.spot = g.envelope.spot) :
    ∃ t, Under trail t ∧ Under trail' t := by
  obtain ⟨t, hunder, hslash, hcontinues⟩ := hf.spot
  obtain ⟨t', hunder', hslash', hcontinues'⟩ := hg.spot
  rw [hspot] at hcontinues
  obtain rfl : t = t' := Continues.piece_eq (c := '/') rfl hslash hslash' hcontinues hcontinues'
  exact ⟨t, hunder, hunder'⟩

/-- Blocks inside a block have other spots than the block. -/
theorem Behind.spot_ne (hf : Behind index resolver m trail f) : f.envelope.spot ≠ m.spot := by
  intro hsame
  obtain ⟨t, -, -, hcontinues⟩ := hf.spot
  rw [hsame] at hcontinues
  rcases hcontinues with heq | ⟨rest, heq⟩
  all_goals
    have hlength := congrArg String.length heq
    simp only [String.length_append] at hlength
    have hslash : "/".length = 1 := by decide
    omega

/-- Blocks with one spot are at one row of a collection. -/
theorem AtRow.position_eq {layout parent : String} {i j : Nat}
    (hf : AtRow index resolver layout parent i f) (hg : AtRow index resolver layout parent j g)
    (hspot : f.envelope.spot = g.envelope.spot) : i = j := by
  obtain ⟨b, hslash, hcontinues⟩ := hf.spot
  obtain ⟨b', hslash', hcontinues'⟩ := hg.spot
  rw [hspot] at hcontinues
  have hrow := Continues.piece_eq (c := '/') rfl hslash hslash' hcontinues hcontinues'
  have hcolon : ∀ n : Nat, ':' ∉ (toString n).toList := not_mem_toString (by decide)
  exact toString_injective (cut_eq (c := ':') rfl (hcolon i) (hcolon j) hrow).1

/-! ## One place for each spot -/

/-- Among some blocks a spot leads to one place. -/
def OnePlace (blocks : List Found) : Prop :=
  ∀ f ∈ blocks, ∀ g ∈ blocks, f.envelope.spot = g.envelope.spot → f.place = g.place

/-- What is shown here of a value. -/
def ValueOnePlace (index : FlatIndex) (resolver : Resolver) (v : Value) : Prop :=
  ∀ {m : BlockMeta} {trail : String} {place : List PathStep} {entry : IndexEntry},
    index.lookup entry.key = some entry → '/' ∉ trail.toList → v.WellFormed →
    OnePlace (foundValue index resolver m trail place entry v)

/-- Members with the same key are the same member. -/
theorem member_eq {members : List (String × Value)} (hsorted : Entries.Sorted members)
    {e e' : String × Value} (he : e ∈ members) (he' : e' ∈ members) (hkey : e.1 = e'.1) :
    e = e' :=
  List.inj_on_of_nodup_map hsorted.nodup_keys he he' hkey

theorem foundFields_onePlace (hindex : index.Coherent) {kind : FieldKind}
    (hentry : index.lookup entry.key = some entry) (hnode : entry.node = .field kind)
    (hkind : kind.hasSubFields = true) (htrail : '/' ∉ trail.toList)
    {members : List (String × Value)} (hwell : (Value.object members).WellFormed)
    (hmembers : ∀ e ∈ members, ValueOnePlace index resolver e.2) :
    OnePlace (foundFields index resolver m trail place entry members) := by
  intro f hf g hg hspot
  obtain ⟨e, he, sub, hsub, hname, hmem, hbehind⟩ := foundFields_behind hindex hentry hnode hkind
    htrail (fun e _ => foundValue_behind hindex e.2) hf
  obtain ⟨e', he', sub', hsub', hname', hmem', hbehind'⟩ := foundFields_behind hindex hentry hnode
    hkind htrail (fun e _ => foundValue_behind hindex e.2) hg
  -- Below two sub-fields there is no common trail unless they have one name.
  obtain ⟨t, hunder, hunder'⟩ := hbehind.under hbehind' hspot
  have hsame : sub.name = sub'.name := Under.name_eq (trail ++ ".")
    (not_mem_of_isValidName hname (by decide)) (not_mem_of_isValidName hname' (by decide))
    hunder hunder'
  obtain ⟨hid, hbelow⟩ := FlatIndex.childEntry?_iff.mp hsub
  obtain ⟨hid', hbelow'⟩ := FlatIndex.childEntry?_iff.mp hsub'
  have hgroup := (hindex.below_row hentry hnode hkind hid hbelow).1
  have hgroup' := (hindex.below_row hentry hnode hkind hid' hbelow').1
  have hkey : e.1 = e'.1 := hindex.id_eq hsub hsub' (by rw [hgroup, hgroup', hsame])
  obtain rfl := member_eq hwell.1 he he' hkey
  obtain rfl : sub = sub' := Option.some.inj (hsub.symm.trans hsub')
  exact hmembers e he (hindex.lookup_key hid) (slash_not_mem_subTrail htrail hname)
    (Value.wellFormed_of_mem_members hwell.2 e he) f hmem g hmem' hspot

theorem foundBlock_onePlace (hindex : index.Coherent) (hapart : index.NamesApart)
    {variant : IndexEntry} (hvariant : index.lookup m.key = some variant)
    (hnode : variant.node = .block) {members : List (String × Value)}
    (hwell : (Value.object members).WellFormed)
    (hmembers : ∀ e ∈ members, ValueOnePlace index resolver e.2) :
    OnePlace (foundBlock index resolver m place none members) := by
  intro f hf g hg hspot
  obtain ⟨e, he, field, group, hchild, hgroup, hname, hmem, hbehind⟩ := foundBlock_behind hindex
    hvariant hnode (fun e _ => foundValue_behind hindex e.2) hf
  obtain ⟨e', he', field', group', hchild', hgroup', hname', hmem', hbehind'⟩ :=
    foundBlock_behind hindex hvariant hnode (fun e _ => foundValue_behind hindex e.2) hg
  obtain ⟨t, hunder, hunder'⟩ := hbehind.under hbehind' hspot
  have hsame : field.name = field'.name := Under.name_eq ""
    (not_mem_of_isValidName hname (by decide)) (not_mem_of_isValidName hname' (by decide))
    (by rwa [String.empty_append]) (by rwa [String.empty_append])
  -- The spot does not tell the group, but fields of one name that hold blocks are in one group.
  have hgroups : field.group = field'.group := hapart m.key variant e.1 field e'.1 field' hvariant
    hnode hchild hchild' hsame (holdsBlocks_of_mem e.2 hmem) (holdsBlocks_of_mem e'.2 hmem')
  have hkey : e.1 = e'.1 := hindex.id_eq hchild hchild' (by rw [hgroups, hsame])
  obtain rfl := member_eq hwell.1 he he' hkey
  obtain rfl : field = field' := Option.some.inj (hchild.symm.trans hchild')
  obtain rfl : group = group' := Option.some.inj (hgroup.symm.trans hgroup')
  obtain ⟨hid, -⟩ := FlatIndex.childEntry?_iff.mp hchild
  exact hmembers e he (hindex.lookup_key hid) (slash_not_mem hname)
    (Value.wellFormed_of_mem_members hwell.2 e he) f hmem g hmem' hspot

theorem foundVariant_onePlace (hindex : index.Coherent) (hapart : index.NamesApart)
    {layout parent collection : String} {position : Nat} {v : Value} (hwell : v.WellFormed)
    (hbelow : ∀ w, sizeOf w < sizeOf v → ValueOnePlace index resolver w) :
    OnePlace (foundVariant index resolver layout parent collection place position v) := by
  intro f hf g hg hspot
  obtain ⟨members, tag, variant, rfl, hvariant, hf⟩ := mem_foundVariant hf
  obtain ⟨members', tag', variant', heq, hvariant', hg⟩ := mem_foundVariant hg
  cases heq
  obtain ⟨rfl, rfl⟩ := Prod.mk.inj (Option.some.inj (hvariant.symm.trans hvariant'))
  obtain ⟨-, -, hlookup, hnode⟩ := variant?_named hindex hvariant
  have hbehind : ∀ {k : Found}, k ∈ foundBlock index resolver
      (metaAt layout parent position tag variant) place none members →
      k.envelope.spot ≠ (metaAt layout parent position tag variant).spot := by
    intro k hk
    obtain ⟨_, -, _, _, -, -, -, -, hin⟩ := foundBlock_behind hindex hlookup hnode
      (fun e _ => foundValue_behind hindex e.2) hk
    exact hin.spot_ne
  rcases hf with rfl | hf
  · rcases hg with rfl | hg
    · rfl
    · exact absurd hspot.symm (hbehind hg)
  · rcases hg with rfl | hg
    · exact absurd hspot (hbehind hf)
    · exact foundBlock_onePlace hindex hapart hlookup hnode hwell
        (fun e he => hbelow e.2 (Value.sizeOf_member he)) f hf g hg hspot

theorem foundVariants_onePlace (hindex : index.Coherent) (hapart : index.NamesApart)
    {layout parent collection : String} {start : Nat} {rows : List Value}
    (hwell : Value.WellFormedItems rows)
    (hbelow : ∀ row ∈ rows, ∀ w, sizeOf w < sizeOf row → ValueOnePlace index resolver w) :
    OnePlace (foundVariants index resolver layout parent collection place start rows) := by
  intro f hf g hg hspot
  obtain ⟨i, row, hrow, hf⟩ := mem_foundVariants hf
  obtain ⟨j, row', hrow', hg⟩ := mem_foundVariants hg
  have hat := foundVariant_atRow hindex (fun w _ => foundValue_behind hindex w) hf
  have hat' := foundVariant_atRow hindex (fun w _ => foundValue_behind hindex w) hg
  obtain rfl : i = j := Nat.add_left_cancel (hat.position_eq hat' hspot)
  obtain rfl : row = row' := Option.some.inj (hrow.symm.trans hrow')
  have hmem := List.mem_of_getElem? hrow
  exact foundVariant_onePlace hindex hapart (Value.wellFormed_of_mem_items hwell row hmem)
    (hbelow row hmem) f hf g hg hspot

theorem foundRows_onePlace (hindex : index.Coherent)
    (hentry : index.lookup entry.key = some entry) (hnode : entry.node = .field .repeater)
    (htrail : '/' ∉ trail.toList) {start : Nat} {items : List Value}
    (hwell : Value.WellFormedItems items)
    (hbelow : ∀ item ∈ items, ∀ w, sizeOf w < sizeOf item → ValueOnePlace index resolver w) :
    OnePlace (foundRows index resolver m trail place entry start items) := by
  intro f hf g hg hspot
  obtain ⟨i, members, hitem, hf⟩ := mem_foundRows hf
  obtain ⟨j, members', hitem', hg⟩ := mem_foundRows hg
  have hrow : ∀ {n : Nat} {k : Found} {place : List PathStep} {members : List (String × Value)},
      k ∈ foundFields index resolver m (rowTrail trail n) place entry members →
      Behind index resolver m (rowTrail trail n) k := by
    intro n k place members hk
    obtain ⟨_, -, _, -, -, -, hbehind⟩ := foundFields_behind hindex hentry hnode rfl
      (slash_not_mem_rowTrail htrail) (fun e _ => foundValue_behind hindex e.2) hk
    exact hbehind.of_longer
  obtain ⟨t, hunder, hunder'⟩ := (hrow hf).under (hrow hg) hspot
  have hposition : toString (start + i) = toString (start + j) :=
    Under.name_eq (trail ++ ".") (dot_not_mem_toString _) (dot_not_mem_toString _) hunder hunder'
  obtain rfl : i = j := Nat.add_left_cancel (toString_injective hposition)
  obtain rfl : members = members' := by
    have hsame := hitem.symm.trans hitem'
    cases hsame
    rfl
  have hmem := List.mem_of_getElem? hitem
  exact foundFields_onePlace hindex hentry hnode rfl (slash_not_mem_rowTrail htrail)
    (Value.wellFormed_of_mem_items hwell _ hmem)
    (fun e he => hbelow _ hmem e.2 (Value.sizeOf_member he)) f hf g hg hspot

theorem onePlace_nil : OnePlace [] := fun _ hf => absurd hf List.not_mem_nil

/-- In the value of a field a spot leads to one place. -/
theorem foundValue_onePlace (hindex : index.Coherent) (hapart : index.NamesApart) (v : Value) :
    ValueOnePlace index resolver v := by
  induction v using Value.below_induction with
  | h v ih =>
    intro m trail place entry hentry htrail hwell
    cases v with
    | array items =>
      have hbelow : ∀ item ∈ items, ∀ w, sizeOf w < sizeOf item →
          ValueOnePlace index resolver w := by
        intro item hitem w hw
        exact ih w (Nat.lt_trans hw (Value.sizeOf_item hitem))
      rw [foundValue]
      cases hshape : entry.node.shape with
      | collection => exact foundVariants_onePlace hindex hapart hwell hbelow
      | rows =>
        exact foundRows_onePlace hindex hentry (NodeType.shape_rows hshape) htrail hwell hbelow
      | _ => exact onePlace_nil
    | object members =>
      rw [foundValue]
      cases hshape : entry.node.shape with
      | fields =>
        exact foundFields_onePlace hindex hentry (NodeType.shape_fields hshape) rfl htrail hwell
          fun e he => ih e.2 (Value.sizeOf_member he)
      | _ => exact onePlace_nil
    | _ =>
      simp only [foundValue]
      exact onePlace_nil

/-- Among the blocks of a layout a spot leads to one place. -/
theorem foundLayout_onePlace (hindex : index.Coherent) (hapart : index.NamesApart)
    {layout : String} {rows : List Value} (hwell : Value.WellFormedItems rows) :
    OnePlace (foundLayout index resolver layout rows) := by
  unfold foundLayout
  cases index.layoutKey layout with
  | none => exact onePlace_nil
  | some collection =>
    exact foundVariants_onePlace hindex hapart hwell fun _ _ w _ =>
      foundValue_onePlace hindex hapart w

/-- The blocks of a layout are read as blocks of that layout. -/
theorem foundLayout_read (hindex : index.Coherent) {layout : String} {rows : List Value}
    (hf : f ∈ foundLayout index resolver layout rows) : ReadAs index resolver layout f := by
  unfold foundLayout at hf
  cases hlayout : index.layoutKey layout with
  | none =>
    rw [hlayout] at hf
    exact absurd hf List.not_mem_nil
  | some collection =>
    rw [hlayout] at hf
    obtain ⟨i, row, -, hmem⟩ := mem_foundVariants hf
    exact (foundVariant_atRow hindex (fun w _ => foundValue_behind hindex w) hmem).read

/-- The envelope that a block is read back with says of its spot what it was written with. -/
theorem ReadAs.envelope_eq {layout : String} (h : ReadAs index resolver layout f)
    (hm : BlockMeta.ofData? f.data = some m) :
    m.layout = layout ∧ isValidName m.block = true ∧ m.spot = f.envelope.spot := by
  obtain ⟨members, hdata⟩ := h.data
  rw [hdata, row, ofData?_assemble] at hm
  obtain ⟨hlayout, hblock, hposition, hparent⟩ := BlockMeta.place_of_ofDatum? hm
  refine ⟨hlayout.trans h.layout, hblock ▸ h.name, ?_⟩
  unfold BlockMeta.spot
  rw [hblock, hposition, hparent]

end Rehydrate

/-! ## Keys -/

theorem CacheKey.composite_ofBlock (item : String) (m : BlockMeta) :
    (ofBlock item m).composite =
      item ++ "|" ++ m.layout ++ "|" ++ m.parent ++ "|" ++ toString m.index ++ "|" ++ m.block := by
  simp only [composite, parts, ofBlock, Option.getD_some, Option.map_some, Option.toList_some,
    List.cons_append, List.nil_append, String.intercalate_cons_cons, String.intercalate_singleton,
    String.append_assoc]

/-- Blocks of one layout that are kept under one key have one spot. -/
theorem BlockMeta.spot_eq_of_composite {item : String} {m n : BlockMeta}
    (hlayout : m.layout = n.layout) (hm : isValidName m.block = true)
    (hn : isValidName n.block = true)
    (hkey : (CacheKey.ofBlock item m).composite = (CacheKey.ofBlock item n).composite) :
    m.spot = n.spot := by
  have hbar : ∀ {name : String}, isValidName name = true → '|' ∉ name.toList :=
    fun h => not_mem_of_isValidName h (by decide)
  have hdigits : ∀ k : Nat, '|' ∉ (toString k).toList := not_mem_toString (by decide)
  rw [CacheKey.composite_ofBlock, CacheKey.composite_ofBlock] at hkey
  -- The item and the parents may have bars in them, so the key is taken apart from its end.
  obtain ⟨hkey, hblock⟩ := cut_last_eq (c := '|') rfl (hbar hm) (hbar hn) hkey
  obtain ⟨hkey, hposition⟩ := cut_last_eq (c := '|') rfl (hdigits _) (hdigits _) hkey
  rw [hlayout] at hkey
  have hparent : m.parent = n.parent := (String.append_right_inj _).mp hkey
  unfold spot
  rw [hparent, hposition, hblock]

/-- Blocks at different places of a layout are kept under different keys, unless some block has two
fields of one name that both hold blocks, in two of its groups. In clear rows the places lead to the
blocks, in what the rows are read as. -/
theorem keys_apart {definitions : Definitions} {resources : Resources} {registry : Registry}
    {now : Instant} {schema : CompiledSchema} {resolver : Resolver} {layout item : String}
    {rows : List Value} {f g : Found} {m n : BlockMeta}
    (hbuilt : Gives (Registry.build definitions resources) registry)
    (hcompiled : Gives (compile registry now) schema) (hapart : schema.index.NamesApart)
    (hwell : Value.WellFormedItems rows)
    (hf : f ∈ Rehydrate.foundLayout schema.index resolver layout rows)
    (hg : g ∈ Rehydrate.foundLayout schema.index resolver layout rows)
    (hm : BlockMeta.ofData? f.data = some m) (hn : BlockMeta.ofData? g.data = some n)
    (hplace : f.place ≠ g.place) :
    (CacheKey.ofBlock item m).composite ≠ (CacheKey.ofBlock item n).composite ∧
      (Clear.layout schema.index layout rows →
        let page := Value.array (rehydrateLayout schema.index resolver layout rows).value
        page.at? f.place = some f.data ∧ page.at? g.place = some g.data) := by
  have hindex : schema.index.Coherent := (compile_follows hbuilt hcompiled).coherent
  refine ⟨fun hkey => ?_, fun hclear => ?_⟩
  · obtain ⟨hlayout, hname, hspot⟩ := (Rehydrate.foundLayout_read hindex hf).envelope_eq hm
    obtain ⟨hlayout', hname', hspot'⟩ := (Rehydrate.foundLayout_read hindex hg).envelope_eq hn
    have hspots : m.spot = n.spot :=
      BlockMeta.spot_eq_of_composite (hlayout.trans hlayout'.symm) hname hname' hkey
    have hsame : f.envelope.spot = g.envelope.spot := by
      rw [← hspot, ← hspot', hspots]
    exact hplace (Rehydrate.foundLayout_onePlace hindex hapart hwell f hf g hg hsame)
  · exact ⟨Rehydrate.foundLayout_at hindex hwell hclear hf,
      Rehydrate.foundLayout_at hindex hwell hclear hg⟩

/-- Two boxes on a page. -/
def twoBoxes : List Value :=
  [.object [("acf_fc_layout", .string "box")], .object [("acf_fc_layout", .string "box")]]

/-- They have nothing but their tags, so no key of theirs can clash. -/
theorem twoBoxes_clear : Clear.layout boxSchema.index "page" twoBoxes := by
  have hvariant : ∀ key, Clear.variant boxSchema.index key
      (.object [("acf_fc_layout", .string "box")]) := by
    intro key
    rw [Clear.variant]
    refine ⟨by decide, ?_⟩
    split
    next =>
      rw [Clear.block, Clear.block]
      exact ⟨trivial, trivial⟩
    next => trivial
  unfold Clear.layout
  cases boxSchema.index.layoutKey "page" with
  | none => simp [twoBoxes, NoEnvelope, metaKey]
  | some key =>
    dsimp only
    rw [Clear.collection]
    refine ⟨by decide, ?_⟩
    rw [twoBoxes, Clear.variants, Clear.variants, Clear.variants]
    exact ⟨hvariant key, hvariant key, trivial⟩

theorem two_boxes_apart :
    ∃ f ∈ Rehydrate.foundLayout boxSchema.index .none "page" twoBoxes,
      ∃ g ∈ Rehydrate.foundLayout boxSchema.index .none "page" twoBoxes,
        ∃ m n, BlockMeta.ofData? f.data = some m ∧ BlockMeta.ofData? g.data = some n ∧
          (CacheKey.ofBlock "1" m).composite ≠ (CacheKey.ofBlock "1" n).composite ∧
            (Value.array (rehydrateLayout boxSchema.index .none "page" twoBoxes).value).at?
              f.place = some f.data := by
  have hapart : boxSchema.index.NamesApart := .of_entries (by decide +kernel)
  have hwell : Value.WellFormedItems twoBoxes :=
    ⟨⟨by decide, trivial, trivial⟩, ⟨by decide, trivial, trivial⟩, trivial⟩
  obtain ⟨f, hf, g, hg, hplace, hread, hread'⟩ :
      ∃ f ∈ Rehydrate.foundLayout boxSchema.index .none "page" twoBoxes,
        ∃ g ∈ Rehydrate.foundLayout boxSchema.index .none "page" twoBoxes,
          f.place ≠ g.place ∧ (BlockMeta.ofData? f.data).isSome = true ∧
            (BlockMeta.ofData? g.data).isSome = true := by decide +kernel
  obtain ⟨m, hm⟩ := Option.isSome_iff_exists.mp hread
  obtain ⟨n, hn⟩ := Option.isSome_iff_exists.mp hread'
  obtain ⟨hkeys, hplaces⟩ := keys_apart boxes_built boxes_compiled hapart hwell hf hg hm hn hplace
  exact ⟨f, hf, g, hg, m, n, hm, hn, hkeys, (hplaces twoBoxes_clear).1⟩

/-- A page of pairs, which hold texts in two of their groups, under one name. -/
def pairDefinitions : Definitions :=
  let texts : FieldSlot := .literal ⟨some "items",
    { type := "flexible_content", blocks := some (.only ["text"]) }, []⟩
  { settings := { coreFields := false }
    blocks := .ofList [("text", {}), ("pair", { content := [texts], customise := [texts] })]
    layouts := .ofList [("page", { blocks := .only ["pair"] })] }

def pairRegistry : Registry := (Registry.build pairDefinitions .empty).result

def pairSchema : CompiledSchema := (compile pairRegistry default).result

/-- A pair with a text in each group. -/
def pairRows : List Value :=
  let texts : Value := .array [.object [("acf_fc_layout", .string "text")]]
  [.object [("acf_fc_layout", .string "pair"),
    ("field_29fb5ab35d2df066440ea72cab3596cc", texts),
    ("field_b569d4fbe1e9fc86b4b35202c67ed66b", texts)]]

/-- The two texts of a pair stand at different places and are kept under one key. -/
theorem keys_collide :
    Gives (Registry.build pairDefinitions .empty) pairRegistry ∧
      Gives (compile pairRegistry default) pairSchema ∧ Value.WellFormedItems pairRows ∧
      ∃ f ∈ Rehydrate.foundLayout pairSchema.index .none "page" pairRows,
        ∃ g ∈ Rehydrate.foundLayout pairSchema.index .none "page" pairRows,
          ∃ m n, BlockMeta.ofData? f.data = some m ∧ BlockMeta.ofData? g.data = some n ∧
            f.place ≠ g.place ∧
            (CacheKey.ofBlock "1" m).composite = (CacheKey.ofBlock "1" n).composite := by
  have hwell : Value.WellFormedItems pairRows :=
    ⟨⟨by decide, trivial, ⟨⟨by decide, trivial, trivial⟩, trivial⟩,
      ⟨⟨by decide, trivial, trivial⟩, trivial⟩, trivial⟩, trivial⟩
  -- One evaluation for all: the kernel compiles the definitions once.
  obtain ⟨hbuilt, hcompiled, f, hf, g, hg, hplace, hread, hkey⟩ :
      (Registry.build pairDefinitions .empty).run.value.toOption.isSome = true ∧
        (compile pairRegistry default).run.value.toOption.isSome = true ∧
        ∃ f ∈ Rehydrate.foundLayout pairSchema.index .none "page" pairRows,
          ∃ g ∈ Rehydrate.foundLayout pairSchema.index .none "page" pairRows,
            f.place ≠ g.place ∧ (BlockMeta.ofData? f.data).isSome = true ∧
            (BlockMeta.ofData? f.data).map (fun m => (CacheKey.ofBlock "1" m).composite) =
              (BlockMeta.ofData? g.data).map fun m => (CacheKey.ofBlock "1" m).composite := by
    decide +kernel
  obtain ⟨m, hm⟩ := Option.isSome_iff_exists.mp hread
  rw [hm, Option.map_some] at hkey
  obtain ⟨n, hn, hsame⟩ := Option.map_eq_some_iff.mp hkey.symm
  exact ⟨gives_result hbuilt, gives_result hcompiled, hwell, f, hf, g, hg, m, n, hm, hn, hplace,
    hsame.symm⟩

end PageBlocks
