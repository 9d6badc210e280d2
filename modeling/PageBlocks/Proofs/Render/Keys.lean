import PageBlocks.Proofs.Rows.Spots

/-!
# What is kept under which text

Renderings are kept under texts, not under keys: the item, the layout, the
collection, and for a block its position and name, joined by bars that nothing
escapes. Items are named by the host and may have bars in them, so a text
cannot be taken apart from its beginning. From its end it can, since names,
paths of collections and positions have no bar:

> `keys_unambiguous`: keys of one sort that are kept under one text are the
> same key, and the key of a layout is kept under the text of a block only
> where there is a bar in its item.

Which item that is can be told exactly (`composite_ofLayout_eq_iff`): it goes
on behind the block's own item with the block's layout and collection.
-/

namespace PageBlocks

/-- No bar stands in what tells a block from others of its item. -/
structure BlockMeta.Barless (m : BlockMeta) : Prop where
  layout : '|' ∉ m.layout.toList
  parent : '|' ∉ m.parent.toList
  block : '|' ∉ m.block.toList

namespace CacheKey

theorem composite_ofLayout (item layout : String) :
    (ofLayout item layout).composite = item ++ "|" ++ layout ++ "|" ++ layout := by
  simp only [composite, parts, ofLayout, Option.getD_none, Option.map_none, Option.toList_none,
    List.append_nil, String.intercalate_cons_cons, String.intercalate_singleton,
    String.append_assoc]

/-- The text of a block's key tells the key. -/
theorem ofBlock_eq_of_composite {item item' : String} {m m' : BlockMeta} (hm : m.Barless)
    (hm' : m'.Barless) (h : (ofBlock item m).composite = (ofBlock item' m').composite) :
    ofBlock item m = ofBlock item' m' := by
  have hdigits : ∀ n : Nat, '|' ∉ (toString n).toList := not_mem_toString (by decide)
  rw [composite_ofBlock, composite_ofBlock] at h
  -- Piece by piece from the end; what is left over is the item, whatever stands in it.
  obtain ⟨h, hblock⟩ := cut_last_eq rfl hm.block hm'.block h
  obtain ⟨h, hindex⟩ := cut_last_eq rfl (hdigits _) (hdigits _) h
  obtain ⟨h, hparent⟩ := cut_last_eq rfl hm.parent hm'.parent h
  obtain ⟨hitem, hlayout⟩ := cut_last_eq rfl hm.layout hm'.layout h
  unfold ofBlock
  rw [hitem, hlayout, hparent, toString_injective hindex, hblock]

/-- The text of a layout's key tells the key. -/
theorem ofLayout_eq_of_composite {item item' layout layout' : String}
    (hlayout : '|' ∉ layout.toList) (hlayout' : '|' ∉ layout'.toList)
    (h : (ofLayout item layout).composite = (ofLayout item' layout').composite) :
    ofLayout item layout = ofLayout item' layout' := by
  rw [composite_ofLayout, composite_ofLayout] at h
  obtain ⟨h, hlast⟩ := cut_last_eq rfl hlayout hlayout' h
  obtain ⟨hitem, -⟩ := cut_last_eq rfl hlayout hlayout' h
  rw [hitem, hlast]

/-- The layouts that are kept under the text of a block: the layout has the name of the block,
which is its position too, and the item ends in the block's layout and collection. -/
theorem composite_ofLayout_eq_iff {item item' layout : String} {m : BlockMeta}
    (hlayout : '|' ∉ layout.toList) (hm : m.Barless) :
    (ofLayout item layout).composite = (ofBlock item' m).composite ↔
      item = item' ++ "|" ++ m.layout ++ "|" ++ m.parent ∧ layout = toString m.index ∧
        layout = m.block := by
  have hdigits : '|' ∉ (toString m.index).toList := not_mem_toString (by decide) _
  rw [composite_ofLayout, composite_ofBlock]
  constructor
  · intro h
    obtain ⟨h, hblock⟩ := cut_last_eq rfl hlayout hm.block h
    obtain ⟨hitem, hindex⟩ := cut_last_eq rfl hlayout hdigits h
    exact ⟨hitem, hindex, hblock⟩
  · rintro ⟨hitem, hindex, hblock⟩
    rw [hitem, ← hindex, ← hblock]

/-- With bars in an item a layout can be taken for a block. -/
example : (ofLayout "7|page|page" "3").composite =
    (ofBlock "7"
      { layout := "page", block := "3", key := "", index := 3, parent := "page" }).composite := rfl

end CacheKey

open CacheKey in
/-- As long as names and collections have no bar, two blocks that are kept under one text are one
key, whatever their items, and so are two layouts; a layout is never kept under the text of a block
when its item has no bar. -/
theorem keys_unambiguous :
    (∀ item item' m m', BlockMeta.Barless m → BlockMeta.Barless m' →
      (ofBlock item m).composite = (ofBlock item' m').composite →
        ofBlock item m = ofBlock item' m') ∧
    (∀ item item' layout layout', '|' ∉ layout.toList → '|' ∉ layout'.toList →
      (ofLayout item layout).composite = (ofLayout item' layout').composite →
        ofLayout item layout = ofLayout item' layout') ∧
    ∀ item item' layout m, '|' ∉ layout.toList → BlockMeta.Barless m → '|' ∉ item.toList →
      (ofLayout item layout).composite ≠ (ofBlock item' m).composite := by
  refine ⟨fun _ _ _ _ => ofBlock_eq_of_composite, fun _ _ _ _ => ofLayout_eq_of_composite, ?_⟩
  intro item item' layout m hlayout hm hitem h
  obtain ⟨hcontinued, -⟩ := (composite_ofLayout_eq_iff hlayout hm).mp h
  exact piece_ne rfl hitem hcontinued

/-- A text in a column, as it is read back. -/
def columnText : BlockMeta :=
  { layout := "page", block := "text", key := "block_1", index := 3
    parent := "page/1:columns/items.0.content" }

open CacheKey in
/-- How a row names its variant is no part of the key, and bars in an item do no harm. -/
theorem column_text_unambiguous :
    ofBlock "7|page" columnText = ofBlock "7|page" { columnText with tag := "text" } ∧
      (ofLayout "7|page" "page").composite ≠ (ofLayout "7" "page").composite ∧
      (ofLayout "7" "page").composite ≠ (ofBlock "7|page" columnText).composite := by
  have hbarless : columnText.Barless := ⟨by decide, by decide, by decide⟩
  have hpage : '|' ∉ ("page" : String).toList := by decide
  refine ⟨?_, fun h => ?_, ?_⟩
  · exact keys_unambiguous.1 _ _ columnText { columnText with tag := "text" } hbarless
      ⟨hbarless.layout, hbarless.parent, hbarless.block⟩ rfl
  · exact absurd (keys_unambiguous.2.1 _ _ _ _ hpage hpage h) (by decide)
  · exact keys_unambiguous.2.2 "7" "7|page" _ _ hpage hbarless (by decide)

end PageBlocks
