import PageBlocks.Rows.Normalise
import PageBlocks.Schema.Index
import PageBlocks.Error

/-!
# The layout of a content item

The row of a content item says by the builder's own two fields whether it uses
the builder, and which layout. A select without a choice means the first
layout, which is also the default of the compiled select.
-/

namespace PageBlocks

/-- The layout that a content item renders, with the stored rows of that layout. -/
structure ItemLayout where
  layout : String
  rows : List Value
deriving Inhabited

/-- The value of one of the builder's own fields in a row. -/
def controlValue? (index : FlatIndex) (control : String) (row : List (String × Value)) :
    Option Value :=
  (index.controlKey control).bind fun key => Entries.get? key row

/-- The choice made in the layout select of a row. -/
def layoutChoice? (index : FlatIndex) (row : List (String × Value)) : Option String :=
  ((controlValue? index "layout" row).bind Value.string?).filter fun choice => choice != ""

/-- The layout that a row selects. -/
def selectedLayout (index : FlatIndex) (row : List (String × Value)) : Except Error String :=
  match layoutChoice? index row with
  | some choice =>
    match index.layoutByChoice choice with
    | some layout => .ok layout
    | none => .error (.unknownEntity choice)
  | none =>
    match index.layoutNames.head? with
    | some layout => .ok layout
    | none => .error .noLayouts

/-- The stored rows of a layout in the row of an item. -/
def layoutRows (index : FlatIndex) (layout : String) (row : List (String × Value)) : List Value :=
  (((index.layoutKey layout).bind fun key => Entries.get? key row).bind Value.items?).getD []

/-- The layout of an item, or nothing when the builder is switched off for it. -/
def selectLayout (index : FlatIndex) (row : List (String × Value)) :
    Except Error (Option ItemLayout) :=
  if (controlValue? index "enabled" row).any truthy then do
    let layout ← selectedLayout index row
    return some { layout := layout, rows := layoutRows index layout row }
  else return none

end PageBlocks
