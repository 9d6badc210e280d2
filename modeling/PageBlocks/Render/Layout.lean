import PageBlocks.Render.Cache
import PageBlocks.Rows.Rehydrate
import PageBlocks.Rows.Select

/-!
# Rendering blocks and layouts

A host renders single blocks and wraps the blocks of a layout; everything goes
through the cache. The rows of a layout are rehydrated, each block is rendered
at its place, and the joined output is kept under the layout itself, unless a
placeholder stands in it.
-/

namespace PageBlocks

/-- How a host renders. -/
structure Renderer (σ : Type) where
  /-- A block of a layout, by the names of both, from its data. -/
  block : (layout block : String) → Value → Rendering σ String
  /-- The rendered blocks of a layout; nothing joins them by line breaks. -/
  layout : (layout : String) → List String → Value → Rendering σ (Option String)

/-- What all renderings of one request share. -/
structure RenderRequest where
  pass : RenderPass
  item : String
  now : Instant

/-- Renders one block through the cache. -/
def renderBlock {σ : Type} (request : RenderRequest) (render : (layout block : String) → Value →
    Rendering σ String) (data : Value) : Rendering σ Rendered :=
  match BlockMeta.ofData? data with
  | none => throw .missingMeta
  | some m =>
    getOrRender request.now request.pass (.ofBlock request.item m) do
      return { output := ← render m.layout m.block data }

/-- Renders the blocks of a layout in order. What is no block is passed over. -/
def renderBlocks {σ : Type} (request : RenderRequest) (renderer : Renderer σ) (layout : String) :
    List Value → Rendering σ (List Rendered)
  | [] => return []
  | data :: rest => do
    if (BlockMeta.ofData? data).isNone then
      Rendering.note (.unrecognisedRow layout)
      renderBlocks request renderer layout rest
    else
      let rendered ← renderBlock request renderer.block data
      return rendered :: (← renderBlocks request renderer layout rest)

/-- The data that the wrapping of a layout is rendered from. -/
def layoutData (item layout : String) (blocks : List Value) : Value :=
  .ofMembers [("item", .string item), ("layout", .string layout), ("blocks", .array blocks)]

/-- Renders a layout anew. -/
def renderLayoutAnew {σ : Type} (request : RenderRequest) (index : FlatIndex)
    (resolver : Resolver) (renderer : Renderer σ) (layout : String) (rows : List Value) :
    Rendering σ Rendered := do
  Rendering.noteAll (Rehydrate.layoutNotices index layout rows)
  let blocks := Rehydrate.layout index resolver layout rows
  let rendered ← renderBlocks request renderer layout blocks
  let outputs := rendered.map (·.output)
  let wrapped ← renderer.layout layout outputs (layoutData request.item layout blocks)
  return {
    output := wrapped.getD (String.intercalate "\n" outputs)
    cacheable := rendered.all (·.cacheable) }

/-- Renders a layout of an item through the cache. -/
def renderLayout {σ : Type} (request : RenderRequest) (index : FlatIndex) (resolver : Resolver)
    (renderer : Renderer σ) (layout : String) (rows : List Value) : Rendering σ Rendered :=
  getOrRender request.now request.pass (.ofLayout request.item layout)
    (renderLayoutAnew request index resolver renderer layout rows)

/-- Renders an item by its row, or nothing when the builder is switched off for it. -/
def renderItem {σ : Type} (request : RenderRequest) (index : FlatIndex) (resolver : Resolver)
    (renderer : Renderer σ) (row : List (String × Value)) : Rendering σ (Option Rendered) :=
  match selectLayout index row with
  | .error error => throw error
  | .ok none => do
    Rendering.note (.builderDisabled request.item)
    return none
  | .ok (some selected) => do
    return some (← renderLayout request index resolver renderer selected.layout selected.rows)

end PageBlocks
