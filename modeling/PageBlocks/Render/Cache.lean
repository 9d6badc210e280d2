import PageBlocks.Store
import PageBlocks.Rows.Meta
import PageBlocks.Notice
import PageBlocks.Definitions.Basic

/-!
# The render cache

Renderings are kept by what was rendered: a content item's layout, or one block
at its place. A pass that busts the cache renders anew and leaves what is kept
alone; a rendering that holds a placeholder for a missing template is never
kept.

Rendering runs in a state: the cache, and whatever the host keeps of its own.
-/

namespace PageBlocks

/-- Identity of a rendered unit. -/
structure CacheKey where
  item : String
  layout : String
  /-- Path of the collection around a block. -/
  parent : Option String := none
  /-- Position of a block in its collection. -/
  index : Option Nat := none
  block : Option String := none
deriving DecidableEq, Repr, Inhabited

namespace CacheKey

/-- A whole layout. -/
def ofLayout (item layout : String) : CacheKey := { item := item, layout := layout }

/-- One block at its place. -/
def ofBlock (item : String) (m : BlockMeta) : CacheKey :=
  { item := item, layout := m.layout, parent := some m.parent, index := some m.index
    block := some m.block }

/-- The parts of the text that a unit is kept under. -/
def parts (key : CacheKey) : List String :=
  [key.item, key.layout, key.parent.getD key.layout] ++ (key.index.map toString).toList ++
    key.block.toList

/-- The text that a unit is kept under. -/
def composite (key : CacheKey) : String := String.intercalate "|" key.parts

def toValue (key : CacheKey) : Value :=
  .ofMembers [
    ("content_item", .string key.item), ("layout", .string key.layout),
    ("parent", .ofText? key.parent), ("index", .orNull (fun n : Nat => .int n) key.index),
    ("block", .ofText? key.block)]

def ofDatum? (d : Datum) : Option CacheKey := do
  let r ← Record.of? ["content_item", "layout", "parent", "index", "block"] false d
  return {
    item := ← r.need? "content_item" Datum.text?
    layout := ← r.need? "layout" Datum.text?
    parent := ← r.nullable? "parent" Datum.text?
    index := ← r.nullable? "index" (Datum.count? 18446744073709551616)
    block := ← r.nullable? "block" Datum.text? }

end CacheKey

/-- A rendering and whether it may be kept. -/
structure Rendered where
  output : String
  /-- Not so when a placeholder stands for a missing template. -/
  cacheable : Bool := true
deriving DecidableEq, Repr, Inhabited

/-- One request to render. -/
structure RenderPass where
  busting : Bool := false
deriving DecidableEq, Repr, Inhabited

/-- Starts a pass. Only a privileged caller can bust the cache. -/
def RenderPass.begin (bust privileged : Bool) : Noted RenderPass :=
  ⟨{ busting := bust && privileged }, if bust && !privileged then [.bustIgnored] else []⟩

structure RenderCache where
  entries : Dict CacheEntry := .empty
  enabled : Bool := true
  /-- Whether a hit is wrapped in a comment that names its key. -/
  markers : Bool := true
deriving DecidableEq, Inhabited

namespace RenderCache

def ofSettings (settings : Settings) : RenderCache :=
  { enabled := settings.useCache, markers := settings.cacheMarkers }

def get? (cache : RenderCache) (key : CacheKey) : Option CacheEntry :=
  cache.entries.get? key.composite

/-- Drops one rendering. -/
def invalidate (cache : RenderCache) (key : CacheKey) : RenderCache :=
  { cache with entries := cache.entries.erase key.composite }

def clear (cache : RenderCache) : RenderCache := { cache with entries := .empty }

/-- Entries that a cache does not have yet are added to it. -/
def load (cache : RenderCache) (stored : List (String × CacheEntry)) : RenderCache × Nat :=
  let missing := stored.filter fun e => !cache.entries.contains e.1
  ({ cache with
      entries := missing.foldl (fun entries e => entries.insert e.1 e.2) cache.entries },
    missing.length)

/-- The output of a hit. -/
def mark (cache : RenderCache) (composite : String) (entry : CacheEntry) : String :=
  if cache.markers then
    "<!-- blockpress:cached " ++ composite ++ " @ " ++ entry.storedAt.rfc3339 ++ " -->\n" ++
      entry.output
  else entry.output

end RenderCache

/-- What stands for a block or a layout without a template. -/
def placeholder (name : String) : String :=
  "<!-- blockpress: missing template for " ++ name ++ " -->"

/-! ## Rendering -/

/-- The cache beside the host's own state. -/
structure RenderState (σ : Type) where
  cache : RenderCache
  host : σ

/-- Rendering may fail; what was kept before stays. -/
abbrev Rendering (σ : Type) := ExceptT Error (StateT (RenderState σ) Noted)

namespace Rendering

variable {σ α : Type}

/-- Reports one notice. -/
def note (n : Notice) : Rendering σ Unit := ExceptT.lift (StateT.lift (Noted.note n))

/-- Reports notices in order. -/
def noteAll (ns : List Notice) : Rendering σ Unit := ExceptT.lift (StateT.lift (Noted.noteAll ns))

/-- The state at this point. -/
def state : Rendering σ (RenderState σ) := ExceptT.lift get

/-- The result of a rendering, failed or not. -/
def outcome (r : Rendering σ α) : Rendering σ (Except Error α) := ExceptT.lift r.run

/-- Keeps a rendering. -/
def keep (composite : String) (entry : CacheEntry) : Rendering σ Unit :=
  ExceptT.lift <| modify fun s =>
    { s with cache := { s.cache with entries := s.cache.entries.insert composite entry } }

end Rendering

open Rendering in
/-- The kept output of a unit, or a new rendering, which is kept if it may be. -/
def getOrRender {σ : Type} (now : Instant) (pass : RenderPass) (key : CacheKey)
    (render : Rendering σ Rendered) : Rendering σ Rendered := do
  let composite := key.composite
  let cache := (← state).cache
  let usable := cache.enabled && !pass.busting
  match if usable then cache.entries.get? composite else none with
  | some entry =>
    note (.cacheHit composite)
    return { output := cache.mark composite entry }
  | none =>
    note (.cacheMiss composite)
    -- Nested renderings may fill the cache meanwhile, also under this key.
    match ← outcome render with
    | .ok rendered =>
      if usable && rendered.cacheable then
        keep composite { output := rendered.output, storedAt := now }
      else if !rendered.cacheable then note (.notCached composite)
      return rendered
    | .error (.missingTemplate name) =>
      note (.missingTemplate name)
      return { output := placeholder name, cacheable := false }
    | .error error => throw error

/-- The kept output of a unit, or a new one, which may always be kept. -/
def getOrRenderOutput {σ : Type} (now : Instant) (pass : RenderPass) (key : CacheKey)
    (render : Rendering σ String) : Rendering σ String := do
  return (← getOrRender now pass key do return { output := ← render }).output

end PageBlocks
