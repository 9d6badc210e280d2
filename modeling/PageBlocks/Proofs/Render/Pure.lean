import PageBlocks.Proofs.Joined
import PageBlocks.Proofs.Render.Trace
import PageBlocks.Proofs.Rows.Restored
import PageBlocks.Proofs.Rows.Storable

/-!
# Pure hosts and honest caches

A host is pure when what it renders depends on nothing but what it is given.
With such a host, fixed rows and a fixed resolver, every unit has one outcome,
which is said here without a cache (`layoutOutcome`, `blockOutcome`). A kept
rendering is honest if it is the outcome of every unit that is kept under its
key.

> `Asked.outcome_eq`: units with one key have one outcome, because the parts of
> keys have no `|` and layouts have fewer parts than blocks;
>
> `gives_renderLayout`: from every honest cache a layout is rendered to its
> outcome, and the cache stays honest.
-/

namespace PageBlocks

open Stateful

/-- A host without a state. -/
structure PureRenderer where
  /-- A block of a layout, by the names of both, from its data. -/
  block : (layout block : String) → Value → Except Error String
  /-- The rendered blocks of a layout; nothing joins them by line breaks. -/
  layout : (layout : String) → List String → Value → Except Error (Option String)

/-- What becomes of the outcome of a unit: a placeholder stands for a missing template. -/
def settled : Except Error Rendered → Except Error Rendered
  | .error (.missingTemplate name) => .ok { output := placeholder name, cacheable := false }
  | outcome => outcome

namespace PureRenderer

variable (host : PureRenderer)

def renderer : Renderer Unit where
  block layout block data := ofExcept (host.block layout block data)
  layout layout outputs data := ofExcept (host.layout layout outputs data)

/-- The outcome of rendering a block. -/
def blockOutcome (data : Value) : Except Error Rendered :=
  match BlockMeta.ofData? data with
  | none => .error .missingMeta
  | some m => do return { output := ← host.block m.layout m.block data }

/-- The outcomes of the blocks of a layout, up to the first failure. -/
def blockOutcomes : List Value → Except Error (List Rendered)
  | [] => return []
  | data :: rest =>
    if (BlockMeta.ofData? data).isNone then blockOutcomes rest
    else do
      let rendered ← settled (host.blockOutcome data)
      return rendered :: (← blockOutcomes rest)

/-- The outcome of rendering a layout from its blocks. -/
def layoutOutcome (item layout : String) (blocks : List Value) : Except Error Rendered := do
  let rendered ← host.blockOutcomes blocks
  let outputs := rendered.map (·.output)
  let wrapped ← host.layout layout outputs (layoutData item layout blocks)
  return {
    output := wrapped.getD (String.intercalate "\n" outputs)
    cacheable := rendered.all (·.cacheable) }

end PureRenderer

/-- What stays the same from one rendering to the next. -/
structure Scene where
  index : FlatIndex
  resolver : Resolver
  host : PureRenderer
  /-- The stored rows of an item in a layout. -/
  rows : (item layout : String) → List Value

namespace Scene

variable (scene : Scene)

/-- The blocks of an item in a layout. -/
def blocks (item layout : String) : List Value :=
  Rehydrate.layout scene.index scene.resolver layout (scene.rows item layout)

/-- An item and a layout that can be told from a key. -/
structure Addressable (item layout : String) : Prop where
  item : '|' ∉ item.toList
  layout : (scene.index.layoutKey layout).isSome

/-- A unit that may be asked for, and the outcome of rendering it. -/
inductive Asked : CacheKey → Except Error Rendered → Prop where
  | layout {item layout : String} (h : scene.Addressable item layout) :
      Asked (.ofLayout item layout)
        (scene.host.layoutOutcome item layout (scene.blocks item layout))
  | block {item layout : String} {data : Value} {m : BlockMeta}
      (h : scene.Addressable item layout) (hdata : data ∈ scene.blocks item layout)
      (hm : BlockMeta.ofData? data = some m) :
      Asked (.ofBlock item m) (scene.host.blockOutcome data)

/-- A rendering is the outcome of every unit that is kept under a key. -/
def Honest (key : String) (entry : CacheEntry) : Prop :=
  ∀ unit outcome, scene.Asked unit outcome → unit.composite = key →
    outcome = .ok { output := entry.output }

/-- What a scene must be like for keys to tell its units apart. -/
structure Sound : Prop where
  index : scene.index.Coherent
  layouts : ∀ {name id : String}, scene.index.layoutKey name = some id → isValidName name = true
  rows : ∀ item layout, ∀ row ∈ scene.rows item layout, NoEnvelope row

end Scene

/-! ## Where blocks are -/

namespace Rehydrate

variable {index : FlatIndex} {resolver : Resolver}

/-- The envelope of a block says in what layout and collection it is, and at what position. -/
theorem place_of_variantRow (hindex : index.Coherent) {layout parent collection : String}
    {position : Nat} {row : Value} (hrow : NoEnvelope row) {m : BlockMeta}
    (hm : BlockMeta.ofData? (variantRow index resolver layout parent collection position row) =
      some m) :
    m.layout = layout ∧ m.parent = parent ∧ m.index = position ∧
      isValidName m.block = true := by
  cases row with
  | object members =>
    rw [variantRow] at hm
    cases hvariant : variant? index collection members with
    | none =>
      rw [hvariant] at hm
      have hnone : BlockMeta.ofMembers? members = none := BlockMeta.ofMembers?_eq_none hrow
      rw [show BlockMeta.ofData? (.object members) = none from hnone] at hm
      cases hm
    | some found =>
      obtain ⟨tag, entry⟩ := found
      rw [hvariant] at hm
      rw [ofData?_assemble] at hm
      obtain ⟨hlayout, hblock, hposition, hparent⟩ := BlockMeta.place_of_ofDatum? hm
      obtain ⟨-, -, hlookup, hnode⟩ := variant?_named hindex hvariant
      refine ⟨hlayout, hparent, hposition, ?_⟩
      rw [hblock]
      exact hindex.variant_name hlookup hnode
  | _ =>
    simp only [variantRow] at hm
    cases hm

end Rehydrate

namespace Scene

variable {scene : Scene}

/-- A block of an item in a layout stands at the position that its envelope tells. -/
theorem place_of_block (hscene : scene.Sound) {item layout : String}
    (h : scene.Addressable item layout) {data : Value} (hdata : data ∈ scene.blocks item layout)
    {m : BlockMeta} (hm : BlockMeta.ofData? data = some m) :
    (scene.blocks item layout)[m.index]? = some data ∧ m.layout = layout ∧ m.parent = layout ∧
      isValidName m.block = true := by
  obtain ⟨collection, hcollection⟩ := Option.isSome_iff_exists.mp h.layout
  have hblocks : scene.blocks item layout = Rehydrate.variantRows scene.index scene.resolver
      layout layout collection 0 (scene.rows item layout) := by
    unfold blocks Rehydrate.layout
    rw [hcollection]
  obtain ⟨i, hi⟩ := List.mem_iff_getElem?.mp hdata
  have hplace := hi
  rw [hblocks, Rehydrate.variantRows_getElem?, Nat.zero_add] at hi
  obtain ⟨row, hrow, rfl⟩ := Option.map_eq_some_iff.mp hi
  obtain ⟨hlayout, hparent, hposition, hname⟩ := Rehydrate.place_of_variantRow hscene.index
    (hscene.rows item layout row (List.mem_of_getElem? hrow)) hm
  rw [hposition]
  exact ⟨hplace, hlayout, hparent, hname⟩

theorem Addressable.layout_bar (hscene : scene.Sound) {item layout : String}
    (h : scene.Addressable item layout) : '|' ∉ layout.toList := by
  obtain ⟨collection, hcollection⟩ := Option.isSome_iff_exists.mp h.layout
  exact not_mem_of_isValidName (hscene.layouts hcollection) (by decide)

/-- The parts of a key can be told from the text that a unit is kept under. -/
theorem Asked.parts_bar (hscene : scene.Sound) {key : CacheKey} {outcome : Except Error Rendered}
    (h : scene.Asked key outcome) : key.parts ≠ [] ∧ ∀ part ∈ key.parts, '|' ∉ part.toList := by
  refine ⟨List.cons_ne_nil _ _, ?_⟩
  cases h with
  | layout h =>
    have hlayout := h.layout_bar hscene
    simp [CacheKey.parts, CacheKey.ofLayout, h.item, hlayout]
  | @block item layout data m h hdata hm =>
    obtain ⟨-, hlayout, hparent, hname⟩ := place_of_block hscene h hdata hm
    have hbar := h.layout_bar hscene
    have hblock : '|' ∉ m.block.toList := not_mem_of_isValidName hname (by decide)
    have hindex : '|' ∉ (toString m.index).toList := not_mem_toString (by decide) _
    intro part hpart
    simp only [CacheKey.parts, CacheKey.ofBlock, hlayout, hparent, Option.getD_some,
      Option.map_some, Option.toList_some, List.cons_append, List.nil_append, List.mem_cons,
      List.not_mem_nil, or_false] at hpart
    rcases hpart with rfl | rfl | rfl | rfl | rfl
    · exact h.item
    · exact hbar
    · exact hbar
    · exact hindex
    · exact hblock

/-- Units that are kept under one key have one outcome. -/
theorem Asked.outcome_eq (hscene : scene.Sound) {key key' : CacheKey}
    {outcome outcome' : Except Error Rendered} (h : scene.Asked key outcome)
    (h' : scene.Asked key' outcome') (hkey : key.composite = key'.composite) :
    outcome = outcome' := by
  obtain ⟨hne, hbar⟩ := h.parts_bar hscene
  obtain ⟨hne', hbar'⟩ := h'.parts_bar hscene
  have hparts : key.parts = key'.parts := intercalate_inj (c := '|') rfl hne hne' hbar hbar' hkey
  -- A layout has three parts and a block has five.
  cases h with
  | layout _ =>
    cases h' with
    | layout _ =>
      simp only [CacheKey.parts, CacheKey.ofLayout, List.cons_append, List.cons.injEq] at hparts
      obtain ⟨rfl, rfl, -⟩ := hparts
      rfl
    | block => simp [CacheKey.parts, CacheKey.ofLayout, CacheKey.ofBlock] at hparts
  | @block item layout data m h hdata hm =>
    cases h' with
    | layout _ => simp [CacheKey.parts, CacheKey.ofLayout, CacheKey.ofBlock] at hparts
    | @block item' layout' data' m' h' hdata' hm' =>
      obtain ⟨hplace, hlayout, -, -⟩ := place_of_block hscene h hdata hm
      obtain ⟨hplace', hlayout', -, -⟩ := place_of_block hscene h' hdata' hm'
      simp only [CacheKey.parts, CacheKey.ofBlock, Option.getD_some, Option.map_some,
        Option.toList_some, List.cons_append, List.nil_append, List.cons.injEq, and_true]
        at hparts
      obtain ⟨rfl, hsame, -, hposition, -⟩ := hparts
      -- One position of one list of blocks holds one block.
      obtain rfl : layout = layout' := by rw [← hlayout, ← hlayout', hsame]
      rw [toString_injective hposition, hplace'] at hplace
      rw [Option.some.inj hplace]

/-! ## Renderings with an outcome -/

/-- A state of a rendering whose kept renderings are honest, and given out as they are. -/
structure Valid (scene : Scene) (s : RenderState Unit) : Prop where
  markers : s.cache.markers = false
  entries : s.cache.entries.All scene.Honest

/-- From every valid state a rendering has an outcome, and leaves a valid state. -/
def Gives {α : Type} (scene : Scene) (r : Rendering Unit α) (outcome : Except Error α) : Prop :=
  ∀ s, scene.Valid s → (result r s).1 = outcome ∧ scene.Valid (result r s).2

section Gives

variable {α β : Type}

theorem gives_ofExcept (outcome : Except Error α) :
    scene.Gives (ofExcept outcome : Rendering Unit α) outcome := by
  intro s hs
  rw [result_ofExcept rfl]
  exact ⟨rfl, hs⟩

theorem gives_pure (a : α) : scene.Gives (pure a) (.ok a) := fun _ hs => ⟨rfl, hs⟩

/-- A rendering after another one, whose outcome decides whether it is reached. -/
theorem gives_bind {r : Rendering Unit α} {outcome : Except Error α}
    {f : α → Rendering Unit β} {next : α → Except Error β} (hr : scene.Gives r outcome)
    (hf : ∀ a, outcome = .ok a → scene.Gives (f a) (next a)) :
    scene.Gives (r >>= f) (outcome >>= next) := by
  intro s hs
  obtain ⟨hvalue, hvalid⟩ := hr s hs
  rw [result_bind]
  rcases hresult : result r s with ⟨value, t⟩
  rw [hresult] at hvalue hvalid
  obtain rfl : value = outcome := hvalue
  cases value with
  | error e => exact ⟨rfl, hvalid⟩
  | ok a => exact hf a rfl t hvalid

/-- Notices do not count. -/
theorem gives_noted (ns : List Notice) {f : Unit → Rendering Unit β} {outcome : Except Error β}
    (h : scene.Gives (f ()) outcome) : scene.Gives (Rendering.noteAll ns >>= f) outcome :=
  have hnoted : scene.Gives (Rendering.noteAll ns) (.ok ()) := fun _ hs => ⟨rfl, hs⟩
  gives_bind hnoted fun _ _ => h

/-- Keeping the outcome of a unit that was rendered leaves the state valid. -/
theorem Valid.keep (hscene : scene.Sound) {s : RenderState Unit} (hs : scene.Valid s)
    {key : CacheKey} {output : String} (hasked : scene.Asked key (.ok { output := output }))
    (now : Instant) :
    scene.Valid { s with cache := s.cache.keep key { output := output, storedAt := now } } where
  markers := hs.markers
  entries := hs.entries.insert fun _ _ hother hkey => hother.outcome_eq hscene hasked hkey

/-- A unit is given out or rendered, with the same outcome. -/
theorem gives_getOrRender (hscene : scene.Sound) {key : CacheKey}
    {outcome : Except Error Rendered} (hasked : scene.Asked key outcome)
    {render : Rendering Unit Rendered} (hrender : scene.Gives render outcome) (now : Instant)
    (pass : RenderPass) : scene.Gives (getOrRender now pass key render) (settled outcome) := by
  intro s hs
  cases hoffer : s.cache.offer? pass key with
  | some entry =>
    rw [result_getOrRender_offered hoffer]
    unfold RenderCache.offer? at hoffer
    obtain ⟨-, hkept⟩ := Option.ite_none_right_eq_some.mp hoffer
    have hhonest := hs.entries _ _ hkept key outcome hasked rfl
    refine ⟨?_, hs⟩
    rw [hhonest, RenderCache.mark, hs.markers]
    rfl
  | none =>
    rw [result_getOrRender_rendered hoffer]
    obtain ⟨hvalue, hvalid⟩ := hrender s hs
    rcases hresult : result render s with ⟨value, t⟩
    rw [hresult] at hvalue hvalid
    obtain rfl : value = outcome := hvalue
    cases value with
    | error e => cases e <;> exact ⟨rfl, hvalid⟩
    | ok rendered =>
      refine ⟨rfl, ?_⟩
      show scene.Valid (if (s.cache.usable pass && rendered.cacheable) = true then _ else t)
      split
      next hkeep =>
        -- What may be kept is all there is to the outcome.
        obtain ⟨output, cacheable⟩ := rendered
        obtain rfl : cacheable = true := (Bool.and_eq_true_iff.mp hkeep).2
        exact hvalid.keep hscene hasked now
      next => exact hvalid

end Gives

/-! ## Layouts -/

variable {request : RenderRequest} {layout : String}

theorem gives_renderBlock (hscene : scene.Sound) (h : scene.Addressable request.item layout)
    {data : Value} (hdata : data ∈ scene.blocks request.item layout) {m : BlockMeta}
    (hm : BlockMeta.ofData? data = some m) :
    scene.Gives (renderBlock request scene.host.renderer.block data)
      (settled (scene.host.blockOutcome data)) := by
  have hasked : scene.Asked (.ofBlock request.item m) (scene.host.blockOutcome data) :=
    .block h hdata hm
  unfold renderBlock
  rw [hm]
  refine gives_getOrRender hscene hasked ?_ request.now request.pass
  unfold PureRenderer.blockOutcome
  rw [hm]
  exact gives_bind (gives_ofExcept _) fun output _ => gives_pure _

theorem gives_renderBlocks (hscene : scene.Sound) (h : scene.Addressable request.item layout) :
    ∀ {blocks : List Value}, (∀ data ∈ blocks, data ∈ scene.blocks request.item layout) →
      scene.Gives (renderBlocks request scene.host.renderer layout blocks)
        (scene.host.blockOutcomes blocks) := by
  intro blocks
  induction blocks with
  | nil =>
    intro _
    rw [renderBlocks, PureRenderer.blockOutcomes]
    exact gives_pure []
  | cons data rest ih =>
    intro hall
    have hrest := ih fun other hother => hall other (List.mem_cons_of_mem _ hother)
    rw [renderBlocks, PureRenderer.blockOutcomes]
    cases hm : BlockMeta.ofData? data with
    | none => exact gives_noted [_] hrest
    | some m =>
      refine gives_bind (gives_renderBlock hscene h (hall data (List.mem_cons_self ..)) hm)
        fun rendered _ => ?_
      exact gives_bind hrest fun more _ => gives_pure _

/-- A layout is rendered to its outcome, whatever is kept of it. -/
theorem gives_renderLayout (hscene : scene.Sound) (h : scene.Addressable request.item layout) :
    scene.Gives
      (renderLayout request scene.index scene.resolver scene.host.renderer layout
        (scene.rows request.item layout))
      (settled (scene.host.layoutOutcome request.item layout
        (scene.blocks request.item layout))) := by
  refine gives_getOrRender hscene (.layout h) ?_ request.now request.pass
  unfold renderLayoutAnew PureRenderer.layoutOutcome
  refine gives_noted _ ?_
  refine gives_bind (gives_renderBlocks hscene h fun _ hdata => hdata) fun rendered _ => ?_
  exact gives_bind (gives_ofExcept _) fun wrapped _ => gives_pure _

end Scene

end PageBlocks
