import PageBlocks.Proofs.Session.Transparent

/-!
# What a host is called for

A host that writes down the calls for blocks (`Renderer.recorded`) renders what
the host itself renders, so the calls that rendering a layout makes can be read
off its state. `Mirrored` says what they are, and which kept renderings may have
changed meanwhile.

What is a block is decided by its envelope alone. Rows that no variant is known
for are handed on as they are, so they must carry no envelope of their own.

> `mirrored_renderLayout`: a host is called for blocks of known variants, at
> their places;
>
> `unknown_rows_not_rendered`: the same for a builder.
-/

namespace PageBlocks

open Stateful

/-- A call of a host for a block. -/
structure BlockCall where
  layout : String
  block : String
  data : Value

section Hosts

variable {σ α β : Type}

/-- A rendering beside which calls are written down. -/
def Rendering.beside (r : Rendering σ α) : Rendering (σ × List BlockCall) α :=
  ExceptT.mk fun s => do
    let (outcome, t) ← r.run.run { cache := s.cache, host := s.host.1 }
    return (outcome, { cache := t.cache, host := (t.host, s.host.2) })

/-- Writes down a call. -/
def Rendering.record (call : BlockCall) : Rendering (σ × List BlockCall) Unit :=
  ExceptT.lift (modify fun s => { s with host := (s.host.1, s.host.2 ++ [call]) })

/-- The host that also writes down the calls for blocks. -/
def Renderer.recorded (renderer : Renderer σ) : Renderer (σ × List BlockCall) where
  block layout block data := do
    Rendering.record ⟨layout, block, data⟩
    (renderer.block layout block data).beside
  layout layout outputs data := (renderer.layout layout outputs data).beside

/-- A state with calls written down in it. -/
def RenderState.withCalls (s : RenderState σ) (calls : List BlockCall) :
    RenderState (σ × List BlockCall) :=
  { cache := s.cache, host := (s.host, calls) }

/-- A rendering can change what is kept under a key. -/
def Rendering.Writes (r : Rendering σ α) (key : String) : Prop :=
  ∃ s, (result r s).2.cache.entries.get? key ≠ s.cache.entries.get? key

/-- One rendering does what another does and writes down calls of some kind only; no more than
some keys get other renderings. -/
def Mirrored (called : BlockCall → Prop) (written : String → Prop) (r : Rendering σ α)
    (r' : Rendering (σ × List BlockCall) α) : Prop :=
  ∀ s log, ∃ calls, (∀ call ∈ calls, called call) ∧
    result r' (s.withCalls log) = ((result r s).1, (result r s).2.withCalls (log ++ calls)) ∧
    ∀ key, (result r s).2.cache.entries.get? key ≠ s.cache.entries.get? key → written key

end Hosts

namespace Mirrored

variable {σ α β : Type} {called : BlockCall → Prop} {written : String → Prop}
  {r : Rendering σ α} {r' : Rendering (σ × List BlockCall) α}

/-- What leaves the state alone. -/
theorem still (h : ∀ s log, result r s = ((result r s).1, s) ∧
    result r' (s.withCalls log) = ((result r s).1, s.withCalls log)) :
    Mirrored called written r r' := by
  intro s log
  obtain ⟨hs, hs'⟩ := h s log
  refine ⟨[], fun _ h => absurd h List.not_mem_nil, ?_, ?_⟩
  · rw [hs', hs, List.append_nil]
  · intro key hkey
    rw [hs] at hkey
    exact absurd rfl hkey

theorem pure (a : α) : Mirrored called written (Pure.pure a : Rendering σ α) (Pure.pure a) :=
  still fun _ _ => ⟨rfl, rfl⟩

theorem noteAll (ns : List Notice) :
    Mirrored called written (Rendering.noteAll ns : Rendering σ Unit) (Rendering.noteAll ns) :=
  still fun _ _ => ⟨rfl, rfl⟩

theorem bind {f : α → Rendering σ β} {f' : α → Rendering (σ × List BlockCall) β}
    (h : Mirrored called written r r') (hf : ∀ a, Mirrored called written (f a) (f' a)) :
    Mirrored called written (r >>= f) (r' >>= f') := by
  intro s log
  obtain ⟨calls, hcalls, hresult, hwritten⟩ := h s log
  rw [result_bind, result_bind, hresult]
  rcases hr : result r s with ⟨outcome, t⟩
  rw [hr] at hwritten
  cases outcome with
  | error e => exact ⟨calls, hcalls, rfl, hwritten⟩
  | ok a =>
    obtain ⟨calls', hcalls', hresult', hwritten'⟩ := hf a t (log ++ calls)
    refine ⟨calls ++ calls', ?_, ?_, ?_⟩
    · intro call hcall
      rcases List.mem_append.mp hcall with hcall | hcall
      · exact hcalls call hcall
      · exact hcalls' call hcall
    · rw [← List.append_assoc]
      exact hresult'
    · intro key hkey
      by_cases hfirst : t.cache.entries.get? key = s.cache.entries.get? key
      · exact hwritten' key (hfirst ▸ hkey)
      · exact hwritten key hfirst

/-- A unit changes what is kept under its own key, or as rendering it does. -/
theorem getOrRender {now : Instant} {pass : RenderPass} {key : CacheKey}
    {render : Rendering σ Rendered} {render' : Rendering (σ × List BlockCall) Rendered}
    (hkey : written key.composite) (h : Mirrored called written render render') :
    Mirrored called written (getOrRender now pass key render)
      (PageBlocks.getOrRender now pass key render') := by
  intro s log
  cases hoffer : s.cache.offer? pass key with
  | some entry =>
    have hoffer' : (s.withCalls log).cache.offer? pass key = some entry := hoffer
    rw [result_getOrRender_offered hoffer, result_getOrRender_offered hoffer']
    exact ⟨[], fun _ h => absurd h List.not_mem_nil, by rw [List.append_nil]; rfl,
      fun _ h => absurd rfl h⟩
  | none =>
    have hoffer' : (s.withCalls log).cache.offer? pass key = none := hoffer
    obtain ⟨calls, hcalls, hresult, hwritten⟩ := h s log
    rw [result_getOrRender_rendered hoffer, result_getOrRender_rendered hoffer', hresult]
    refine ⟨calls, hcalls, ?_⟩
    rcases hr : result render s with ⟨outcome, t⟩
    rw [hr] at hwritten
    cases outcome with
    | error e => cases e <;> exact ⟨rfl, hwritten⟩
    | ok rendered =>
      dsimp only
      have hcache : (s.withCalls log).cache = s.cache := rfl
      rw [hcache]
      by_cases hkeep : (s.cache.usable pass && rendered.cacheable) = true
      · rw [if_pos hkeep, if_pos hkeep]
        refine ⟨rfl, fun other hother => ?_⟩
        by_cases hsame : other = key.composite
        · exact hsame ▸ hkey
        · refine hwritten other fun hkept => hother ?_
          rw [← hkept]
          exact Dict.get?_insert_of_ne _ _ hsame
      · rw [if_neg hkeep, if_neg hkeep]
        exact ⟨rfl, hwritten⟩

/-- What a host does itself. -/
theorem beside {r : Rendering σ α} (h : ∀ key, r.Writes key → written key) :
    Mirrored called written r r.beside :=
  fun s log => ⟨[], fun _ h => absurd h List.not_mem_nil, by rw [List.append_nil]; rfl,
    fun key hkey => h key ⟨s, hkey⟩⟩

/-- A call that is written down before the host does it. -/
theorem block {renderer : Renderer σ} {layout block : String} {data : Value}
    (h : ∀ key, (renderer.block layout block data).Writes key → written key)
    (hcall : called ⟨layout, block, data⟩) :
    Mirrored called written (renderer.block layout block data)
      (renderer.recorded.block layout block data) := by
  intro s log
  refine ⟨[⟨layout, block, data⟩], ?_, rfl, fun key hkey => h key ⟨s, hkey⟩⟩
  intro call hmem
  rw [List.mem_singleton.mp hmem]
  exact hcall

end Mirrored

/-! ## Layouts -/

/-- The variant of the collection of a layout that a row is tagged with. -/
def FlatIndex.rowVariant? (index : FlatIndex) (layout : String) :
    Value → Option (String × IndexEntry)
  | .object members => do
    let collection ← index.layoutKey layout
    Rehydrate.variant? index collection members
  | _ => none

/-- At a position of the rows of a layout there is one of a variant. -/
def FlatIndex.KnownAt (index : FlatIndex) (layout : String) (rows : List Value) (i : Nat)
    (variant : IndexEntry) : Prop :=
  ∃ row tag, rows[i]? = some row ∧ index.rowVariant? layout row = some (tag, variant)

section Layouts

variable {σ : Type} {index : FlatIndex} {resolver : Resolver} {layout : String}
  {rows : List Value} {request : RenderRequest} {renderer : Renderer σ}

/-- What is taken for a block in a rehydrated layout is one of a known variant, if no other row
carries an envelope; it is named and placed as it stands. -/
theorem known_of_envelope
    (hrows : ∀ row ∈ rows, index.rowVariant? layout row = none → BlockMeta.ofData? row = none)
    {i : Nat} {data : Value} (hdata : (Rehydrate.layout index resolver layout rows)[i]? = some data)
    {m : BlockMeta} (hm : BlockMeta.ofData? data = some m) :
    ∃ variant, index.KnownAt layout rows i variant ∧ m.layout = layout ∧ m.parent = layout ∧
      m.index = i ∧ m.block = variant.name := by
  unfold Rehydrate.layout at hdata
  cases hcollection : index.layoutKey layout with
  | none =>
    rw [hcollection] at hdata
    have hnone : index.rowVariant? layout data = none := by
      cases data <;> simp [FlatIndex.rowVariant?, hcollection]
    rw [hrows data (List.mem_of_getElem? hdata) hnone] at hm
    cases hm
  | some collection =>
    rw [hcollection] at hdata
    dsimp only at hdata
    rw [Rehydrate.variantRows_getElem?, Nat.zero_add] at hdata
    obtain ⟨row, hrow, rfl⟩ := Option.map_eq_some_iff.mp hdata
    have hmem : row ∈ rows := List.mem_of_getElem? hrow
    cases row with
    | object members =>
      have hvariant : index.rowVariant? layout (.object members) =
          Rehydrate.variant? index collection members := by
        rw [FlatIndex.rowVariant?, hcollection]
        rfl
      rw [Rehydrate.variantRow] at hm
      cases hfound : Rehydrate.variant? index collection members with
      | none =>
        rw [hfound] at hm
        rw [hrows _ hmem (hvariant.trans hfound)] at hm
        cases hm
      | some found =>
        obtain ⟨tag, variant⟩ := found
        rw [hfound, Rehydrate.ofData?_assemble] at hm
        obtain ⟨hlayout, hblock, hposition, hparent⟩ := BlockMeta.place_of_ofDatum? hm
        exact ⟨variant, ⟨_, tag, hrow, hvariant.trans hfound⟩, hlayout, hparent, hposition, hblock⟩
    | _ =>
      simp only [Rehydrate.variantRow] at hm
      cases hm

/-- A call for a block of a known variant, with what its row is rehydrated to. -/
def FlatIndex.Called (index : FlatIndex) (resolver : Resolver) (layout : String)
    (rows : List Value) (call : BlockCall) : Prop :=
  ∃ i variant, index.KnownAt layout rows i variant ∧ call.layout = layout ∧
    call.block = variant.name ∧ (Rehydrate.layout index resolver layout rows)[i]? = some call.data

/-- A host itself changes what is kept under a key, in a call for a block of a known variant or in
the wrapping of the layout. -/
def FlatIndex.HostWrites (index : FlatIndex) (resolver : Resolver) (renderer : Renderer σ)
    (item layout : String) (rows : List Value) (key : String) : Prop :=
  (∃ call, index.Called resolver layout rows call ∧
    (renderer.block call.layout call.block call.data).Writes key) ∨
  ∃ outputs, (renderer.layout layout outputs
    (layoutData item layout (Rehydrate.layout index resolver layout rows))).Writes key

/-- The key of a layout, that of a block of a known variant at its place, or one that the host
itself writes. -/
def FlatIndex.Written (index : FlatIndex) (resolver : Resolver) (renderer : Renderer σ)
    (item layout : String) (rows : List Value) (key : String) : Prop :=
  key = (CacheKey.ofLayout item layout).composite ∨
    (∃ i variant, index.KnownAt layout rows i variant ∧
      key = CacheKey.composite
        { item := item, layout := layout, parent := some layout, index := some i
          block := some variant.name }) ∨
    index.HostWrites resolver renderer item layout rows key

theorem mirrored_renderBlocks
    (hrows : ∀ row ∈ rows, index.rowVariant? layout row = none → BlockMeta.ofData? row = none) :
    ∀ {blocks : List Value} {start : Nat},
      (∀ i data, blocks[i]? = some data →
        (Rehydrate.layout index resolver layout rows)[start + i]? = some data) →
      Mirrored (index.Called resolver layout rows)
        (index.Written resolver renderer request.item layout rows)
        (renderBlocks request renderer layout blocks)
        (renderBlocks request renderer.recorded layout blocks)
  | [], _, _ => by
    rw [renderBlocks, renderBlocks]
    exact .pure []
  | data :: rest, start, hblocks => by
    have hhere := hblocks 0 data rfl
    have hrest : ∀ i other, rest[i]? = some other →
        (Rehydrate.layout index resolver layout rows)[start + 1 + i]? = some other := by
      intro i other hother
      rw [Nat.add_right_comm]
      exact hblocks (i + 1) other hother
    rw [renderBlocks, renderBlocks]
    cases hm : BlockMeta.ofData? data with
    | none => exact .bind (.noteAll [_]) fun _ => mirrored_renderBlocks hrows hrest
    | some m =>
      obtain ⟨variant, hknown, hlayout, hparent, hposition, hblock⟩ :=
        known_of_envelope hrows hhere hm
      refine .bind ?_ fun rendered => .bind (mirrored_renderBlocks hrows hrest) fun _ => .pure _
      unfold renderBlock
      rw [hm]
      have hcall : index.Called resolver layout rows ⟨m.layout, m.block, data⟩ :=
        ⟨start, variant, hknown, hlayout, hblock, hhere⟩
      refine .getOrRender ?_ (.bind (.block (fun key h => ?_) hcall) fun _ => .pure _)
      · refine .inr (.inl ⟨start, variant, hknown, ?_⟩)
        rw [CacheKey.ofBlock, hlayout, hparent, hposition, hblock]
        rfl
      · exact .inr (.inr (.inl ⟨_, hcall, h⟩))

/-- Rendering a layout calls a host for blocks of known variants only, and keeps renderings of
these and of the layout. -/
theorem mirrored_renderLayout
    (hrows : ∀ row ∈ rows, index.rowVariant? layout row = none → BlockMeta.ofData? row = none) :
    Mirrored (index.Called resolver layout rows)
      (index.Written resolver renderer request.item layout rows)
      (renderLayout request index resolver renderer layout rows)
      (renderLayout request index resolver renderer.recorded layout rows) := by
  refine .getOrRender (.inl rfl) ?_
  unfold renderLayoutAnew
  refine .bind (.noteAll _) fun _ => .bind ?_ fun rendered => .bind ?_ fun wrapped => .pure _
  · have hstart : ∀ i data, (Rehydrate.layout index resolver layout rows)[i]? = some data →
        (Rehydrate.layout index resolver layout rows)[0 + i]? = some data := by
      intro i data hdata
      rwa [Nat.zero_add]
    exact mirrored_renderBlocks hrows hstart
  · exact .beside fun key h => .inr (.inr (.inr ⟨_, h⟩))

end Layouts

/-- A layout is rendered by the published index, from what the builder has kept. -/
theorem result_renderLayout {σ : Type} {b : Builder} {schema : CompiledSchema}
    (hschema : result Builder.schema b = (.ok schema, b)) (request : RenderRequest)
    (resolver : Resolver) (renderer : Renderer σ) (host : σ) (layout : String)
    (rows : List Value) :
    let given := result (renderLayout request schema.index resolver renderer layout rows)
      ⟨b.cache, host⟩
    result (Builder.renderLayout request resolver renderer host layout rows) b =
      (.ok (given.1.map (·.output), given.2.host), { b with cache := given.2.cache }) := by
  rw [Builder.renderLayout_eq, result_bind_ok hschema]
  rfl

/-- A builder renders nothing of the rows that its schema knows no variant for, unless they carry
an envelope of their own. The calls that a layout makes for blocks have the name of the layout and
of the block that stands there. What is kept changes only under the key of the layout, under those
of such blocks at their places, and where the host itself asks for units. -/
theorem unknown_rows_not_rendered {σ : Type} {b : Builder} {index : FlatIndex}
    (hindex : ∀ schema, b.published = some schema → schema.index = index)
    (request : RenderRequest) (resolver : Resolver) (renderer : Renderer σ) (host : σ)
    {layout : String} {rows : List Value}
    (hrows : ∀ row ∈ rows, index.rowVariant? layout row = none → BlockMeta.ofData? row = none) :
    let plain := result (Builder.renderLayout request resolver renderer host layout rows) b
    ∃ calls : List BlockCall,
      result (Builder.renderLayout request resolver renderer.recorded (host, []) layout rows) b =
        (plain.1.map fun given => (given.1, given.2, calls), plain.2) ∧
      (∀ call ∈ calls, index.Called resolver layout rows call) ∧
      ∀ key, plain.2.cache.entries.get? key ≠ b.cache.entries.get? key →
        index.Written resolver renderer request.item layout rows key := by
  intro plain
  rcases Builder.schema_cases b with ⟨schema, hpublished, hschema⟩ | ⟨-, e, hschema⟩
  · obtain rfl := hindex schema hpublished
    have hmirrored : Mirrored (schema.index.Called resolver layout rows)
        (schema.index.Written resolver renderer request.item layout rows)
        (renderLayout request schema.index resolver renderer layout rows)
        (renderLayout request schema.index resolver renderer.recorded layout rows) :=
      mirrored_renderLayout hrows
    obtain ⟨calls, hcalls, hrecorded, hwritten⟩ := hmirrored ⟨b.cache, host⟩ []
    have hplain := result_renderLayout hschema request resolver renderer host layout rows
    refine ⟨calls, ?_, hcalls, fun key hkey => hwritten key ?_⟩
    · rw [result_renderLayout hschema]
      rw [RenderState.withCalls] at hrecorded
      rw [hrecorded]
      simp only [plain, hplain]
      rfl
    · simp only [plain, hplain] at hkey
      exact hkey
  · have hplain : plain = (.error e, b) := result_bind_error hschema _
    refine ⟨[], ?_, fun _ h => absurd h List.not_mem_nil, fun key hkey => ?_⟩
    · rw [hplain, Builder.renderLayout_eq, result_bind_error hschema]
      rfl
    · rw [hplain] at hkey
      exact absurd rfl hkey

/-- A host that renders nothing but what it is called for. -/
def namingRenderer : Renderer Unit where
  block layout block _ := pure (layout ++ "/" ++ block)
  layout _ _ _ := pure none

/-- Of a row that is no block and a box, only the box is rendered. -/
theorem box_alone_rendered :
    let rows := .null :: boxRows
    let plain := result
      (Builder.renderLayout ⟨{}, "1", default⟩ .none namingRenderer () "page" rows) boxBuilder
    ∃ calls : List BlockCall,
      result
          (Builder.renderLayout ⟨{}, "1", default⟩ .none namingRenderer.recorded ((), []) "page"
            rows) boxBuilder =
        (plain.1.map fun given => (given.1, given.2, calls), plain.2) ∧
      (∀ call ∈ calls, boxSchema.index.Called .none "page" rows call) ∧
      ∀ key, plain.2.cache.entries.get? key ≠ boxBuilder.cache.entries.get? key →
        boxSchema.index.Written .none namingRenderer "1" "page" rows key :=
  unknown_rows_not_rendered (fun _ h => Option.some.inj h ▸ rfl) ⟨{}, "1", default⟩ .none
    namingRenderer () (by decide +kernel)

/-- A row of no variant, which carries the envelope of a block that there is not. -/
def forgedRow : Value :=
  .object [(metaKey, BlockMeta.toValue
    { layout := "elsewhere", block := "ghost", key := "none", index := 7, parent := "nowhere" })]

/-- Such a row is rendered, as the block that it pretends to be, and kept under its key. -/
theorem forged_row_rendered :
    let after := result
      (Builder.renderLayout ⟨{}, "1", default⟩ .none namingRenderer.recorded ((), []) "page"
        [forgedRow]) boxBuilder
    boxSchema.index.rowVariant? "page" forgedRow = none ∧
      (after.1.toOption.map fun given => given.2.2.map fun call => (call.layout, call.block)) =
        some [("elsewhere", "ghost")] ∧
      after.2.cache.entries.keys = ["1|elsewhere|nowhere|7|ghost", "1|page|page"] := by
  decide +kernel

end PageBlocks
