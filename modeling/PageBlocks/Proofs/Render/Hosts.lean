import PageBlocks.Proofs.Render.Trace

/-!
# Hosts with traces

A host is traced when its renderings of blocks and of layouts are: it renders
the blocks nested in its data through the cache, and otherwise leaves the cache
alone.

> `Renderer.Traced.renderBlock`, `Renderer.Traced.renderLayout`,
> `Renderer.Traced.renderItem`: what is rendered with such a host is traced.
>
> `Templates.traced_renderer`: the host that renders by templates is of this
> kind.
-/

namespace PageBlocks

namespace Rendering

variable {σ α β : Type}

/-- A rendering that has a trace. -/
def IsTraced (r : Rendering σ α) : Prop := ∃ trace, Traced r trace

theorem isTraced_pure (a : α) : (pure a : Rendering σ α).IsTraced := ⟨_, .settled (.ok a)⟩

theorem isTraced_throw (e : Error) : (throw e : Rendering σ α).IsTraced :=
  ⟨_, .settled (.error e)⟩

theorem isTraced_note (n : Notice) : (note n : Rendering σ Unit).IsTraced := ⟨_, .note [n]⟩

theorem isTraced_bind {r : Rendering σ α} {f : α → Rendering σ β} (h : r.IsTraced)
    (hf : ∀ a, (f a).IsTraced) : (r >>= f).IsTraced := by
  obtain ⟨trace, h⟩ := h
  exact ⟨_, h.bind fun a => (hf a).choose_spec⟩

theorem isTraced_mapM {f : α → Rendering σ β} (hf : ∀ a, (f a).IsTraced) :
    ∀ as : List α, (as.mapM f).IsTraced
  | [] => by
    rw [List.mapM_nil]
    exact isTraced_pure []
  | a :: as => by
    rw [List.mapM_cons]
    refine isTraced_bind (hf a) fun b => ?_
    exact isTraced_bind (isTraced_mapM hf as) fun bs => isTraced_pure (b :: bs)

theorem isTraced_getOrRender {now : Instant} {pass : RenderPass} {key : CacheKey}
    {render : Rendering σ Rendered} (h : render.IsTraced) :
    (getOrRender now pass key render).IsTraced := by
  obtain ⟨trace, h⟩ := h
  exact ⟨_, h.unit now pass key⟩

end Rendering

open Rendering

/-- A host whose renderings all have a trace. -/
structure Renderer.Traced {σ : Type} (renderer : Renderer σ) : Prop where
  block : ∀ layout block data, (renderer.block layout block data).IsTraced
  layout : ∀ layout outputs data, (renderer.layout layout outputs data).IsTraced

section

variable {σ : Type} {request : RenderRequest} {renderer : Renderer σ}

theorem isTraced_renderBlock {render : (layout block : String) → Value → Rendering σ String}
    (h : ∀ layout block data, (render layout block data).IsTraced) (data : Value) :
    (renderBlock request render data).IsTraced := by
  unfold renderBlock
  split
  next => exact isTraced_throw .missingMeta
  next m _ =>
    refine isTraced_getOrRender ?_
    exact isTraced_bind (h m.layout m.block data) fun output => isTraced_pure _

namespace Renderer.Traced

theorem renderBlock (h : renderer.Traced) (data : Value) :
    (renderBlock request renderer.block data).IsTraced := isTraced_renderBlock h.block data

theorem renderBlocks (h : renderer.Traced) (layout : String) (blocks : List Value) :
    (renderBlocks request renderer layout blocks).IsTraced := by
  induction blocks with
  | nil => exact isTraced_pure []
  | cons data rest ih =>
    unfold PageBlocks.renderBlocks
    split
    next => exact isTraced_bind (isTraced_note _) fun _ => ih
    next =>
      refine isTraced_bind (h.renderBlock data) fun rendered => ?_
      exact isTraced_bind ih fun others => isTraced_pure (rendered :: others)

theorem renderLayout (h : renderer.Traced) (index : FlatIndex) (resolver : Resolver)
    (layout : String) (rows : List Value) :
    (renderLayout request index resolver renderer layout rows).IsTraced := by
  refine isTraced_getOrRender ?_
  refine isTraced_bind ⟨_, .note _⟩ fun _ => ?_
  refine isTraced_bind (h.renderBlocks layout _) fun rendered => ?_
  exact isTraced_bind (h.layout layout _ _) fun wrapped => isTraced_pure _

theorem renderItem (h : renderer.Traced) (index : FlatIndex) (resolver : Resolver)
    (row : List (String × Value)) :
    (renderItem request index resolver renderer row).IsTraced := by
  unfold PageBlocks.renderItem
  split
  next e _ => exact isTraced_throw e
  next => exact isTraced_bind (isTraced_note _) fun _ => isTraced_pure none
  next selected _ =>
    refine isTraced_bind (h.renderLayout index resolver selected.layout selected.rows) ?_
    exact fun rendered => isTraced_pure (some rendered)

end Renderer.Traced

end

/-! ## Templates -/

/-- A template is traced if the nested blocks are. -/
theorem Template.isTraced_render {σ : Type} {nested : Value → Rendering σ Rendered}
    (h : ∀ data, (nested data).IsTraced) (outputs : List String) (data : Value) :
    ∀ template : Template, (template.render nested outputs data).IsTraced
  | [] => isTraced_pure ""
  | part :: rest => by
    have hrest : (Template.render nested outputs data rest).IsTraced :=
      Template.isTraced_render h outputs data rest
    -- Each part goes on with its own output.
    have hbehind : ∀ here : Rendering σ String, here.IsTraced → (do
        return (← here) ++ (← Template.render nested outputs data rest)).IsTraced := by
      intro here hhere
      refine isTraced_bind hhere fun output => ?_
      exact isTraced_bind hrest fun others => isTraced_pure (output ++ others)
    cases part with
    | text s => exact hbehind _ (isTraced_pure s)
    | get path => exact hbehind _ (isTraced_pure _)
    | children path =>
      refine isTraced_bind (isTraced_mapM h _) fun rendered => ?_
      exact hbehind _ (isTraced_pure _)
    | blocks separator => exact hbehind _ (isTraced_pure _)
    | missing name => exact hbehind _ (isTraced_throw _)
    | fail text => exact hbehind _ (isTraced_throw _)

namespace Templates

variable (templates : Templates) (request : RenderRequest)

theorem isTraced_called (name : String) : (called name).IsTraced :=
  ⟨_, .host fun calls => ((), calls ++ [name])⟩

theorem isTraced_renderBlockTo : ∀ (depth : Nat) (layout block : String) (data : Value),
    (templates.renderBlockTo request depth layout block data).IsTraced
  | depth, layout, block, data => by
    unfold renderBlockTo
    refine isTraced_bind (isTraced_called _) fun _ => ?_
    split
    next => exact isTraced_throw _
    next template _ =>
      refine Template.isTraced_render (fun inner => ?_) [] data template
      cases depth with
      | zero => exact isTraced_throw .nestingLimit
      | succ depth => exact isTraced_renderBlock (isTraced_renderBlockTo depth) inner

theorem traced_renderer : (templates.renderer request).Traced where
  block layout block data := isTraced_renderBlockTo templates request data.depth layout block data
  layout layout outputs data := by
    refine isTraced_bind (isTraced_called layout) fun _ => ?_
    split
    next => exact isTraced_pure none
    next template _ =>
      refine isTraced_bind ?_ fun output => isTraced_pure (some output)
      refine Template.isTraced_render (fun inner => ?_) outputs data template
      exact isTraced_renderBlock (fun layout block data =>
        isTraced_renderBlockTo templates request data.depth layout block data) inner

end Templates

end PageBlocks
