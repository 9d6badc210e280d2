import PageBlocks.Proofs.Render.Pure
import PageBlocks.Proofs.Rows.RoundTrip
import PageBlocks.Proofs.Session.Actions

/-!
# The cache cannot be seen

A session renders layouts with a pure host, from the same rows each time, and
meanwhile drops, saves and loads what is kept. Whatever is kept or stored on the
way is honest, so a layout is always rendered to its own outcome: what a builder
without a cache gives for it.

> `Consistent.run`: every call leaves kept and stored renderings honest;
>
> `answers_eq`: a session is answered like a builder with its cache disabled
> answers each call.
-/

namespace PageBlocks

open Attempt Builder Stateful

/-- What is asked of a builder between two changes of its schema. -/
inductive Call where
  | render (request : RenderRequest) (layout : String)
  | invalidate (key : CacheKey)
  | clear
  | save
  | load

/-- The builder with its cache disabled. -/
def Builder.uncached (b : Builder) : Builder :=
  { b with cache := { b.cache with enabled := false } }

namespace Call

variable (scene : Scene)

/-- What is rendered can be told from its key. -/
def Addressable : Call → Prop
  | .render request layout => scene.Addressable request.item layout
  | _ => True

/-- The builder after a call. -/
def run (b : Builder) : Call → Builder
  | .render request layout =>
    (result (Builder.renderLayout request scene.resolver scene.host.renderer () layout
      (scene.rows request.item layout)) b).2
  | .invalidate key => { b with cache := b.cache.invalidate key }
  | .clear => (result clearCache b).2
  | .save => (result saveCache b).2
  | .load => (result loadCache b).2

/-- What a call to render is answered. -/
def answer? (b : Builder) : Call → Option (Except Error (Except Error String × Unit))
  | .render request layout =>
    some (result (Builder.renderLayout request scene.resolver scene.host.renderer () layout
      (scene.rows request.item layout)) b).1
  | _ => none

/-- What the calls to render are answered when calls are made one after the other. -/
def answers (b : Builder) : List Call → List (Except Error (Except Error String × Unit))
  | [] => []
  | call :: rest => (call.answer? scene b).toList ++ answers (call.run scene b) rest

/-- The outcome of what a call renders. -/
def outcome? : Call → Option (Except Error (Except Error String × Unit))
  | .render request layout =>
    some (.ok ((settled (scene.host.layoutOutcome request.item layout
      (scene.blocks request.item layout))).map (·.output), ()))
  | _ => none

end Call

/-! ## The invariant -/

/-- A builder that serves the schema of a scene, whose kept and stored renderings are honest. -/
structure Consistent (scene : Scene) (b : Builder) : Prop where
  published : ∃ schema, b.published = some schema ∧ schema.index = scene.index
  markers : b.cache.markers = false
  kept : b.cache.entries.All scene.Honest
  stored : b.store.tables.renderings.All scene.Honest

namespace Consistent

variable {scene : Scene} {b : Builder}

theorem uncached (h : Consistent scene b) : Consistent scene b.uncached :=
  ⟨h.published, h.markers, h.kept, h.stored⟩

/-- A layout is rendered to its outcome. -/
theorem rendered (hscene : scene.Sound) (h : Consistent scene b) {request : RenderRequest}
    {layout : String} (haddress : scene.Addressable request.item layout) :
    (Call.render request layout).answer? scene b = (Call.render request layout).outcome? scene ∧
      Consistent scene ((Call.render request layout).run scene b) := by
  obtain ⟨schema, hpublished, hindex⟩ := h.published
  have hschema : result Builder.schema b = (.ok schema, b) := by
    rcases schema_cases b with ⟨found, hfound, hresult⟩ | ⟨hnone, -⟩
    · rw [hpublished] at hfound
      cases hfound
      exact hresult
    · rw [hpublished] at hnone
      cases hnone
  have hvalid : scene.Valid ⟨b.cache, ()⟩ := ⟨h.markers, h.kept⟩
  obtain ⟨hvalue, hafter⟩ := Scene.gives_renderLayout hscene haddress ⟨b.cache, ()⟩ hvalid
  rw [← hindex] at hvalue hafter
  unfold Call.answer? Call.outcome? Call.run
  dsimp only
  rw [renderLayout_eq, result_bind_ok hschema, ← hvalue]
  exact ⟨rfl, h.published, hafter.markers, hafter.entries, h.stored⟩

theorem clear (h : Consistent scene b) : Consistent scene (Call.clear.run scene b) := by
  unfold Call.run
  rcases clearCache_cases b with hclear | hclear
  · rw [hclear]
    exact ⟨h.published, h.markers, Dict.all_empty, Dict.all_empty⟩
  · rw [hclear]
    exact ⟨h.published, h.markers, Dict.all_empty, h.stored⟩

theorem save (h : Consistent scene b) : Consistent scene (Call.save.run scene b) := by
  unfold Call.run
  rcases saveCache_cases b with ⟨store, hreplace, hsave⟩ | ⟨e, hsave⟩
  · rw [hsave, Store.replace_entries hreplace]
    exact ⟨h.published, h.markers, h.kept, h.kept⟩
  · rw [hsave]
    exact h

theorem load (h : Consistent scene b) : Consistent scene (Call.load.run scene b) := by
  unfold Call.run
  rcases loadCache_cases b with ⟨stored, hstored, hload⟩ | ⟨e, hload⟩
  · rw [hload]
    have hall : ∀ e ∈ stored, scene.Honest e.1 e.2 := by
      rw [Store.renderings_entries hstored]
      exact fun e he => h.stored e.1 e.2 (Dict.mem_entries_iff.mp he)
    exact ⟨h.published, h.markers,
      h.kept.foldl_insert fun e he => hall e (List.mem_filter.mp he).1, h.stored⟩
  · rw [hload]
    exact h

/-- A call is answered with the outcome of what it renders, and leaves a consistent builder. -/
theorem run (hscene : scene.Sound) (h : Consistent scene b) (call : Call)
    (haddress : call.Addressable scene) :
    call.answer? scene b = call.outcome? scene ∧ Consistent scene (call.run scene b) := by
  cases call with
  | render request layout => exact h.rendered hscene haddress
  | invalidate key => exact ⟨rfl, h.published, h.markers, h.kept.erase key.composite, h.stored⟩
  | clear => exact ⟨rfl, h.clear⟩
  | save => exact ⟨rfl, h.save⟩
  | load => exact ⟨rfl, h.load⟩

/-- However long the session, its renderings have their own outcomes. -/
theorem answers_eq (hscene : scene.Sound) :
    ∀ {calls : List Call} {b : Builder}, Consistent scene b →
      (∀ call ∈ calls, call.Addressable scene) →
      Call.answers scene b calls = calls.filterMap (Call.outcome? scene) := by
  intro calls
  induction calls with
  | nil => exact fun _ _ => rfl
  | cons call rest ih =>
    intro b h haddress
    obtain ⟨hanswer, hafter⟩ := h.run hscene call (haddress call (List.mem_cons_self ..))
    have hrest := ih hafter fun other hother => haddress other (List.mem_cons_of_mem _ hother)
    rw [Call.answers, hanswer, hrest]
    cases hcall : call.outcome? scene with
    | none => rw [List.filterMap_cons_none hcall]; rfl
    | some outcome => rw [List.filterMap_cons_some hcall]; rfl

end Consistent

/-- A scene on the index of a compiled schema is sound. -/
theorem CompiledSchema.Follows.scene_sound {registry : Registry} {scene : Scene}
    {schema : CompiledSchema} (h : schema.Follows registry) (hindex : scene.index = schema.index)
    (hrows : ∀ item layout, ∀ row ∈ scene.rows item layout, NoEnvelope row) : scene.Sound where
  index := hindex ▸ h.coherent
  layouts := fun hlayout => h.isValidName_layout (hindex ▸ hlayout)
  rows := hrows

/-- A session on a builder that has kept and stored nothing yet is answered like each of its calls
is answered by the builder with its cache disabled. -/
theorem session_as_uncached {definitions : Definitions} {resources : Resources}
    {registry : Registry} {now : Instant} {schema : CompiledSchema} {b : Builder} {scene : Scene}
    {calls : List Call}
    (hbuilt : Gives (Registry.build definitions resources) registry)
    (hcompiled : Gives (PageBlocks.compile registry now) schema)
    (hpublished : b.published = some schema) (hindex : scene.index = schema.index)
    (hmarkers : b.cache.markers = false) (hkept : b.cache.entries = .empty)
    (hstored : b.store.tables.renderings = .empty)
    (hrows : ∀ item layout, ∀ row ∈ scene.rows item layout, NoEnvelope row)
    (hcalls : ∀ call ∈ calls, call.Addressable scene) :
    Call.answers scene b calls = calls.filterMap (Call.answer? scene b.uncached) := by
  have hscene : scene.Sound := (compile_follows hbuilt hcompiled).scene_sound hindex hrows
  have hb : Consistent scene b := by
    refine ⟨⟨schema, hpublished, hindex.symm⟩, hmarkers, ?_, ?_⟩
    · rw [hkept]
      exact Dict.all_empty
    · rw [hstored]
      exact Dict.all_empty
  rw [hb.answers_eq hscene hcalls]
  exact List.filterMap_congr fun call hcall =>
    ((hb.uncached.run hscene call (hcalls call hcall)).1).symm

/-- A page of one box, rendered by a host that knows only one text. -/
def boxScene : Scene :=
  { index := boxSchema.index
    resolver := .none
    host := ⟨fun _ _ _ => .ok "<p>", fun _ _ _ => .ok none⟩
    rows := fun _ _ => boxRows }

/-- A builder that has just published the schema of the page. -/
def boxBuilder : Builder :=
  { Builder.assemble none .empty boxDefinitions .empty with
    published := some boxSchema
    cache := { markers := false } }

/-- The page is rendered, forgotten, taken from the store, busted, and rendered again. -/
def boxCalls : List Call :=
  [.render ⟨{}, "1", default⟩ "page", .save, .clear, .load,
    .render ⟨{ busting := true }, "1", default⟩ "page",
    .invalidate (.ofLayout "1" "page"), .render ⟨{}, "1", default⟩ "page"]

theorem boxes_as_uncached :
    Call.answers boxScene boxBuilder boxCalls =
      boxCalls.filterMap (Call.answer? boxScene boxBuilder.uncached) := by
  have haddress : boxScene.Addressable "1" "page" := ⟨by decide, by decide +kernel⟩
  have hrows : ∀ row ∈ boxRows, NoEnvelope row := by decide
  have hcalls : ∀ call ∈ boxCalls, call.Addressable boxScene := by
    simp [boxCalls, Call.Addressable, haddress]
  exact session_as_uncached boxes_built boxes_compiled rfl rfl rfl rfl rfl (fun _ _ => hrows)
    hcalls

end PageBlocks
