import PageBlocks.Proofs.Render.Known
import PageBlocks.Proofs.Session.Runs

/-!
# Caching as it is set

The cache of a builder is made for the settings that the builder was opened
with: whether it keeps anything, and whether hits are marked. No later action
changes the two, and neither does rendering, so they are what every unit is asked
for under (`Asks`).

> `Ran.flags`: a builder has the cache that it was opened with;
>
> `caching_as_set`: while the settings are those, nothing is given out or kept
> by a builder without a cache, and a builder with one keeps what it renders and
> marks what it gives out as it is set.
-/

namespace PageBlocks

open Attempt (Gives)
open Stateful Builder

/-! ## Units that are asked for -/

/-- A unit, with how it is asked for. -/
structure Asking (σ : Type) where
  now : Instant
  pass : RenderPass
  key : CacheKey
  render : Rendering σ Rendered

/-- Asks for the unit. -/
def Asking.rendering {σ : Type} (u : Asking σ) : Rendering σ Rendered :=
  getOrRender u.now u.pass u.key u.render

/-- From a state a rendering comes to ask for a unit in another one. -/
inductive Asks {σ : Type} :
    {α : Type} → Rendering σ α → RenderState σ → Asking σ → RenderState σ → Prop where
  | unit (u : Asking σ) (s : RenderState σ) : Asks u.rendering s u s
  /-- Inside a unit that is not given out. -/
  | inside {u v : Asking σ} {s t : RenderState σ} (hoffer : s.cache.offer? u.pass u.key = none)
      (h : Asks u.render s v t) : Asks u.rendering s v t
  | outcome {α : Type} {r : Rendering σ α} {u : Asking σ} {s t : RenderState σ}
      (h : Asks r s u t) : Asks (Rendering.outcome r) s u t
  | first {α β : Type} {r : Rendering σ α} {f : α → Rendering σ β} {u : Asking σ}
      {s t : RenderState σ} (h : Asks r s u t) : Asks (r >>= f) s u t
  | next {α β : Type} {r : Rendering σ α} {f : α → Rendering σ β} {u : Asking σ} {a : α}
      {s s' t : RenderState σ} (hr : r.IsTraced) (hresult : result r s = (.ok a, s'))
      (h : Asks (f a) s' u t) : Asks (r >>= f) s u t

/-- Whether a cache keeps anything, and whether hits are marked. -/
def RenderCache.flags (cache : RenderCache) : Bool × Bool := (cache.enabled, cache.markers)

section Rendering

variable {σ α : Type} {r : Rendering σ α} {s t : RenderState σ} {u : Asking σ}

theorem Rendering.IsTraced.flags (h : r.IsTraced) (s : RenderState σ) :
    (result r s).2.cache.flags = s.cache.flags := by
  obtain ⟨trace, h⟩ := h
  rw [h.entries s]
  rfl

/-- A unit is asked for under the flags that rendering began with. -/
theorem Asks.flags (h : Asks r s u t) : t.cache.flags = s.cache.flags := by
  induction h with
  | unit => rfl
  | inside _ _ ih => exact ih
  | outcome _ ih => exact ih
  | first _ ih => exact ih
  | @next α β r f u a s s' t hr hresult _ ih =>
    have hflags := hr.flags s
    rw [hresult] at hflags
    exact ih.trans hflags

theorem RenderCache.offer?_disabled {cache : RenderCache} (h : cache.enabled = false)
    (pass : RenderPass) (key : CacheKey) :
    cache.usable pass = false ∧ cache.offer? pass key = none := by
  have husable : cache.usable pass = false := by rw [usable, h, Bool.false_and]
  exact ⟨husable, by rw [offer?, husable]; rfl⟩

/-- Without a cache nothing is given out or kept. -/
theorem Traced.quiet {trace : RenderState σ → List CacheEvent} (h : Traced r trace)
    (s : RenderState σ) (hs : s.cache.enabled = false) : trace s = [] := by
  induction h generalizing s with
  | settled => rfl
  | note => rfl
  | host => rfl
  | outcome _ ih => exact ih s hs
  | @bind α β r trace f next h _ ih ihnext =>
    rw [bindTrace, ih s hs, List.nil_append]
    have hentries := h.entries s
    rcases hresult : result r s with ⟨outcome, t⟩
    rw [hresult] at hentries
    cases outcome with
    | error e => rfl
    | ok a => exact ihnext a t ((congrArg RenderCache.enabled hentries).trans hs)
  | unit now pass key _ ih =>
    obtain ⟨husable, hoffer⟩ := RenderCache.offer?_disabled hs pass key
    simp only [unitTrace, hoffer, ih s hs, husable, Bool.false_and, Bool.false_eq_true, if_false,
      List.nil_append]
    split <;> rfl

/-- Without a cache a unit that is asked for is rendered, and nothing but rendering it happens. -/
theorem result_disabled (u : Asking σ) (ht : t.cache.enabled = false) :
    result u.rendering t = (settled (result u.render t).1, (result u.render t).2) := by
  obtain ⟨husable, hoffer⟩ := RenderCache.offer?_disabled ht u.pass u.key
  rw [Asking.rendering, result_getOrRender_rendered hoffer, husable]
  rcases result u.render t with ⟨outcome, t'⟩
  cases outcome with
  | error e => cases e <;> rfl
  | ok rendered => rfl

end Rendering

/-! ## Flags of a builder -/

namespace Builder

variable {b : Builder}

theorem withSchema_flags (now : Instant) (schema : CompiledSchema) :
    (b.withSchema now schema).cache.flags = b.cache.flags := by
  rw [withSchema]
  dsimp only
  split <;> rfl

theorem compile_flags (now : Instant) :
    (result (compile now) b).2.cache.flags = b.cache.flags := by
  rcases compile_cases b now with ⟨schema, -, -, hcompile⟩ | ⟨-, e, hcompile⟩
  · rw [hcompile, withSchema_flags]
  · rw [hcompile]

/-- Where nothing is kept, publishing a schema drops nothing. -/
theorem withSchema_cache (hb : b.cache.entries = .empty) (now : Instant)
    (schema : CompiledSchema) : (b.withSchema now schema).cache = b.cache := by
  rw [withSchema]
  dsimp only
  split
  · rw [RenderCache.clear, ← hb]
  · rfl

theorem setDefinitions_flags (definitions : Definitions) (now : Instant) :
    (result (setDefinitions definitions now) b).2.cache.flags = b.cache.flags := by
  rw [setDefinitions_eq, compile_flags]

theorem reload_flags (files : FileTree) (now : Instant) :
    (result (reload files now) b).2.cache.flags = b.cache.flags := by
  rcases reload_cases b now files with ⟨definitions, -, hreload⟩ | ⟨-, e, hreload⟩
  · rw [hreload, setDefinitions_flags]
  · rw [hreload]

theorem saveCache_flags : (result saveCache b).2.cache.flags = b.cache.flags := by
  rcases saveCache_cases b with ⟨store, -, hsave⟩ | ⟨e, hsave⟩ <;> rw [hsave]

theorem clearCache_flags : (result clearCache b).2.cache.flags = b.cache.flags := by
  rcases clearCache_cases b with hclear | hclear <;> rw [hclear] <;> rfl

theorem loadCache_flags : (result loadCache b).2.cache.flags = b.cache.flags := by
  rcases loadCache_cases b with ⟨stored, -, hload⟩ | ⟨e, hload⟩ <;> rw [hload]
  rfl

theorem boot_flags (now : Instant) : (result (boot now) b).2.cache.flags = b.cache.flags := by
  rcases boot_cases b now with ⟨schema, -, hboot⟩ | ⟨record, schema, -, -, hboot⟩ | ⟨e, hboot⟩
  · rw [hboot, withSchema_flags]
  · rw [hboot]
  · rw [hboot]

theorem started_flags (now : Instant) :
    (result (do boot now; loadCache) b).2.cache.flags = b.cache.flags := by
  have hboot := boot_flags (b := b) now
  rcases hresult : result (boot now) b with ⟨outcome, b'⟩
  rw [hresult] at hboot
  cases outcome with
  | error e => rw [result_bind_error hresult, hboot]
  | ok u => rw [result_bind_ok hresult, loadCache_flags, hboot]

/-- What holds of the cache and is kept by rendering holds after a call. -/
theorem rendered_cache {P : RenderCache → Prop} (hb : P b.cache) {σ α β : Type} {host : σ}
    {f : FlatIndex → Rendering σ α} (h : ∀ index, P (result (f index) ⟨b.cache, host⟩).2.cache)
    (g : Except Error α × σ → β) :
    P (result (do
      let index := (← Builder.schema).index
      return g (← rendering host (f index))) b).2.cache := by
  rcases rendered_cases b host f g with ⟨schema, -, hstate⟩ | ⟨-, hstate⟩
  · rw [hstate]
    exact h schema.index
  · rw [hstate]
    exact hb

theorem renderLayout_cache {P : RenderCache → Prop} (hb : P b.cache) {σ : Type}
    {request : RenderRequest} {resolver : Resolver} {renderer : Renderer σ} {host : σ}
    {layout : String} {rows : List Value}
    (h : ∀ index, P (result (PageBlocks.renderLayout request index resolver renderer layout rows)
      ⟨b.cache, host⟩).2.cache) :
    P (result (renderLayout request resolver renderer host layout rows) b).2.cache := by
  have hrendered := rendered_cache hb h fun x : Except Error Rendered × σ =>
    (x.1.map (·.output), x.2)
  rw [← renderLayout_eq] at hrendered
  exact hrendered

theorem renderBlock_cache {σ : Type} (request : RenderRequest) (renderer : Renderer σ) (host : σ)
    (data : Value) :
    (result (renderBlock request renderer host data) b).2.cache =
      (result (PageBlocks.renderBlock request renderer.block data) ⟨b.cache, host⟩).2.cache := rfl

theorem renderItem_cache {P : RenderCache → Prop} (hb : P b.cache) {σ : Type}
    {request : RenderRequest} {resolver : Resolver} {renderer : Renderer σ} {host : σ}
    {row : List (String × Value)}
    (h : ∀ index, P (result (PageBlocks.renderItem request index resolver renderer row)
      ⟨b.cache, host⟩).2.cache) :
    P (result (renderItem request resolver renderer host row) b).2.cache := by
  have hrendered := rendered_cache hb h fun x : Except Error (Option Rendered) × σ =>
    (x.1.map fun r => r.map (·.output), x.2)
  rw [← renderItem_eq] at hrendered
  exact hrendered

end Builder

theorem Operation.run_flags (files : FileTree) (b : Builder) (operation : Operation) :
    (operation.run files b).cache.flags = b.cache.flags := by
  cases operation with
  | compile now => exact compile_flags now
  | setDefinitions definitions now => exact setDefinitions_flags definitions now
  | reload now => exact reload_flags files now
  | saveCache => exact saveCache_flags
  | clearCache => exact clearCache_flags
  | renderLayout request resolver renderer host layout rows trace traced =>
    exact renderLayout_cache (P := fun cache => cache.flags = b.cache.flags) rfl
      fun index => Rendering.IsTraced.flags ⟨_, traced index⟩ _
  | renderItem request resolver renderer host row trace traced =>
    exact renderItem_cache (P := fun cache => cache.flags = b.cache.flags) rfl
      fun index => Rendering.IsTraced.flags ⟨_, traced index⟩ _
  | renderBlock request renderer host data trace traced =>
    exact Rendering.IsTraced.flags ⟨_, traced⟩ ⟨b.cache, host⟩

/-! ## Runs of a builder -/

/-- A builder that was opened with some settings, and has acted since in any way. -/
inductive Ran (settings : Settings) : Builder → Prop where
  | ofDefinitions {definitions : Definitions} {resources : Resources} {now : Instant}
      {b : Builder} (hsettings : definitions.settings = settings)
      (h : Gives (Builder.ofDefinitions definitions resources now) b) : Ran settings b
  | ofDirectory {files : FileTree} {root : String} {resources : Resources} {now : Instant}
      {definitions : Definitions} {b : Builder}
      (hload : Gives (openDefinitions files root) definitions)
      (hsettings : definitions.settings = settings)
      (h : (Builder.ofDirectory files root resources now).value.result = .ok b) : Ran settings b
  | acted {b : Builder} (h : Ran settings b) (files : FileTree) (operation : Operation) :
      Ran settings (operation.run files b)
  | seen {b : Builder} (h : Ran settings b) (files : FileTree) : Ran settings (b.seeFiles files)

/-- A builder has the cache that it was opened with. -/
theorem Ran.flags {settings : Settings} {b : Builder} (h : Ran settings b) :
    b.cache.flags = (settings.useCache, settings.cacheMarkers) := by
  induction h with
  | @ofDefinitions definitions resources now b hsettings h =>
    subst hsettings
    rw [Gives, ofDefinitions_value] at h
    have hb : b = (result (boot now) (assemble none resources definitions .empty)).2 :=
      (start_eq rfl).2 b h
    rw [hb, boot_flags]
    rfl
  | @ofDirectory files root resources now definitions b hload hsettings h =>
    subst hsettings
    rw [ofDirectory_value, show (openDefinitions files root).run.value = _ from hload] at h
    cases hstore : openStore files root with
    | error e =>
      rw [hstore] at h
      cases h
    | ok store =>
      rw [hstore] at h
      have hb : b = (result (do boot now; loadCache)
          (assemble (some root) resources definitions store)).2 := (start_eq rfl).2 b h
      rw [hb, started_flags]
      rfl
  | acted _ files operation ih => rw [operation.run_flags, ih]
  | @seen b _ files ih =>
    obtain ⟨access, hsees⟩ := seeFiles_eq b files
    rw [hsees]
    exact ih

/-! ## Calls of a builder -/

/-- A call of a builder to render something. -/
inductive RenderCall where
  | layout (request : RenderRequest) (resolver : Resolver) (layout : String) (rows : List Value)
  | item (request : RenderRequest) (resolver : Resolver) (row : List (String × Value))
  | block (request : RenderRequest) (data : Value)

namespace RenderCall

variable {σ : Type} (renderer : Renderer σ) (host : σ) (b : Builder)

/-- The builder after a call. -/
def after : RenderCall → Builder
  | .layout request resolver name rows =>
    (result (Builder.renderLayout request resolver renderer host name rows) b).2
  | .item request resolver row =>
    (result (Builder.renderItem request resolver renderer host row) b).2
  | .block request data => (result (Builder.renderBlock request renderer host data) b).2

/-- In a call the builder comes to ask for a unit in some state. -/
def Asks (u : Asking σ) (t : RenderState σ) : RenderCall → Prop
  | .layout request resolver name rows => ∃ schema, b.published = some schema ∧
    PageBlocks.Asks (renderLayout request schema.index resolver renderer name rows)
      ⟨b.cache, host⟩ u t
  | .item request resolver row => ∃ schema, b.published = some schema ∧
    PageBlocks.Asks (renderItem request schema.index resolver renderer row) ⟨b.cache, host⟩ u t
  | .block request data =>
    PageBlocks.Asks (renderBlock request renderer.block data) ⟨b.cache, host⟩ u t

variable {renderer host b}

theorem Asks.flags {call : RenderCall} {u : Asking σ} {t : RenderState σ}
    (h : call.Asks renderer host b u t) : t.cache.flags = b.cache.flags := by
  cases call with
  | layout =>
    obtain ⟨schema, -, h⟩ := h
    exact h.flags
  | item =>
    obtain ⟨schema, -, h⟩ := h
    exact h.flags
  | block => exact PageBlocks.Asks.flags h

/-- Without a cache a call leaves what is kept as it is. -/
theorem after_disabled (hrenderer : renderer.Traced) (hb : b.cache.enabled = false)
    (call : RenderCall) : (call.after renderer host b).cache = b.cache := by
  have hquiet : ∀ {α : Type} {r : Rendering σ α}, r.IsTraced →
      (result r ⟨b.cache, host⟩).2.cache = b.cache := by
    rintro α r ⟨trace, h⟩
    rw [h.entries, h.quiet ⟨b.cache, host⟩ hb]
    rfl
  cases call with
  | layout request resolver name rows =>
    exact renderLayout_cache (P := (· = b.cache)) rfl fun index =>
      hquiet (hrenderer.renderLayout index resolver name rows)
  | item request resolver row =>
    exact renderItem_cache (P := (· = b.cache)) rfl fun index =>
      hquiet (hrenderer.renderItem index resolver row)
  | block request data => exact hquiet (hrenderer.renderBlock data)

end RenderCall

/-- The output of a hit by some settings: behind a comment that names its key, or as it was kept. -/
def Settings.given (settings : Settings) (composite : String) (entry : CacheEntry) : String :=
  if settings.cacheMarkers then
    "<!-- blockpress:cached " ++ composite ++ " @ " ++ entry.storedAt.rfc3339 ++ " -->\n" ++
      entry.output
  else entry.output

/-- While a builder has the settings for its cache that it was opened with, it does as they say.
Without a cache no call changes what is kept, and every unit that is asked for is rendered and not
kept. With a cache, a pass that busts nothing is given what is kept, marked or not as it is set,
and keeps what it renders if it may be kept. -/
theorem caching_as_set {settings : Settings} {b : Builder} (h : Ran settings b)
    (huse : b.definitions.settings.useCache = settings.useCache)
    (hmarkers : b.definitions.settings.cacheMarkers = settings.cacheMarkers)
    {σ : Type} {renderer : Renderer σ} (hrenderer : renderer.Traced) (host : σ)
    (call : RenderCall) :
    (b.definitions.settings.useCache = false →
      (call.after renderer host b).cache = b.cache ∧
      ∀ u t, call.Asks renderer host b u t →
        result u.rendering t = (settled (result u.render t).1, (result u.render t).2)) ∧
    (b.definitions.settings.useCache = true →
      ∀ u t, call.Asks renderer host b u t → u.pass.busting = false →
        (∀ entry, t.cache.get? u.key = some entry →
          result u.rendering t =
            (.ok { output := b.definitions.settings.given u.key.composite entry }, t)) ∧
        (∀ rendered t', t.cache.get? u.key = none → result u.render t = (.ok rendered, t') →
          rendered.cacheable = true →
          result u.rendering t =
            (.ok rendered, { t' with
              cache := t'.cache.keep u.key { output := rendered.output, storedAt := u.now } }))) := by
  have hflags : b.cache.flags =
      (b.definitions.settings.useCache, b.definitions.settings.cacheMarkers) := by
    rw [h.flags, huse, hmarkers]
  obtain ⟨henabled, hmarked⟩ := Prod.mk.inj hflags
  refine ⟨fun hoff => ?_, fun hon u t hasks hpass => ?_⟩
  · have hb : b.cache.enabled = false := henabled.trans hoff
    refine ⟨call.after_disabled hrenderer hb, fun u t hasks => result_disabled u ?_⟩
    exact (congrArg Prod.fst hasks.flags).trans hb
  · obtain ⟨ht, htmarked⟩ := Prod.mk.inj hasks.flags
    have husable : t.cache.usable u.pass = true := by
      rw [RenderCache.usable, ht, henabled, hon, hpass]
      rfl
    refine ⟨fun entry hentry => ?_, fun rendered t' hnone hrendered hcacheable => ?_⟩
    · have hoffer : t.cache.offer? u.pass u.key = some entry := by
        rw [RenderCache.offer?, if_pos husable, hentry]
      rw [Asking.rendering, result_getOrRender_offered hoffer, RenderCache.mark, htmarked, hmarked]
      rfl
    · have hoffer : t.cache.offer? u.pass u.key = none := by
        rw [RenderCache.offer?, if_pos husable, hnone]
      rw [Asking.rendering, result_getOrRender_rendered hoffer, hrendered, husable]
      simp only [hcacheable, Bool.and_self, if_true]

/-- A page without blocks of its own. -/
def bareDefinitions : Definitions := { layouts := .ofList [("page", {})] }

/-- A builder of the page, which has just been opened. -/
def openedBuilder : Builder :=
  (Builder.ofDefinitions bareDefinitions .empty default).run.value.toOption.get (by decide +kernel)

theorem opened_ran : Ran bareDefinitions.settings openedBuilder := by
  have hopened : Gives (Builder.ofDefinitions bareDefinitions .empty default) openedBuilder :=
    ok_of_toOption (Option.some_get _).symm
  exact .ofDefinitions rfl hopened

theorem opened_as_set : openedBuilder.cache = {} ∧ openedBuilder.access = .full ∧
    openedBuilder.definitions.settings = bareDefinitions.settings := by decide +kernel

/-- A host with one template. -/
def textHost : Renderer (List String) :=
  Templates.renderer { blocks := .ofList [("text", [.text "<p>"])] } ⟨{}, "1", default⟩

/-- The block at the top of the page, as the page asks for it. -/
def topAsking : Asking (List String) where
  now := default
  pass := {}
  key := .ofBlock "1" topBlock
  render := do return { output := ← textHost.block "page" "text" topBlockData }

theorem topBlock_asked (s : RenderState (List String)) :
    Asks (renderBlock ⟨{}, "1", default⟩ textHost.block topBlockData) s topAsking s := by
  unfold renderBlock
  rw [topBlock_read]
  exact .unit topAsking s

/-- When it has been opened, it keeps what it renders. -/
theorem opened_keeps :
    let s : RenderState (List String) := ⟨openedBuilder.cache, []⟩
    openedBuilder.definitions.settings.useCache = true ∧
      result topAsking.rendering s = (.ok { output := "<p>" },
        { cache := s.cache.keep topAsking.key { output := "<p>", storedAt := default }
          host := ["page/text"] }) := by
  intro s
  obtain ⟨hcache, -, hsettings⟩ := opened_as_set
  have huse : openedBuilder.definitions.settings.useCache = true := by rw [hsettings]; rfl
  have hnone : s.cache.get? topAsking.key = none := by
    show openedBuilder.cache.get? topAsking.key = none
    rw [hcache]
    rfl
  have htraced : textHost.Traced := Templates.traced_renderer ..
  have hset := caching_as_set opened_ran (congrArg Settings.useCache hsettings)
    (congrArg Settings.cacheMarkers hsettings) htraced [] (.block ⟨{}, "1", default⟩ topBlockData)
  exact ⟨huse, (hset.2 huse topAsking s (topBlock_asked s) rfl).2 _ _ hnone rfl rfl⟩

/-- The same definitions with the cache switched off. -/
def uncachedDefinitions : Definitions :=
  { bareDefinitions with settings := { bareDefinitions.settings with useCache := false } }

/-- A builder that has been given them compiles them, and keeps what it renders all the same. -/
theorem switched_off_keeps :
    ∃ schema b, result (setDefinitions uncachedDefinitions default) openedBuilder = (.ok schema, b) ∧
      b.definitions.settings.useCache = false ∧
      (result (Builder.renderBlock ⟨{}, "1", default⟩ textHost [] topBlockData) b).2.cache.get?
        (.ofBlock "1" topBlock) = some { output := "<p>", storedAt := default } := by
  obtain ⟨hcache, haccess, -⟩ := opened_as_set
  rw [setDefinitions_eq]
  rcases compile_cases { openedBuilder with definitions := uncachedDefinitions } default with
    ⟨schema, -, -, hcompile⟩ | ⟨hstuck, -⟩
  · refine ⟨schema, _, hcompile, rfl, ?_⟩
    have hbefore : Builder.cache { openedBuilder with definitions := uncachedDefinitions } = {} :=
      hcache
    rw [renderBlock_cache, withSchema_cache (congrArg RenderCache.entries hbefore), hbefore]
    decide +kernel
  · have hcompiled : (compiled uncachedDefinitions openedBuilder.resources
        default).run.value.toOption.isSome = true := by decide +kernel
    obtain ⟨schema, hschema⟩ := Option.isSome_iff_exists.mp hcompiled
    rcases hstuck default schema (ok_of_toOption hschema) with hnone | ⟨hread, -⟩
    · exact absurd (haccess.symm.trans hnone) (by decide)
    · exact absurd (haccess.symm.trans hread) (by decide)

end PageBlocks
