import Mathlib.Data.List.Forall2
import PageBlocks.Proofs.Entries
import PageBlocks.Proofs.Render.Trace

/-!
# Spans of rendering

A span tells how a unit came by its output: what is kept was given out, or it
was rendered, out of the units that were joined into it. It ends with a
rendering that is kept or just given out, with a placeholder where a template
is missing, or with a failure.

A host may ask for units itself, and what it is given it does not say. A lone
host does not: then everything that is joined into a layout is a span of it, and
whether a placeholder stands in an output can be told from its span.

> `Accounts.unit`, `accounts_blocks`, `accounts_layout`, `accounts_item`: what
> is kept after a rendering was kept before or at the end of one of its spans,
> and there only without a placeholder among what was joined;
>
> `Yields`, `yields_blocks`: what a block gives is what its span ends with, and it
> may be kept only if the span is whole;
>
> `Span.Whole.not_tainted`: where nothing but whole spans keep anything, no
> placeholder gets into a whole span by way of the cache.
-/

namespace PageBlocks

open Stateful

variable {σ α : Type}

/-! ## Hosts that ask for no units -/

/-- What a host gives by its own state alone. -/
def Rendering.own (f : σ → Except Error α × σ) : Rendering σ α :=
  ExceptT.mk (modifyGet fun s => ((f s.host).1, { s with host := (f s.host).2 }))

theorem result_own (f : σ → Except Error α × σ) (s : RenderState σ) :
    result (Rendering.own f) s = ((f s.host).1, { s with host := (f s.host).2 }) := rfl

/-- A host that asks for no unit while it renders one. What it gives may change from call to call,
and its templates may be there or not. -/
structure LoneHost (σ : Type) where
  block : (layout block : String) → Value → σ → Except Error String × σ
  layout : (layout : String) → List String → Value → σ → Except Error (Option String) × σ

def LoneHost.renderer (host : LoneHost σ) : Renderer σ where
  block layout block data := .own (host.block layout block data)
  layout layout outputs data := .own (host.layout layout outputs data)

/-! ## Spans -/

/-- How the rendering of a unit ends. -/
inductive Ending where
  | kept (entry : CacheEntry)
  /-- Given out, but not kept. -/
  | passed (output : String)
  /-- A placeholder stands for a template. -/
  | missing (template : String)
  | failed (error : Error)

/-- How a unit came by its output. -/
inductive Span where
  /-- What is kept under a key was given out. -/
  | served (key : String) (entry : CacheEntry) (output : String)
  /-- It was rendered, with the spans of what was joined into it. -/
  | rendered (key : String) (parts : List Span) (ending : Ending)

namespace Span

/-- What a unit gives. -/
def output? : Span → Option String
  | .served _ _ output => some output
  | .rendered _ _ (.kept entry) => some entry.output
  | .rendered _ _ (.passed output) => some output
  | .rendered _ _ (.missing template) => some (placeholder template)
  | .rendered _ _ (.failed _) => none

/-- An entry is kept under a key at the end of a span. -/
def Keeps (span : Span) (key : String) (entry : CacheEntry) : Prop :=
  ∃ parts, span = .rendered key parts (.kept entry)

/-- One span is another, or stands among what was joined into it. -/
inductive In : Span → Span → Prop where
  | self (span : Span) : In span span
  | part {span part : Span} {key : String} {parts : List Span} {ending : Ending}
      (hmem : part ∈ parts) (h : In span part) : In span (.rendered key parts ending)

/-- No placeholder was put in while the unit was rendered. -/
inductive Whole : Span → Prop where
  | served (key : String) (entry : CacheEntry) (output : String) : Whole (.served key entry output)
  | rendered {key : String} {parts : List Span} {ending : Ending}
      (hparts : ∀ part ∈ parts, Whole part)
      (hending : ∀ template, ending ≠ .missing template) : Whole (.rendered key parts ending)

end Span

/-- One of the spans of a log, or of what was joined into them. -/
def Logged (log : List Span) (span : Span) : Prop := ∃ top ∈ log, span.In top

/-- An entry was kept under a key at the end of a span of a log. -/
def KeptIn (log : List Span) (key : String) (entry : CacheEntry) : Prop :=
  ∃ span, Logged log span ∧ span.Keeps key entry

/-- A placeholder stands in the output of a span. It stands for a template of the unit itself, or
it came with what was joined, or with what was given out again and had been kept with one. -/
inductive Span.Tainted (log : List Span) : Span → Prop where
  | missing (key : String) (parts : List Span) (template : String) :
      Tainted log (.rendered key parts (.missing template))
  | part {part : Span} {key : String} {parts : List Span} {ending : Ending}
      (hmem : part ∈ parts) (h : Tainted log part) : Tainted log (.rendered key parts ending)
  | served {origin : Span} {key : String} {entry : CacheEntry} {output : String}
      (hlogged : Logged log origin) (hkeeps : origin.Keeps key entry) (h : Tainted log origin) :
      Tainted log (.served key entry output)

/-- Nothing but whole spans keep what they rendered. -/
def KeepsWhole (log : List Span) : Prop :=
  ∀ span key entry, Logged log span → span.Keeps key entry → span.Whole

section

variable {log log' : List Span} {span : Span} {key : String} {entry : CacheEntry}

theorem Logged.mono (h : Logged log span) (hlog : log ⊆ log') : Logged log' span := by
  obtain ⟨top, hmem, hin⟩ := h
  exact ⟨top, hlog hmem, hin⟩

theorem KeptIn.mono (h : KeptIn log key entry) (hlog : log ⊆ log') : KeptIn log' key entry := by
  obtain ⟨span, hlogged, hkeeps⟩ := h
  exact ⟨span, hlogged.mono hlog, hkeeps⟩

theorem not_logged_nil : ¬Logged [] span := by
  rintro ⟨top, hmem, -⟩
  exact List.not_mem_nil hmem

theorem logged_served {output : String} (h : Logged [.served key entry output] span) :
    span = .served key entry output := by
  obtain ⟨top, hmem, hin⟩ := h
  obtain rfl := List.mem_singleton.mp hmem
  cases hin with
  | self => rfl

theorem logged_rendered {parts : List Span} {ending : Ending} :
    Logged [.rendered key parts ending] span ↔
      span = .rendered key parts ending ∨ Logged parts span := by
  constructor
  · rintro ⟨top, hmem, hin⟩
    obtain rfl := List.mem_singleton.mp hmem
    cases hin with
    | self => exact .inl rfl
    | part hmem hin => exact .inr ⟨_, hmem, hin⟩
  · rintro (rfl | ⟨top, hmem, hin⟩)
    · exact ⟨_, List.mem_singleton_self _, .self _⟩
    · exact ⟨_, List.mem_singleton_self _, .part hmem hin⟩

theorem keepsWhole_nil : KeepsWhole [] := fun _ _ _ hlogged _ => absurd hlogged not_logged_nil

theorem KeepsWhole.append (h : KeepsWhole log) (h' : KeepsWhole log') :
    KeepsWhole (log ++ log') := by
  rintro span key entry ⟨top, hmem, hin⟩ hkeeps
  rcases List.mem_append.mp hmem with hmem | hmem
  · exact h span key entry ⟨top, hmem, hin⟩ hkeeps
  · exact h' span key entry ⟨top, hmem, hin⟩ hkeeps

/-- By induction on how the placeholder got there: it did not stand in the unit itself, nor in what
was joined, and what was given out again had been kept by a whole span. -/
theorem Span.Whole.not_tainted (hwhole : span.Whole) (hlog : KeepsWhole log) :
    ¬span.Tainted log := by
  intro htainted
  induction htainted with
  | missing key parts template =>
    cases hwhole with
    | rendered _ hending => exact hending template rfl
  | part hmem _ ih =>
    cases hwhole with
    | rendered hparts _ => exact ih (hparts _ hmem)
  | served hlogged hkeeps _ ih => exact ih (hlog _ _ _ hlogged hkeeps)

end

/-! ## What spans account for -/

/-- What is kept afterwards was kept before or at the end of a span, and only by whole ones. -/
structure Accounts (spans : List Span) (before after : Dict CacheEntry) : Prop where
  entries : after.All fun key entry => before.get? key = some entry ∨ KeptIn spans key entry
  whole : KeepsWhole spans

/-- A span ends with what is given, which may be kept only if the span is whole. -/
structure Yields (span : Span) (rendered : Rendered) : Prop where
  output : span.output? = some rendered.output
  whole : rendered.cacheable = true → span.Whole

theorem accounts_nil (entries : Dict CacheEntry) : Accounts [] entries entries where
  entries _ _ hget := .inl hget
  whole := keepsWhole_nil

theorem Accounts.append {es fs : List Span} {before between after : Dict CacheEntry}
    (hes : Accounts es before between) (hfs : Accounts fs between after) :
    Accounts (es ++ fs) before after where
  entries := by
    intro key entry hget
    rcases hfs.entries key entry hget with hget | hkept
    · rcases hes.entries key entry hget with hget | hkept
      · exact .inl hget
      · exact .inr (hkept.mono (List.subset_append_left es fs))
    · exact .inr (hkept.mono (List.subset_append_right es fs))
  whole := hes.whole.append hfs.whole

/-- Renderings that may all be kept were given by whole spans. -/
theorem whole_of_yields {spans : List Span} {rendered : List Rendered}
    (h : List.Forall₂ Yields spans rendered)
    (hcacheable : rendered.all (·.cacheable) = true) : ∀ span ∈ spans, span.Whole := by
  induction h with
  | nil => exact fun span hmem => absurd hmem List.not_mem_nil
  | cons hyields _ ih =>
    rw [List.all_cons, Bool.and_eq_true] at hcacheable
    intro span hmem
    rcases List.mem_cons.mp hmem with rfl | hmem
    · exact hyields.whole hcacheable.1
    · exact ih hcacheable.2 span hmem

/-! ## Units -/

namespace Ending

/-- How the rendering of a unit ends, by what comes of it and whether the pass keeps anything. -/
def of (now : Instant) (keeping : Bool) : Except Error Rendered → Ending
  | .ok rendered =>
    if keeping && rendered.cacheable then .kept { output := rendered.output, storedAt := now }
    else .passed rendered.output
  | .error (.missingTemplate name) => .missing name
  | .error error => .failed error

/-- What is kept after the end of a unit. -/
def after (key : String) (entries : Dict CacheEntry) : Ending → Dict CacheEntry
  | .kept entry => entries.insert key entry
  | _ => entries

variable {now : Instant} {keeping : Bool}

/-- Only what may be kept is kept. -/
theorem of_kept {outcome : Except Error Rendered} {entry : CacheEntry}
    (h : of now keeping outcome = .kept entry) :
    ∃ rendered, outcome = .ok rendered ∧ rendered.cacheable = true := by
  unfold of at h
  split at h
  next rendered =>
    split at h
    next hkeep => exact ⟨rendered, rfl, (Bool.and_eq_true _ _ |>.mp hkeep).2⟩
    next => cases h
  next => cases h
  next => cases h

theorem of_ok_ne_missing (rendered : Rendered) (template : String) :
    of now keeping (.ok rendered) ≠ .missing template := by
  unfold of
  dsimp only
  split
  next => exact Ending.noConfusion
  next => exact Ending.noConfusion

end Ending

/-- The span of a unit, by the spans of what is joined into it when it is rendered. -/
def unitSpan (now : Instant) (pass : RenderPass) (key : CacheKey) (render : Rendering σ Rendered)
    (parts : List Span) (s : RenderState σ) : Span :=
  match s.cache.offer? pass key with
  | some entry => .served key.composite entry (s.cache.mark key.composite entry)
  | none => .rendered key.composite parts (.of now (s.cache.usable pass) (result render s).1)

section

variable {now : Instant} {pass : RenderPass} {key : CacheKey} {render : Rendering σ Rendered}
  {parts : List Span} {s : RenderState σ}

/-- A unit that is rendered keeps what its end says, behind what was kept meanwhile. -/
theorem entries_getOrRender (h : s.cache.offer? pass key = none) :
    (result (getOrRender now pass key render) s).2.cache.entries =
      (Ending.of now (s.cache.usable pass) (result render s).1).after key.composite
        (result render s).2.cache.entries := by
  rw [result_getOrRender_rendered h]
  rcases result render s with ⟨outcome, t⟩
  cases outcome with
  | ok rendered =>
    dsimp only [Ending.of]
    split
    next => rfl
    next => rfl
  | error error => cases error <;> rfl

/-- What is joined into a unit accounts for the unit, with its own entry if it is kept. -/
theorem Accounts.unit
    (h : Accounts parts s.cache.entries (result render s).2.cache.entries)
    (hparts : ∀ rendered, (result render s).1 = .ok rendered → rendered.cacheable = true →
      ∀ part ∈ parts, part.Whole) :
    Accounts [unitSpan now pass key render parts s] s.cache.entries
      (result (getOrRender now pass key render) s).2.cache.entries := by
  unfold unitSpan
  cases hoffer : s.cache.offer? pass key with
  | some entry =>
    rw [result_getOrRender_offered hoffer]
    refine ⟨fun key entry hget => .inl hget, fun span key' entry' hlogged hkeeps => ?_⟩
    obtain rfl := logged_served hlogged
    exact .served ..
  | none =>
    rw [entries_getOrRender hoffer]
    dsimp only
    generalize hending : Ending.of now (s.cache.usable pass) (result render s).1 = ending
    refine ⟨?_, fun span key' entry' hlogged hkeeps => ?_⟩
    · -- What a part keeps is kept within the unit.
      have hinner : (result render s).2.cache.entries.All fun key' entry =>
          s.cache.entries.get? key' = some entry ∨
            KeptIn [.rendered key.composite parts ending] key' entry := by
        intro key' entry hget
        refine (h.entries key' entry hget).imp_right ?_
        rintro ⟨span, hlogged, hkeeps⟩
        exact ⟨span, logged_rendered.mpr (.inr hlogged), hkeeps⟩
      cases ending with
      | kept entry =>
        exact hinner.insert (.inr ⟨_, logged_rendered.mpr (.inl rfl), parts, rfl⟩)
      | passed output => exact hinner
      | missing template => exact hinner
      | failed error => exact hinner
    · rcases logged_rendered.mp hlogged with rfl | hlogged
      · obtain ⟨parts', heq⟩ := hkeeps
        cases heq
        obtain ⟨rendered, hok, hcacheable⟩ := Ending.of_kept hending
        exact .rendered (hparts rendered hok hcacheable) fun template heq => by cases heq
      · exact h.whole span key' entry' hlogged hkeeps

/-- A unit gives what its span ends with. -/
theorem Yields.unit {rendered : Rendered}
    (h : (result (getOrRender now pass key render) s).1 = .ok rendered)
    (hparts : ∀ rendered, (result render s).1 = .ok rendered → rendered.cacheable = true →
      ∀ part ∈ parts, part.Whole) :
    Yields (unitSpan now pass key render parts s) rendered := by
  unfold unitSpan
  cases hoffer : s.cache.offer? pass key with
  | some entry =>
    rw [result_getOrRender_offered hoffer] at h
    cases h
    exact ⟨rfl, fun _ => .served ..⟩
  | none =>
    rw [result_getOrRender_rendered hoffer] at h
    rcases hresult : result render s with ⟨outcome, t⟩
    rw [hresult] at h hparts
    dsimp only at h hparts ⊢
    cases outcome with
    | ok inner =>
      cases h
      refine ⟨?_, fun hcacheable => ?_⟩
      · dsimp only [Ending.of]
        split
        next => rfl
        next => rfl
      · exact .rendered (hparts rendered rfl hcacheable) (Ending.of_ok_ne_missing rendered)
    | error error =>
      cases error with
      | missingTemplate name =>
        cases h
        exact ⟨rfl, fun hcacheable => nomatch hcacheable⟩
      | _ => cases h

end

/-! ## Blocks and layouts -/

variable (request : RenderRequest) (host : LoneHost σ)

/-- The rendering of a block anew. -/
def renderBlockAnew (m : BlockMeta) (data : Value) : Rendering σ Rendered := do
  return { output := ← host.renderer.block m.layout m.block data }

/-- The span of a block. What is no block has none. -/
def blockSpans (data : Value) (s : RenderState σ) : List Span :=
  match BlockMeta.ofData? data with
  | none => []
  | some m =>
    [unitSpan request.now request.pass (.ofBlock request.item m) (renderBlockAnew host m data) [] s]

/-- The spans of the blocks of a layout, up to the first one that fails. -/
def blocksSpans : List Value → RenderState σ → List Span
  | [], _ => []
  | data :: rest, s =>
    if (BlockMeta.ofData? data).isNone then blocksSpans rest s
    else
      blockSpans request host data s ++
        match result (renderBlock request host.renderer.block data) s with
        | (.ok _, t) => blocksSpans rest t
        | (.error _, _) => []

/-- The span of a layout. -/
def layoutSpan (index : FlatIndex) (resolver : Resolver) (layout : String) (rows : List Value)
    (s : RenderState σ) : Span :=
  unitSpan request.now request.pass (.ofLayout request.item layout)
    (renderLayoutAnew request index resolver host.renderer layout rows)
    (blocksSpans request host (Rehydrate.layout index resolver layout rows) s) s

/-- The span of an item, if a layout is selected for it. -/
def itemSpans (index : FlatIndex) (resolver : Resolver) (row : List (String × Value))
    (s : RenderState σ) : List Span :=
  match selectLayout index row with
  | .ok (some selected) =>
    [layoutSpan request host index resolver selected.layout selected.rows s]
  | _ => []

variable {request host}

/-- Nothing is joined into a block, and rendering it anew leaves the cache alone. -/
theorem accounts_renderBlockAnew (m : BlockMeta) (data : Value) (s : RenderState σ) :
    Accounts [] s.cache.entries (result (renderBlockAnew host m data) s).2.cache.entries := by
  have hcache : (result (renderBlockAnew host m data) s).2.cache = s.cache := by
    unfold renderBlockAnew
    rw [result_bind, show host.renderer.block m.layout m.block data = .own _ from rfl, result_own]
    cases (host.block m.layout m.block data s.host).1 with
    | ok output => rfl
    | error error => rfl
  rw [hcache]
  exact accounts_nil _

variable (request host) in
theorem accounts_block (data : Value) (s : RenderState σ) :
    Accounts (blockSpans request host data s) s.cache.entries
      (result (renderBlock request host.renderer.block data) s).2.cache.entries := by
  unfold blockSpans renderBlock
  cases BlockMeta.ofData? data with
  | none => exact accounts_nil _
  | some m =>
    exact (accounts_renderBlockAnew m data s).unit fun _ _ _ part hmem =>
      absurd hmem List.not_mem_nil

/-- A block gives what its span ends with. -/
theorem yields_block {data : Value} {s : RenderState σ} {rendered : Rendered}
    (h : (result (renderBlock request host.renderer.block data) s).1 = .ok rendered) :
    ∃ span, blockSpans request host data s = [span] ∧ Yields span rendered := by
  unfold renderBlock at h
  unfold blockSpans
  cases hmeta : BlockMeta.ofData? data with
  | none =>
    rw [hmeta] at h
    cases h
  | some m =>
    rw [hmeta] at h
    exact ⟨_, rfl, Yields.unit h fun _ _ _ part hmem => absurd hmem List.not_mem_nil⟩

variable (request host) in
theorem accounts_blocks (layout : String) (blocks : List Value) (s : RenderState σ) :
    Accounts (blocksSpans request host blocks s) s.cache.entries
      (result (renderBlocks request host.renderer layout blocks) s).2.cache.entries := by
  induction blocks generalizing s with
  | nil => exact accounts_nil _
  | cons data rest ih =>
    unfold blocksSpans renderBlocks
    split
    next => exact ih s
    next =>
      have hblock := accounts_block request host data s
      rw [result_bind]
      rcases hresult : result (renderBlock request host.renderer.block data) s with ⟨outcome, t⟩
      rw [hresult] at hblock
      cases outcome with
      | error error =>
        show Accounts (_ ++ []) _ _
        rw [List.append_nil]
        exact hblock
      | ok rendered =>
        -- The others are rendered on what this block has left behind.
        refine hblock.append ?_
        dsimp only
        rw [result_bind]
        have hrest := ih t
        rcases hresult : result (renderBlocks request host.renderer layout rest) t with ⟨outcome, u⟩
        rw [hresult] at hrest
        cases outcome with
        | ok others => exact hrest
        | error error => exact hrest

/-- The blocks of a layout give what their spans end with, one by one. -/
theorem yields_blocks {layout : String} {blocks : List Value} {s : RenderState σ}
    {rendered : List Rendered}
    (h : (result (renderBlocks request host.renderer layout blocks) s).1 = .ok rendered) :
    List.Forall₂ Yields (blocksSpans request host blocks s) rendered := by
  induction blocks generalizing s rendered with
  | nil =>
    cases h
    exact .nil
  | cons data rest ih =>
    unfold renderBlocks at h
    unfold blocksSpans
    split
    next hnone =>
      rw [if_pos hnone] at h
      exact ih h
    next hsome =>
      rw [if_neg hsome, result_bind] at h
      rcases hblock : result (renderBlock request host.renderer.block data) s with ⟨outcome, t⟩
      rw [hblock] at h
      cases outcome with
      | error error => cases h
      | ok first =>
        dsimp only at h ⊢
        rw [result_bind] at h
        rcases hrest : result (renderBlocks request host.renderer layout rest) t with ⟨outcome, u⟩
        rw [hrest] at h
        cases outcome with
        | error error => cases h
        | ok others =>
          cases h
          obtain ⟨span, hspan, hyields⟩ :=
            yields_block (congrArg Prod.fst hblock)
          rw [hspan]
          exact .cons hyields (ih (congrArg Prod.fst hrest))

variable {index : FlatIndex} {resolver : Resolver} {layout : String} {rows : List Value}
  {s : RenderState σ}

/-- Rendering a layout anew renders its blocks; then the host wraps them. -/
theorem result_renderLayoutAnew :
    result (renderLayoutAnew request index resolver host.renderer layout rows) s =
      match result (renderBlocks request host.renderer layout
        (Rehydrate.layout index resolver layout rows)) s with
      | (.error error, t) => (.error error, t)
      | (.ok rendered, t) =>
        let wrapped := host.layout layout (rendered.map (·.output))
          (layoutData request.item layout (Rehydrate.layout index resolver layout rows)) t.host
        (wrapped.1.map fun output? =>
            { output := output?.getD (String.intercalate "\n" (rendered.map (·.output)))
              cacheable := rendered.all (·.cacheable) },
          { t with host := wrapped.2 }) := by
  unfold renderLayoutAnew
  rw [result_bind_ok (a := ()) (t := s) rfl, result_bind]
  rcases result (renderBlocks request host.renderer layout
    (Rehydrate.layout index resolver layout rows)) s with ⟨outcome, t⟩
  cases outcome with
  | error error => rfl
  | ok rendered =>
    dsimp only
    rw [result_bind, show host.renderer.layout = fun layout outputs data =>
      Rendering.own (host.layout layout outputs data) from rfl, result_own]
    cases (host.layout layout (rendered.map (·.output)) (layoutData request.item layout
      (Rehydrate.layout index resolver layout rows)) t.host).1 with
    | ok output? => rfl
    | error error => rfl

/-- A layout may be kept only if its blocks were given by whole spans. -/
theorem whole_of_renderLayoutAnew {rendered : Rendered}
    (h : (result (renderLayoutAnew request index resolver host.renderer layout rows) s).1 =
      .ok rendered)
    (hcacheable : rendered.cacheable = true) :
    ∀ part ∈ blocksSpans request host (Rehydrate.layout index resolver layout rows) s,
      part.Whole := by
  rw [result_renderLayoutAnew] at h
  rcases hblocks : result (renderBlocks request host.renderer layout
    (Rehydrate.layout index resolver layout rows)) s with ⟨outcome, t⟩
  rw [hblocks] at h
  cases outcome with
  | error error => cases h
  | ok blocks =>
    dsimp only at h
    cases hwrapped : (host.layout layout (blocks.map (·.output)) (layoutData request.item layout
      (Rehydrate.layout index resolver layout rows)) t.host).1 with
    | error error =>
      rw [hwrapped] at h
      cases h
    | ok output? =>
      rw [hwrapped] at h
      cases h
      exact whole_of_yields (yields_blocks (congrArg Prod.fst hblocks)) hcacheable

variable (request host index resolver layout rows s) in
theorem accounts_layout :
    Accounts [layoutSpan request host index resolver layout rows s] s.cache.entries
      (result (renderLayout request index resolver host.renderer layout rows) s).2.cache.entries := by
  refine Accounts.unit ?_ fun rendered => whole_of_renderLayoutAnew
  have hblocks := accounts_blocks request host layout
    (Rehydrate.layout index resolver layout rows) s
  rw [result_renderLayoutAnew]
  rcases hresult : result (renderBlocks request host.renderer layout
    (Rehydrate.layout index resolver layout rows)) s with ⟨outcome, t⟩
  rw [hresult] at hblocks
  cases outcome with
  | ok rendered => exact hblocks
  | error error => exact hblocks

variable (request host index resolver s) in
theorem accounts_item (row : List (String × Value)) :
    Accounts (itemSpans request host index resolver row s) s.cache.entries
      (result (renderItem request index resolver host.renderer row) s).2.cache.entries := by
  unfold itemSpans renderItem
  rcases selectLayout index row with error | _ | selected
  · exact accounts_nil _
  · exact accounts_nil _
  · dsimp only
    rw [result_bind]
    have hlayout := accounts_layout request host index resolver selected.layout selected.rows s
    rcases hresult : result (renderLayout request index resolver host.renderer selected.layout
      selected.rows) s with ⟨outcome, t⟩
    rw [hresult] at hlayout
    cases outcome with
    | ok rendered => exact hlayout
    | error error => exact hlayout

end PageBlocks
