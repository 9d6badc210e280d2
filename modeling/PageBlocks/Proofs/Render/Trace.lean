import PageBlocks.Proofs.Stateful
import PageBlocks.Render.Template

/-!
# Traces of renderings

What a rendering does with the cache is a list of events: kept renderings that
are given out, and new ones that are kept. A host may do with its own state what
it likes, but gets at the cache only by asking for units: a rendering of that
kind has a trace, its events from every state.

> `Traced.entries`: what is kept afterwards is what the events make of what was
> kept before.
>
> `Traced.served`: a hit gives out what is kept under its key at that point.
-/

namespace PageBlocks

open Stateful

/-- What a rendering does with the cache. -/
inductive CacheEvent where
  /-- What is kept under a key is given out. -/
  | hit (key : String) (entry : CacheEntry)
  /-- A rendering is kept under a key. -/
  | kept (key : String) (entry : CacheEntry)
deriving DecidableEq, Repr

/-- What is kept after an event. -/
def CacheEvent.after (entries : Dict CacheEntry) : CacheEvent → Dict CacheEntry
  | .hit .. => entries
  | .kept key entry => entries.insert key entry

/-- What is kept after some events. -/
def replay (entries : Dict CacheEntry) (events : List CacheEvent) : Dict CacheEntry :=
  events.foldl CacheEvent.after entries

theorem replay_append (entries : Dict CacheEntry) (es fs : List CacheEvent) :
    replay entries (es ++ fs) = replay (replay entries es) fs := List.foldl_append

/-- Every hit gives out what is kept under its key at that point. -/
inductive Served : Dict CacheEntry → List CacheEvent → Prop where
  | nil {entries : Dict CacheEntry} : Served entries []
  | hit {entries : Dict CacheEntry} {key : String} {entry : CacheEntry} {events : List CacheEvent}
      (found : entries.get? key = some entry) (rest : Served entries events) :
      Served entries (.hit key entry :: events)
  | kept {entries : Dict CacheEntry} {key : String} {entry : CacheEntry} {events : List CacheEvent}
      (rest : Served (entries.insert key entry) events) :
      Served entries (.kept key entry :: events)

theorem Served.append {entries : Dict CacheEntry} {es fs : List CacheEvent}
    (hes : Served entries es) (hfs : Served (replay entries es) fs) :
    Served entries (es ++ fs) := by
  induction hes with
  | nil => exact hfs
  | hit found _ ih => exact .hit found (ih hfs)
  | kept _ ih => exact .kept (ih hfs)

/-! ## Units -/

/-- Whether a pass uses the cache. -/
def RenderCache.usable (cache : RenderCache) (pass : RenderPass) : Bool :=
  cache.enabled && !pass.busting

/-- What a pass is given for a unit without rendering it. -/
def RenderCache.offer? (cache : RenderCache) (pass : RenderPass) (key : CacheKey) :
    Option CacheEntry :=
  if cache.usable pass then cache.get? key else none

/-- Keeps a rendering. -/
def RenderCache.keep (cache : RenderCache) (key : CacheKey) (entry : CacheEntry) : RenderCache :=
  { cache with entries := cache.entries.insert key.composite entry }

section

variable {σ : Type} {now : Instant} {pass : RenderPass} {key : CacheKey}
  {render : Rendering σ Rendered} {s t : RenderState σ}

/-- A unit that is offered is given out marked; nothing is rendered. -/
theorem result_getOrRender_offered {entry : CacheEntry}
    (h : s.cache.offer? pass key = some entry) :
    result (getOrRender now pass key render) s =
      (.ok { output := s.cache.mark key.composite entry }, s) := by
  have hfound : (if (s.cache.enabled && !pass.busting) = true
      then s.cache.entries.get? key.composite else none) = some entry := h
  unfold getOrRender
  rw [result_bind_ok (a := s) (t := s) rfl]
  dsimp only
  rw [hfound]
  rfl

/-- A unit that is not offered is rendered. -/
theorem result_getOrRender_rendered (h : s.cache.offer? pass key = none) :
    result (getOrRender now pass key render) s =
      match result render s with
      | (.ok rendered, t) =>
        (.ok rendered,
          if s.cache.usable pass && rendered.cacheable then
            { t with cache := t.cache.keep key { output := rendered.output, storedAt := now } }
          else t)
      | (.error (.missingTemplate name), t) =>
        (.ok { output := placeholder name, cacheable := false }, t)
      | (.error error, t) => (.error error, t) := by
  have houtcome : result (Rendering.outcome render) s =
      (.ok (result render s).1, (result render s).2) := rfl
  have hnone : (if (s.cache.enabled && !pass.busting) = true
      then s.cache.entries.get? key.composite else none) = none := h
  unfold getOrRender
  rw [result_bind_ok (a := s) (t := s) rfl]
  dsimp only
  rw [hnone]
  -- Whether the cache may be used was asked before rendering, which may have changed it.
  show result (_ >>= _) s = _
  rw [result_bind_ok (t := s) rfl, result_bind_ok houtcome]
  rcases result render s with ⟨outcome, t⟩
  cases outcome with
  | ok rendered =>
    show result (if s.cache.usable pass && rendered.cacheable then _ else _) t = _
    by_cases hkeep : (s.cache.usable pass && rendered.cacheable) = true
    · rw [if_pos hkeep]
      simp only [if_pos hkeep]
      rfl
    · rw [if_neg hkeep]
      simp only [if_neg hkeep]
      by_cases hcacheable : rendered.cacheable = true
      · rw [if_neg (by rw [hcacheable]; exact Bool.false_ne_true)]
        rfl
      · rw [if_pos (by rw [Bool.not_eq_true _ |>.mp hcacheable]; rfl)]
        rfl
  | error error => cases error <;> rfl

/-- What asking for a unit does with the cache, by what rendering it does. -/
def unitTrace (now : Instant) (pass : RenderPass) (key : CacheKey)
    (render : Rendering σ Rendered) (trace : RenderState σ → List CacheEvent)
    (s : RenderState σ) : List CacheEvent :=
  match s.cache.offer? pass key with
  | some entry => [.hit key.composite entry]
  | none =>
    trace s ++
      match (result render s).1 with
      | .ok rendered =>
        if s.cache.usable pass && rendered.cacheable then
          [.kept key.composite { output := rendered.output, storedAt := now }]
        else []
      | .error _ => []

end

/-- What a rendering and another one behind it do with the cache, by what each does. -/
def bindTrace {σ α : Type} (r : Rendering σ α) (trace : RenderState σ → List CacheEvent)
    (next : α → RenderState σ → List CacheEvent) (s : RenderState σ) : List CacheEvent :=
  trace s ++
    match result r s with
    | (.ok a, t) => next a t
    | (.error _, _) => []

/-- A rendering that gets at the cache only by asking for units, with its trace. -/
inductive Traced {σ : Type} : {α : Type} → Rendering σ α → (RenderState σ → List CacheEvent) →
    Prop where
  | settled {α : Type} (outcome : Except Error α) : Traced (ExceptT.mk (pure outcome)) fun _ => []
  | note (ns : List Notice) : Traced (Rendering.noteAll ns) fun _ => []
  /-- A look at the state of the host, and a change of it. -/
  | host {α : Type} (f : σ → α × σ) :
      Traced (ExceptT.lift (modifyGet fun s => ((f s.host).1, { s with host := (f s.host).2 })))
        fun _ => []
  | outcome {α : Type} {r : Rendering σ α} {trace : RenderState σ → List CacheEvent}
      (h : Traced r trace) : Traced (Rendering.outcome r) trace
  | bind {α β : Type} {r : Rendering σ α} {trace : RenderState σ → List CacheEvent}
      {f : α → Rendering σ β} {next : α → RenderState σ → List CacheEvent}
      (h : Traced r trace) (hnext : ∀ a, Traced (f a) (next a)) :
      Traced (r >>= f) (bindTrace r trace next)
  | unit {render : Rendering σ Rendered} {trace : RenderState σ → List CacheEvent}
      (now : Instant) (pass : RenderPass) (key : CacheKey) (h : Traced render trace) :
      Traced (getOrRender now pass key render) (unitTrace now pass key render trace)

namespace Traced

variable {σ α : Type} {r : Rendering σ α} {trace : RenderState σ → List CacheEvent}

/-- A rendering makes of the cache what its events make of it. -/
theorem entries (h : Traced r trace) (s : RenderState σ) :
    (result r s).2.cache =
      { s.cache with entries := replay s.cache.entries (trace s) } := by
  induction h generalizing s with
  | settled outcome => rfl
  | note ns => rfl
  | host f => rfl
  | outcome _ ih => exact ih s
  | @bind α β r trace f next _ _ ih ihnext =>
    -- The second rendering starts from the cache that the first one left.
    rw [result_bind, bindTrace]
    have hr := ih s
    rcases hresult : result r s with ⟨outcome, t⟩
    rw [hresult] at hr
    cases outcome with
    | error e =>
      show t.cache = { s.cache with entries := replay s.cache.entries (trace s ++ []) }
      rw [List.append_nil]
      exact hr
    | ok a =>
      show (result (f a) t).2.cache =
        { s.cache with entries := replay s.cache.entries (trace s ++ next a t) }
      rw [ihnext a t, replay_append]
      have ht : t.cache = { s.cache with entries := replay s.cache.entries (trace s) } := hr
      rw [ht]
  | @unit render trace now pass key _ ih =>
    unfold unitTrace
    have hr := ih s
    cases hoffer : s.cache.offer? pass key with
    | some entry =>
      rw [result_getOrRender_offered hoffer]
      rfl
    | none =>
      rw [result_getOrRender_rendered hoffer]
      rcases hresult : result render s with ⟨outcome, t⟩
      rw [hresult] at hr
      cases outcome with
      | error e =>
        have ht : t.cache = { s.cache with entries := replay s.cache.entries (trace s ++ []) } := by
          rw [List.append_nil]
          exact hr
        cases e <;> exact ht
      | ok rendered =>
        have ht : t.cache = { s.cache with entries := replay s.cache.entries (trace s) } := hr
        by_cases hkeep : (s.cache.usable pass && rendered.cacheable) = true
        · simp only [if_pos hkeep]
          rw [replay_append, RenderCache.keep, ht]
          rfl
        · simp only [if_neg hkeep]
          rw [List.append_nil]
          exact ht

/-- Every hit of a rendering gives out what is kept under its key at that point. -/
theorem served (h : Traced r trace) (s : RenderState σ) :
    Served s.cache.entries (trace s) := by
  induction h generalizing s with
  | settled outcome => exact .nil
  | note ns => exact .nil
  | host f => exact .nil
  | outcome _ ih => exact ih s
  | @bind α β r trace f next h _ ih ihnext =>
    refine (ih s).append ?_
    have hr := h.entries s
    rcases hresult : result r s with ⟨outcome, t⟩
    rw [hresult] at hr
    cases outcome with
    | error e => exact .nil
    | ok a =>
      have ht : t.cache.entries = replay s.cache.entries (trace s) :=
        congrArg RenderCache.entries hr
      rw [← ht]
      exact ihnext a t
  | @unit render trace now pass key h ih =>
    unfold unitTrace
    cases hoffer : s.cache.offer? pass key with
    | some entry =>
      unfold RenderCache.offer? at hoffer
      obtain ⟨-, hget⟩ := Option.ite_none_right_eq_some.mp hoffer
      exact .hit hget .nil
    | none =>
      refine (ih s).append ?_
      cases (result render s).1 with
      | error e => exact .nil
      | ok rendered =>
        show Served _ (if (s.cache.usable pass && rendered.cacheable) = true then _ else _)
        split
        next => exact .kept .nil
        next => exact .nil

end Traced

end PageBlocks
