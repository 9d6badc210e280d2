import PageBlocks.Proofs.Entries
import PageBlocks.Proofs.Render.Pure
import PageBlocks.Proofs.Render.Trace

/-!
# Rendered once

A cache is asked for units, in passes that use it and in passes that bust it, and
is told to drop some of what it keeps. What rendering a unit would give may be
anything; that it is rendered at all is counted by the host (`counting`).

> `CallLaw`: what a single call does. The unit is rendered unless the cache may
> be used and has it; it is added where the cache may be used, has no such unit
> and may keep the rendering, and nothing else happens to the cache;
>
> `rendered_once`: so as long as nothing drops a unit, it is rendered for the
> cache at most once, and what was rendered then is given out from there on.

The invariant is that the unit is kept (`CacheStep.keeps_run`). Busting passes
and failures leave it alone, since neither is allowed to write.
-/

namespace PageBlocks

open Stateful

theorem Dict.get?_erase_of_ne {α : Type} {d : Dict α} {key other : String} {v : α}
    (hne : other ≠ key) (h : d.get? other = some v) : (d.erase key).get? other = some v := by
  have hmem : (other, v) ∈ Entries.erase key d.entries :=
    List.mem_filter.mpr ⟨mem_entries_iff.mpr h, by simpa using hne⟩
  exact mem_entries_iff.mp hmem

/-- What a cache is asked for or told. -/
inductive CacheStep where
  /-- A unit is asked for in a pass at some time; rendering it would give an outcome. -/
  | call (now : Instant) (pass : RenderPass) (key : CacheKey) (outcome : Except Error Rendered)
  | invalidate (key : CacheKey)
  | clear

/-- A rendering with an outcome, which the host counts. -/
def counting (outcome : Except Error Rendered) : Rendering Nat Rendered := do
  ExceptT.lift (modify fun s => { s with host := s.host + 1 })
  ExceptT.mk (pure outcome)

theorem result_counting (outcome : Except Error Rendered) (s : RenderState Nat) :
    result (counting outcome) s = (outcome, { s with host := s.host + 1 }) := by
  unfold counting
  rw [result_bind_ok (a := ()) (t := { s with host := s.host + 1 }) rfl]
  rfl

namespace CacheStep

/-- What a step gives, where it asks for something, and what it leaves. -/
def run (step : CacheStep) (s : RenderState Nat) :
    Option (Except Error Rendered) × RenderState Nat :=
  match step with
  | .call now pass key outcome =>
    let given := result (getOrRender now pass key (counting outcome)) s
    (some given.1, given.2)
  | .invalidate key => (none, { s with cache := s.cache.invalidate key })
  | .clear => (none, { s with cache := s.cache.clear })

/-- What some steps leave, one after the other. -/
def after (s : RenderState Nat) (steps : List CacheStep) : RenderState Nat :=
  steps.foldl (fun s step => (step.run s).2) s

/-- Whether a step drops what is kept under a text. -/
def Drops (composite : String) : CacheStep → Prop
  | .call .. => False
  | .invalidate key => key.composite = composite
  | .clear => True

/-- Whether a step asks for a unit in a pass that does not bust the cache, and the unit is rendered
to something that may be kept. -/
def isFresh (composite : String) (s : RenderState Nat) (step : CacheStep) : Bool :=
  match step with
  | .call _ pass key outcome =>
    !pass.busting && key.composite == composite && (step.run s).2.host != s.host &&
      outcome.toOption.any (·.cacheable)
  | _ => false

/-- How many of some steps are fresh, one after the other. -/
def freshSteps (composite : String) : RenderState Nat → List CacheStep → Nat
  | _, [] => 0
  | s, step :: rest =>
    (if step.isFresh composite s then 1 else 0) + freshSteps composite (step.run s).2 rest

end CacheStep

/-! ## One call -/

/-- What a call for a unit gives and leaves. -/
structure CallLaw (now : Instant) (pass : RenderPass) (key : CacheKey)
    (outcome : Except Error Rendered) (s : RenderState Nat)
    (given : Option (Except Error Rendered)) (t : RenderState Nat) : Prop where
  /-- The unit is rendered, once, and given out as it is; a placeholder stands for a template that
  is missing. -/
  rendered : s.cache.enabled = false ∨ pass.busting = true ∨ s.cache.get? key = none →
    t.host = s.host + 1 ∧ given = some (settled outcome)
  /-- In all other cases the unit is there already, and nothing happens. -/
  offered : ¬(s.cache.enabled = false ∨ pass.busting = true ∨ s.cache.get? key = none) →
    ∃ entry, s.cache.get? key = some entry ∧ t = s ∧
      given = some (.ok { output := s.cache.mark key.composite entry })
  kept : s.cache.enabled = true → pass.busting = false → s.cache.get? key = none →
    ∀ r, outcome = .ok r → r.cacheable = true →
      t.cache = s.cache.keep key { output := r.output, storedAt := now }
  /-- Nothing else is ever added or changed. -/
  unchanged : t.cache = s.cache ∨
    (s.cache.enabled = true ∧ pass.busting = false ∧ s.cache.get? key = none ∧
      ∃ r, outcome = .ok r ∧ r.cacheable = true)

section Call

variable {now : Instant} {pass : RenderPass} {key : CacheKey} {outcome : Except Error Rendered}
  {s : RenderState Nat}

theorem RenderCache.offer?_eq_none_iff {cache : RenderCache} :
    cache.offer? pass key = none ↔
      cache.enabled = false ∨ pass.busting = true ∨ cache.get? key = none := by
  unfold offer? usable
  cases cache.enabled with
  | false => simp
  | true => cases pass.busting <;> simp

theorem RenderCache.offer?_eq_some_iff {cache : RenderCache} {entry : CacheEntry} :
    cache.offer? pass key = some entry ↔
      cache.enabled = true ∧ pass.busting = false ∧ cache.get? key = some entry := by
  unfold offer? usable
  cases cache.enabled with
  | false => simp
  | true => cases pass.busting <;> simp

theorem run_offered {entry : CacheEntry} (h : s.cache.offer? pass key = some entry) :
    (CacheStep.call now pass key outcome).run s =
      (some (.ok { output := s.cache.mark key.composite entry }), s) := by
  rw [CacheStep.run, result_getOrRender_offered h]

/-- A unit that is rendered is given out, and kept where the pass uses the cache and the rendering
may be kept. -/
theorem run_rendered (h : s.cache.offer? pass key = none) :
    (CacheStep.call now pass key outcome).run s =
      (some (settled outcome),
        { cache :=
            match outcome with
            | .ok r =>
              if s.cache.usable pass && r.cacheable then
                s.cache.keep key { output := r.output, storedAt := now }
              else s.cache
            | .error _ => s.cache
          host := s.host + 1 }) := by
  rw [CacheStep.run, result_getOrRender_rendered h, result_counting]
  cases outcome with
  | ok r =>
    dsimp only
    split <;> rfl
  | error e => cases e <;> rfl

/-- Every call keeps to the law. -/
theorem callLaw (now : Instant) (pass : RenderPass) (key : CacheKey)
    (outcome : Except Error Rendered) (s : RenderState Nat) :
    CallLaw now pass key outcome s ((CacheStep.call now pass key outcome).run s).1
      ((CacheStep.call now pass key outcome).run s).2 := by
  cases hoffer : s.cache.offer? pass key with
  | some entry =>
    obtain ⟨henabled, hbusting, hget⟩ := RenderCache.offer?_eq_some_iff.mp hoffer
    have hnot : ¬(s.cache.enabled = false ∨ pass.busting = true ∨ s.cache.get? key = none) := by
      rw [henabled, hbusting, hget]
      simp
    rw [run_offered hoffer]
    exact {
      rendered := fun hrendered => absurd hrendered hnot
      offered := fun _ => ⟨entry, hget, rfl, rfl⟩
      kept := fun _ _ hnone => absurd (hget.symm.trans hnone) nofun
      unchanged := .inl rfl }
  | none =>
    have hcause := RenderCache.offer?_eq_none_iff.mp hoffer
    rw [run_rendered hoffer]
    refine
      { rendered := fun _ => ⟨rfl, rfl⟩
        offered := fun hnot => absurd hcause hnot
        kept := fun henabled hbusting _ r hr hcacheable => ?_
        unchanged := ?_ }
    · subst hr
      simp [RenderCache.usable, henabled, hbusting, hcacheable]
    · cases outcome with
      | error e => exact .inl rfl
      | ok r =>
        by_cases hkeep : (s.cache.usable pass && r.cacheable) = true
        · obtain ⟨husable, hcacheable⟩ := Bool.and_eq_true_iff.mp hkeep
          obtain ⟨henabled, hbusting⟩ := Bool.and_eq_true_iff.mp husable
          have hno : pass.busting = false := by simpa using hbusting
          have hnone : s.cache.get? key = none := by
            rw [RenderCache.offer?, if_pos husable] at hoffer
            exact hoffer
          exact .inr ⟨henabled, hno, hnone, r, rfl, hcacheable⟩
        · exact .inl (if_neg hkeep)

end Call

/-! ## Steps one after the other -/

namespace CacheStep

variable {composite : String} {entry : CacheEntry} {s : RenderState Nat} {step : CacheStep}

/-- A step changes what is kept, never how the cache is set. -/
theorem run_setup (step : CacheStep) (s : RenderState Nat) :
    (step.run s).2.cache.enabled = s.cache.enabled ∧
      (step.run s).2.cache.markers = s.cache.markers := by
  cases step with
  | invalidate => exact ⟨rfl, rfl⟩
  | clear => exact ⟨rfl, rfl⟩
  | call now pass key outcome =>
    have hlaw := callLaw now pass key outcome s
    rcases hlaw.unchanged with hsame | ⟨henabled, hbusting, hnone, r, hr, hcacheable⟩
    · rw [hsame]
      exact ⟨rfl, rfl⟩
    · rw [hlaw.kept henabled hbusting hnone r hr hcacheable]
      exact ⟨rfl, rfl⟩

theorem after_setup (s : RenderState Nat) (steps : List CacheStep) :
    (after s steps).cache.enabled = s.cache.enabled ∧
      (after s steps).cache.markers = s.cache.markers := by
  induction steps generalizing s with
  | nil => exact ⟨rfl, rfl⟩
  | cons step rest ih =>
    obtain ⟨henabled, hmarkers⟩ := run_setup step s
    obtain ⟨henabled', hmarkers'⟩ := ih (step.run s).2
    exact ⟨henabled'.trans henabled, hmarkers'.trans hmarkers⟩

/-- What is kept stays as it is through every step that does not drop it. -/
theorem keeps_run (hkept : s.cache.entries.get? composite = some entry)
    (hdrops : ¬step.Drops composite) :
    (step.run s).2.cache.entries.get? composite = some entry := by
  cases step with
  | invalidate key => exact Dict.get?_erase_of_ne (fun h => hdrops h.symm) hkept
  | clear => exact absurd trivial hdrops
  | call now pass key outcome =>
    have hlaw := callLaw now pass key outcome s
    rcases hlaw.unchanged with hsame | ⟨henabled, hbusting, hnone, r, hr, hcacheable⟩
    · rw [hsame]
      exact hkept
    · -- What is added was not there, so it is another unit.
      have hother : key.composite ≠ composite := by
        intro hsame
        rw [RenderCache.get?, hsame, hkept] at hnone
        cases hnone
      rw [hlaw.kept henabled hbusting hnone r hr hcacheable, RenderCache.keep, Dict.get?_insert,
        if_neg hother]
      exact hkept

theorem keeps_after {steps : List CacheStep}
    (hkept : s.cache.entries.get? composite = some entry)
    (hdrops : ∀ step ∈ steps, ¬step.Drops composite) :
    (after s steps).cache.entries.get? composite = some entry := by
  induction steps generalizing s with
  | nil => exact hkept
  | cons step rest ih =>
    have hnext := keeps_run hkept (hdrops step (List.mem_cons_self ..))
    exact ih hnext fun step' hstep' => hdrops step' (List.mem_cons_of_mem _ hstep')

/-- A fresh step is a call whose rendering is kept. -/
theorem isFresh_kept (henabled : s.cache.enabled = true)
    (hfresh : step.isFresh composite s = true) :
    ∃ now pass key r, step = .call now pass key (.ok r) ∧ key.composite = composite ∧
      (step.run s).2.cache.entries.get? composite =
        some { output := r.output, storedAt := now } := by
  cases step with
  | invalidate => cases hfresh
  | clear => cases hfresh
  | call now pass key outcome =>
    simp only [isFresh, Bool.and_eq_true, Bool.not_eq_true', beq_iff_eq, bne_iff_ne] at hfresh
    obtain ⟨⟨⟨hbusting, rfl⟩, hran⟩, hcacheable⟩ := hfresh
    have hlaw := callLaw now pass key outcome s
    cases outcome with
    | error e => cases hcacheable
    | ok r =>
      have hnone : s.cache.get? key = none := by
        by_contra hsome
        obtain ⟨entry, -, hsame, -⟩ := hlaw.offered (by simp [henabled, hbusting, hsome])
        exact hran (congrArg RenderState.host hsame)
      refine ⟨now, pass, key, r, rfl, rfl, ?_⟩
      rw [hlaw.kept henabled hbusting hnone r rfl hcacheable, RenderCache.keep, Dict.get?_insert,
        if_pos rfl]

/-- Where a unit is kept, a call for it that does not bust the cache is given it, and changes
nothing. -/
theorem run_kept {now : Instant} {pass : RenderPass} {key : CacheKey}
    {outcome : Except Error Rendered} (henabled : s.cache.enabled = true)
    (hbusting : pass.busting = false)
    (hkept : s.cache.entries.get? key.composite = some entry) :
    (call now pass key outcome).run s =
      (some (.ok { output := s.cache.mark key.composite entry }), s) :=
  run_offered (RenderCache.offer?_eq_some_iff.mpr ⟨henabled, hbusting, hkept⟩)

theorem isFresh_eq_false (henabled : s.cache.enabled = true)
    (hkept : s.cache.entries.get? composite = some entry) : step.isFresh composite s = false := by
  cases step with
  | invalidate => rfl
  | clear => rfl
  | call now pass key outcome =>
    by_cases hcall : pass.busting = false ∧ key.composite = composite
    · obtain ⟨hbusting, rfl⟩ := hcall
      rw [isFresh, run_kept henabled hbusting hkept]
      simp
    · rw [isFresh]
      by_contra hfresh
      simp only [Bool.not_eq_false, Bool.and_eq_true, Bool.not_eq_true', beq_iff_eq] at hfresh
      exact hcall hfresh.1.1

/-- Where a unit is kept, no step is fresh until it is dropped. -/
theorem freshSteps_kept {steps : List CacheStep} (henabled : s.cache.enabled = true)
    (hkept : s.cache.entries.get? composite = some entry)
    (hdrops : ∀ step ∈ steps, ¬step.Drops composite) : freshSteps composite s steps = 0 := by
  induction steps generalizing s with
  | nil => rfl
  | cons step rest ih =>
    have hstep : step.isFresh composite s = false := isFresh_eq_false henabled hkept
    have hnext := keeps_run hkept (hdrops step (List.mem_cons_self ..))
    have hrest := ih ((run_setup step s).1.trans henabled) hnext
      fun step' hstep' => hdrops step' (List.mem_cons_of_mem _ hstep')
    rw [freshSteps, hstep, hrest]
    rfl

/-- Until something drops a unit, at most one step is fresh. -/
theorem freshSteps_le_one {steps : List CacheStep} (henabled : s.cache.enabled = true)
    (hdrops : ∀ step ∈ steps, ¬step.Drops composite) : freshSteps composite s steps ≤ 1 := by
  induction steps generalizing s with
  | nil => exact Nat.zero_le 1
  | cons step rest ih =>
    have henabled' := (run_setup step s).1.trans henabled
    have hdrops' : ∀ step' ∈ rest, ¬step'.Drops composite :=
      fun step' hstep' => hdrops step' (List.mem_cons_of_mem _ hstep')
    rw [freshSteps]
    by_cases hfresh : step.isFresh composite s = true
    · obtain ⟨now, pass, key, r, -, -, hkept⟩ := isFresh_kept henabled hfresh
      have hrest := freshSteps_kept henabled' hkept hdrops'
      simp [hfresh, hrest]
    · rw [if_neg hfresh, Nat.zero_add]
      exact ih henabled' hdrops'

theorem after_append (s : RenderState Nat) (steps steps' : List CacheStep) :
    after s (steps ++ steps') = after (after s steps) steps' := List.foldl_append

end CacheStep

open CacheStep in
/-- Every call keeps to the law of a call. From whatever state a cache that is enabled is taken
through steps none of which drops a unit, at most one call that does not bust the cache renders the
unit to something that may be kept; every later call of that kind is given what was rendered then,
marked as the cache is set, and renders nothing. -/
theorem rendered_once (s : RenderState Nat) :
    (∀ now pass key outcome, CallLaw now pass key outcome s
      ((call now pass key outcome).run s).1 ((call now pass key outcome).run s).2) ∧
      (s.cache.enabled = true → ∀ before composite segment,
        (∀ step ∈ segment, ¬Drops composite step) →
        freshSteps composite (after s before) segment ≤ 1) ∧
      (s.cache.enabled = true → ∀ before now pass key r between,
        (call now pass key (.ok r)).isFresh key.composite (after s before) = true →
        (∀ step ∈ between, ¬Drops key.composite step) →
        ∀ now' pass' key' outcome', pass'.busting = false → key'.composite = key.composite →
          (call now' pass' key' outcome').run
              (after s (before ++ call now pass key (.ok r) :: between)) =
            (some (.ok
                { output := s.cache.mark key.composite { output := r.output, storedAt := now } }),
              after s (before ++ call now pass key (.ok r) :: between))) := by
  refine ⟨fun now pass key outcome => callLaw now pass key outcome s, ?_, ?_⟩
  · intro henabled before composite segment hdrops
    exact freshSteps_le_one ((after_setup s before).1.trans henabled) hdrops
  · intro henabled before now pass key r between hfresh hdrops
      now' pass' key' outcome' hbusting hkey
    obtain ⟨now₁, pass₁, key₁, r₁, hcall, -, hkept⟩ :=
      isFresh_kept ((after_setup s before).1.trans henabled) hfresh
    cases hcall
    have hlater : (after s (before ++ call now pass key (.ok r) :: between)).cache.entries.get?
        key'.composite = some { output := r.output, storedAt := now } := by
      rw [after_append, hkey]
      exact keeps_after (s := ((call now pass key (.ok r)).run (after s before)).2) hkept hdrops
    obtain ⟨henabled', hmarkers⟩ :=
      after_setup s (before ++ call now pass key (.ok r) :: between)
    rw [run_kept (henabled'.trans henabled) hbusting hlater, hkey]
    simp only [RenderCache.mark, hmarkers]

/-- A page that fails, is rendered, and is rendered again for a pass that busts the cache. -/
def pageSteps : List CacheStep :=
  let page := CacheKey.ofLayout "1" "page"
  [.call default {} page (.error (.render "down")),
    .call default {} page (.ok { output := "first" }),
    .call default { busting := true } page (.ok { output := "second" })]

/-- The page is rendered for the cache once, and the last call is given that rendering. -/
theorem page_once :
    CacheStep.freshSteps "1|page|page" { cache := {}, host := 0 } pageSteps = 1 ∧
      ((CacheStep.call default {} (.ofLayout "1" "page") (.ok { output := "third" })).run
        (CacheStep.after { cache := {}, host := 0 } pageSteps)).1 =
          some (.ok { output := RenderCache.mark {} "1|page|page" ⟨"first", default⟩ }) := by
  have hsteps : pageSteps = [.call default {} (.ofLayout "1" "page") (.error (.render "down"))] ++
      .call default {} (.ofLayout "1" "page") (.ok { output := "first" }) ::
        [.call default { busting := true } (.ofLayout "1" "page") (.ok { output := "second" })] :=
    rfl
  obtain ⟨-, honce, hlater⟩ := rendered_once { cache := {}, host := 0 }
  have hcalls : ∀ step ∈ pageSteps, ¬step.Drops "1|page|page" := by
    intro step hstep
    simp only [pageSteps, List.mem_cons, List.not_mem_nil, or_false] at hstep
    rcases hstep with rfl | rfl | rfl <;> exact id
  constructor
  · exact Nat.le_antisymm (honce rfl [] _ _ hcalls) (by decide)
  · rw [hsteps] at hcalls ⊢
    have hbetween := fun step hstep =>
      hcalls step (List.mem_append_right _ (List.mem_cons_of_mem _ hstep))
    rw [hlater rfl _ _ _ _ _ _ (by decide) hbetween _ _ _ _ rfl rfl]
    rfl

end PageBlocks
