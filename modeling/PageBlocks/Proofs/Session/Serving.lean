import PageBlocks.Proofs.Session.Actions
import PageBlocks.Proofs.Session.Files
import PageBlocks.Proofs.Session.Recorded

/-!
# Builders that serve what they may

Two hashes watch over renderings: that of the published schema over what is
kept in the cache, that of the schema recorded last over what is stored. A
`Serving` builder has both tied to the log, and the two agree.

They agree because compiling moves both together, and because the schema that a
start falls back to has the hash it was recorded under.

> `Tied.start`: a builder that starts on a tied store is serving.
>
> `Serving.compile`, `Serving.reload`, `Serving.saveCache`, ...: it stays so
> through whatever it does.
-/

namespace PageBlocks.Builder

open Stateful Acting

/-- The hash of the published schema. -/
def hash? (b : Builder) : Option String := b.published.map (·.sourceHash)

/-- A builder whose kept renderings are known under the hash of what is published, and the stored
ones under that of what was recorded last. -/
structure Tied (log : List Stamped) (b : Builder) : Prop where
  cache : Known log b.hash? b.cache.entries
  store : b.store.Tied log

/-- A tied builder of a data directory, publishing what was recorded last. -/
structure Serving (root : String) (log : List Stamped) (b : Builder) : Prop extends
    Tied log b where
  home : b.root = some root
  published : b.hash?.isSome
  current : b.store.lastHash? = b.hash?

variable {root : String} {log log' : List Stamped} {b : Builder}

theorem Serving.mono (h : b.Serving root log) (hlog : log ⊆ log') : b.Serving root log' where
  cache := h.cache.mono hlog
  store := h.store.mono hlog
  home := h.home
  published := h.published
  current := h.current

/-! ## Compiling -/

/-- What is kept after a schema is compiled was kept under its hash. -/
theorem Tied.withSchema (h : b.Tied log) (now : Instant) (schema : CompiledSchema) :
    (b.withSchema now schema).Tied log where
  cache := by
    show Known log (some schema.sourceHash)
      (if b.changes schema = true then b.cache.clear else b.cache).entries
    have hcache := h.cache
    unfold hash? at hcache
    unfold changes
    cases hpublished : b.published with
    | none =>
      rw [hpublished] at hcache
      exact hcache.of_none
    | some before =>
      rw [hpublished] at hcache
      show Known log _ (if (before.sourceHash != schema.sourceHash) = true then _ else _ :
        RenderCache).entries
      -- Either the hash stays and so do the renderings, or nothing is kept.
      by_cases hsame : before.sourceHash = schema.sourceHash
      · rw [if_neg (by rw [hsame, bne_self_eq_false]; exact Bool.false_ne_true), ← hsame]
        exact hcache
      · rw [if_pos (bne_iff_ne.mpr hsame)]
        exact known_empty
  store := h.store.recorded schema now

theorem Tied.serving_withSchema (h : b.Tied log) (hhome : b.root = some root) (now : Instant)
    (schema : CompiledSchema) : (b.withSchema now schema).Serving root log where
  toTied := h.withSchema now schema
  home := hhome
  published := rfl
  current := b.store.lastHash?_recorded schema now

theorem Serving.compile (h : b.Serving root log) (now : Instant) :
    (result (compile now) b).2.Serving root log := by
  rcases compile_cases b now with ⟨schema, -, -, hcompile⟩ | ⟨-, e, hcompile⟩
  · rw [hcompile]
    exact h.toTied.serving_withSchema h.home now schema
  · rw [hcompile]
    exact h

theorem Serving.setDefinitions (h : b.Serving root log) (definitions : Definitions)
    (now : Instant) : (result (setDefinitions definitions now) b).2.Serving root log := by
  have hset : Serving root log { b with definitions := definitions } :=
    ⟨⟨h.cache, h.store⟩, h.home, h.published, h.current⟩
  rw [setDefinitions_eq]
  exact hset.compile now

theorem Serving.reload (h : b.Serving root log) (files : FileTree) (now : Instant) :
    (result (reload files now) b).2.Serving root log := by
  rcases reload_cases b now files with ⟨definitions, -, hreload⟩ | ⟨-, e, hreload⟩
  · rw [hreload]
    exact h.setDefinitions definitions now
  · rw [hreload]
    exact h

/-! ## Upkeep -/

theorem Serving.saveCache (h : b.Serving root log) :
    (result saveCache b).2.Serving root log := by
  rcases saveCache_cases b with ⟨store, hreplace, hsave⟩ | ⟨e, hsave⟩
  · rw [hsave]
    -- What is stored under the hash recorded last was kept under the published one.
    have hknown : Known log b.store.lastHash? b.cache.entries := by
      rw [h.current]
      exact h.cache
    obtain ⟨htied, hlast⟩ := h.store.replaced hknown hreplace
    exact ⟨⟨h.cache, htied⟩, h.home, h.published, hlast.trans h.current⟩
  · rw [hsave]
    exact h

theorem Serving.clearCache (h : b.Serving root log) :
    (result clearCache b).2.Serving root log := by
  rcases clearCache_cases b with hclear | hclear
  · rw [hclear]
    exact ⟨⟨known_empty, h.store.clear⟩, h.home, h.published, h.current⟩
  · rw [hclear]
    exact ⟨⟨known_empty, h.store⟩, h.home, h.published, h.current⟩

theorem Serving.seeFiles (h : b.Serving root log) (files : FileTree) :
    (b.seeFiles files).Serving root log := by
  obtain ⟨access, hsees⟩ := seeFiles_eq b files
  rw [hsees]
  exact ⟨⟨h.cache, h.store⟩, h.home, h.published, h.current⟩

/-! ## Rendering -/

/-- A rendering keeps the log fresh, and its builder serving. -/
theorem Serving.rendered (h : b.Serving root log) (hlog : Fresh log) {σ α : Type}
    {r : Rendering σ α} {trace : RenderState σ → List CacheEvent} (htraced : Traced r trace)
    (host : σ) :
    Fresh (log ++ (trace ⟨b.cache, host⟩).map (Stamped.mk b.hash?)) ∧
      Serving root (log ++ (trace ⟨b.cache, host⟩).map (Stamped.mk b.hash?))
        { b with cache := (result r ⟨b.cache, host⟩).2.cache } := by
  have hserved : Served b.cache.entries (trace ⟨b.cache, host⟩) := htraced.served ⟨b.cache, host⟩
  obtain ⟨hfresh, hknown⟩ := hlog.append_served hserved h.published h.cache
  have hrest := h.mono (List.subset_append_left log
    ((trace ⟨b.cache, host⟩).map (Stamped.mk b.hash?)))
  refine ⟨hfresh, ⟨?_, hrest.store⟩, h.home, h.published, h.current⟩
  rw [htraced.entries]
  exact hknown

/-! ## Starting -/

/-- Loading stored renderings leaves a serving builder serving. -/
theorem Serving.loadCache (h : b.Serving root log) :
    (result loadCache b).2.Serving root log := by
  rcases loadCache_cases b with ⟨stored, hstored, hload⟩ | ⟨e, hload⟩
  · rw [hload]
    have hknown := h.store.known_renderings hstored
    rw [h.current] at hknown
    -- Of what is stored only the keys are taken up that the cache does not hold yet.
    have hall : ∀ e ∈ stored.filter fun e => !b.cache.entries.contains e.1,
        b.hash?.isSome ∧ ⟨b.hash?, .kept e.1 e.2⟩ ∈ log :=
      fun e he => hknown e (List.mem_filter.mp he).1
    exact ⟨⟨h.cache.foldl_insert hall, h.store⟩, h.home, h.published, h.current⟩
  · rw [hload]
    exact h

/-- A builder that boots serves, and one that does not is left as it is. -/
theorem Tied.boot (h : b.Tied log) (hhome : b.root = some root) (hnone : b.published = none)
    (now : Instant) :
    (∃ b', result (boot now) b = (.ok (), b') ∧ b'.Serving root log) ∨
      ∃ e, result (boot now) b = (.error e, b) := by
  rcases boot_cases b now with ⟨schema, -, hboot⟩ | ⟨record, schema, hlast, hread, hboot⟩ | hboot
  · exact .inl ⟨_, hboot, h.serving_withSchema hhome now schema⟩
  · -- The schema has been recorded with its own hash and its own text.
    obtain ⟨recorded, hhash, htext⟩ := h.store.history record (List.mem_of_getLast? hlast)
    have hsame : schema.sourceHash = record.hash := by
      rw [hhash]
      exact sourceHash_of_readRecord htext hread
    have hcache : Known log none b.cache.entries := by
      have hcache := h.cache
      unfold hash? at hcache
      rw [hnone] at hcache
      exact hcache
    refine .inl ⟨_, hboot, ⟨hcache.of_none, h.store⟩, hhome, rfl, ?_⟩
    show b.store.last?.map (·.hash) = some schema.sourceHash
    rw [hlast, hsame]
    rfl
  · exact .inr hboot

theorem start_value (b : Builder) (action : Acting Unit) :
    (start b action).value =
      ((result action b).1.map fun _ => (result action b).2, (result action b).2.store) := rfl

/-- A start gives the builder that it leaves behind, or none, and the store of that builder. -/
theorem start_eq {action : Acting Unit} {started : Except Error Builder} {after : Store}
    (hstart : (start b action).value = (started, after)) :
    after = (result action b).2.store ∧ ∀ b', started = .ok b' → b' = (result action b).2 := by
  rw [start_value] at hstart
  cases hstart
  refine ⟨rfl, fun b' hb' => ?_⟩
  cases hresult : (result action b).1 with
  | error e =>
    rw [hresult] at hb'
    cases hb'
  | ok u =>
    rw [hresult] at hb'
    cases hb'
    rfl

/-- A builder that starts on a tied store serves, and leaves it tied whether it starts or not. -/
theorem start_serving {store : Store} (h : store.Tied log) (resources : Resources)
    (definitions : Definitions) (now : Instant) {started : Except Error Builder} {after : Store}
    (hstart : (start (assemble (some root) resources definitions store) do
      boot now
      loadCache).value = (started, after)) :
    after.Tied log ∧ ∀ b, started = .ok b → b.Serving root log := by
  have htied : (assemble (some root) resources definitions store).Tied log := ⟨known_empty, h⟩
  rcases htied.boot rfl rfl now with ⟨b', hboot, hserving⟩ | ⟨e, hboot⟩
  · obtain ⟨rfl, hstarted⟩ := start_eq hstart
    rw [result_bind_ok hboot] at hstarted ⊢
    have hloaded : (result loadCache b').2.Serving root log := hserving.loadCache
    exact ⟨hloaded.store, fun b hb => hstarted b hb ▸ hloaded⟩
  · rw [start_value, result_bind_error hboot] at hstart
    cases hstart
    exact ⟨h, fun b hb => nomatch hb⟩

/-! ## Files -/

/-- The system store of a data directory, if there is one, satisfies a predicate. -/
def StoreHas (root : String) (Q : Store → Prop) (files : FileTree) : Prop :=
  ∀ store, files.node? (storePath root) = some (.store store) → Q store

variable {files : FileTree}

section StoreHas

variable {Q : Store → Prop}

theorem StoreHas.withStore (h : StoreHas root Q files) {store : Store} (hstore : Q store) :
    StoreHas root Q (withStore root store files) := by
  unfold Builder.withStore
  split
  next files' hput =>
    intro found hfound
    rw [FileTree.node?_put hput] at hfound
    cases hfound
    exact hstore
  next => exact h

theorem StoreHas.keepStore (h : StoreHas root Q files)
    (hhome : ∀ dir, b.root = some dir → dir = root) (hb : Q b.store) :
    StoreHas root Q (b.keepStore files) := by
  unfold Builder.keepStore
  split
  next _ _ dir hroot _ =>
    obtain rfl := hhome dir hroot
    exact h.withStore hb
  next => exact h

/-- The store that a directory is opened with is the one it has, or empty. -/
theorem StoreHas.openStore (h : StoreHas root Q files) (hempty : Q .empty) {store : Store}
    (hopen : openStore files root = .ok store) : Q store := by
  unfold Builder.openStore at hopen
  dsimp only at hopen
  split at hopen
  next =>
    cases hopen
    exact hempty
  next hnode =>
    cases hopen
    exact h store hnode
  next =>
    split at hopen
    next =>
      cases hopen
      exact hempty
    next => cases hopen
  next => cases hopen
  next => cases hopen

end StoreHas

/-- A directory that can be opened is started on its store, which is put back. -/
theorem ofDirectory_value (files : FileTree) (root : String) (resources : Resources)
    (now : Instant) :
    (ofDirectory files root resources now).value =
      match (openDefinitions files root).run.value, openStore files root with
      | .ok definitions, .ok store =>
        let started := (start (assemble (some root) resources definitions store) do
          boot now
          loadCache).value
        { result := started.1, files := withStore root started.2 files }
      | .error error, _ => { result := .error error, files := files }
      | .ok _, .error error => { result := .error error, files := files } := by
  have hbind : ∀ {α β : Type} (x : Noted α) (f : α → Noted β),
      (x >>= f).value = (f x.value).value := fun _ _ => rfl
  have houtcome : (openDefinitions files root).outcome.value =
      (openDefinitions files root).run.value := rfl
  unfold Builder.ofDirectory
  rw [hbind, houtcome]
  cases (openDefinitions files root).run.value with
  | error e => rfl
  | ok definitions =>
    dsimp only
    cases Builder.openStore files root with
    | error e => rfl
    | ok store => rfl

/-- A builder of definitions alone is started on an empty store. -/
theorem ofDefinitions_value (definitions : Definitions) (resources : Resources)
    (now : Instant) :
    (ofDefinitions definitions resources now).run.value =
      (start (assemble none resources definitions .empty) (boot now)).value.1 := by
  unfold ofDefinitions
  rw [ExceptT.run_bind]
  show (ofExcept _ : Attempt Builder).run.value = _
  cases (start (assemble none resources definitions .empty) (boot now)).value.1 with
  | ok b => rfl
  | error e => rfl

/-- What holds of the store through every start holds of it when the directory has been opened,
and what a start makes of a builder holds of the opened one. -/
theorem StoreHas.ofDirectory {Q : Store → Prop} {R : Builder → Prop} (h : StoreHas root Q files)
    (hempty : Q .empty) (resources : Resources) (now : Instant)
    (hstart : ∀ definitions store, Q store → ∀ started after,
      (start (assemble (some root) resources definitions store) do
        boot now
        loadCache).value = (started, after) → Q after ∧ ∀ b, started = .ok b → R b) :
    StoreHas root Q (ofDirectory files root resources now).value.files ∧
      ∀ b, (ofDirectory files root resources now).value.result = .ok b → R b := by
  rw [ofDirectory_value]
  split
  next definitions store _ hopen =>
    have hstore : Q store := h.openStore hempty hopen
    obtain ⟨hafter, hstarted⟩ := hstart definitions store hstore _ _ rfl
    exact ⟨h.withStore hafter, hstarted⟩
  next => exact ⟨h, fun b hb => nomatch hb⟩
  next => exact ⟨h, fun b hb => nomatch hb⟩

/-- Files whose system store, if there is one, is tied to the log. -/
def FilesTied (root : String) (log : List Stamped) (files : FileTree) : Prop :=
  ∀ store, files.node? (storePath root) = some (.store store) → store.Tied log

theorem FilesTied.keepStore (h : FilesTied root log files) (hb : b.Serving root log) :
    FilesTied root log (b.keepStore files) := by
  refine StoreHas.keepStore h (fun dir hdir => ?_) hb.store
  rw [hb.home] at hdir
  exact (Option.some.inj hdir).symm

/-- A directory with a tied store still has one when it has been opened, and a builder of it
serves. -/
theorem FilesTied.ofDirectory (h : FilesTied root log files) (resources : Resources)
    (now : Instant) :
    FilesTied root log (ofDirectory files root resources now).value.files ∧
      ∀ b, (ofDirectory files root resources now).value.result = .ok b →
        b.Serving root log :=
  StoreHas.ofDirectory h Store.tied_empty resources now fun definitions _ hstore _ _ hstart =>
    start_serving hstore resources definitions now hstart

end PageBlocks.Builder
