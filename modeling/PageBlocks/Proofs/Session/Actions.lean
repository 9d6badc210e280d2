import PageBlocks.Proofs.Session.Log
import PageBlocks.Builder

/-!
# What the actions of a builder change

Each action either fails and leaves the builder as it is, or changes it in the
one way that is stated here. Later proofs use these cases alone.

> `write_then_clear`: a store that can be written is recorded in and cleared in one change.
>
> `compile_cases`: compiling publishes a schema, records it if another one was
> recorded last, and drops what is kept if another one was published.
>
> `boot_cases`: a builder that cannot compile publishes the schema recorded last.
-/

namespace PageBlocks

open Stateful

namespace Builder

open Acting

variable (b : Builder) (now : Instant)

theorem result_builder : result builder b = (.ok b, b) := rfl

theorem result_update (f : Builder → Builder) : result (update f) b = (.ok (), f b) := rfl

/-! ## The store -/

theorem readStore_ok (haccess : b.access ≠ .none) : result readStore b = (.ok b.store, b) := by
  unfold readStore
  rw [result_bind_ok (result_builder b), if_neg haccess]
  rfl

theorem readStore_error (haccess : b.access = .none) :
    ∃ e, result readStore b = (.error e, b) := by
  unfold readStore
  rw [result_bind_ok (result_builder b), if_pos haccess]
  exact ⟨_, rfl⟩

theorem readStore_cases :
    result readStore b = (.ok b.store, b) ∨ ∃ e, result readStore b = (.error e, b) := by
  by_cases haccess : b.access = .none
  · exact .inr (readStore_error b haccess)
  · exact .inl (readStore_ok b haccess)

theorem writeStore_ok (haccess : b.access = .full) (store : Store) :
    result (writeStore store) b = (.ok (), { b with store := store }) := by
  obtain ⟨root, resources, definitions, published, cache, before, access⟩ := b
  cases haccess
  rfl

theorem writeStore_error (haccess : b.access ≠ .full) (store : Store) :
    ∃ e, result (writeStore store) b = (.error e, b) := by
  obtain ⟨root, resources, definitions, published, cache, before, access⟩ := b
  cases access with
  | full => exact absurd rfl haccess
  | readOnly => exact ⟨_, rfl⟩
  | none => exact ⟨_, rfl⟩

theorem writeStore_cases (store : Store) :
    result (writeStore store) b = (.ok (), { b with store := store }) ∨
      ∃ e, result (writeStore store) b = (.error e, b) := by
  by_cases haccess : b.access = .full
  · exact .inl (writeStore_ok b haccess store)
  · exact .inr (writeStore_error b haccess store)

/-- Where the store can be written, writing it and then clearing the renderings in it is one
change. -/
theorem write_then_clear (haccess : b.access = .full) (store : Store) :
    result (do writeStore store; writeStore (← readStore).clear) b =
      (.ok (), { b with store := store.clear }) := by
  have hread : ({ b with store := store } : Builder).access ≠ .none := by
    show b.access ≠ .none
    rw [haccess]
    decide
  rw [result_bind_ok (writeStore_ok b haccess store), result_bind_ok (readStore_ok _ hread)]
  exact writeStore_ok { b with store := store } haccess store.clear

/-- Whether the store cannot record a schema: it cannot be read, or cannot be written and has
another schema recorded last. -/
def Refuses (hash : String) : Prop :=
  b.access = .none ∨ b.access = .readOnly ∧ b.store.lastHash? ≠ some hash

theorem recordSchema_cases (schema : CompiledSchema) :
    (¬b.Refuses schema.sourceHash ∧ result (recordSchema schema now) b =
        (.ok (), { b with store := b.store.recorded schema now })) ∨
      b.Refuses schema.sourceHash ∧ ∃ e, result (recordSchema schema now) b = (.error e, b) := by
  unfold recordSchema Store.recorded Refuses
  by_cases hnone : b.access = .none
  · obtain ⟨e, hread⟩ := readStore_error b hnone
    exact .inr ⟨.inl hnone, e, result_bind_error hread _⟩
  rw [result_bind_ok (readStore_ok b hnone)]
  by_cases hlast : b.store.lastHash? = some schema.sourceHash
  · have hsame : ¬b.store.last?.map (·.hash) ≠ some schema.sourceHash := fun h => h hlast
    rw [if_neg hsame, if_pos hlast]
    refine .inl ⟨?_, rfl⟩
    rintro (h | ⟨-, h⟩)
    · exact hnone h
    · exact h hlast
  · have hother : b.store.last?.map (·.hash) ≠ some schema.sourceHash := hlast
    rw [if_pos hother, if_neg hlast]
    by_cases hfull : b.access = .full
    · refine .inl ⟨?_, write_then_clear b hfull _⟩
      rintro (h | ⟨h, -⟩)
      · exact hnone h
      · cases hfull.symm.trans h
    · have hreadOnly : b.access = .readOnly := by
        cases haccess : b.access with
        | none => exact absurd haccess hnone
        | readOnly => rfl
        | full => exact absurd haccess hfull
      obtain ⟨e, hwrite⟩ := writeStore_error b hfull _
      exact .inr ⟨.inr ⟨hreadOnly, hlast⟩, e, result_bind_error hwrite _⟩

/-- Changes of the files leave a builder as it is, but for what its store still allows. -/
theorem seeFiles_eq (files : FileTree) :
    ∃ access, b.seeFiles files = { b with access := access } := by
  unfold seeFiles
  split
  next =>
    split
    next => exact ⟨b.access, rfl⟩
    next => exact ⟨.readOnly, rfl⟩
    next => exact ⟨.none, rfl⟩
  next => exact ⟨b.access, rfl⟩

/-! ## Compiling -/

/-- A builder that has compiled a schema. -/
def withSchema (schema : CompiledSchema) : Builder :=
  { b with
    store := b.store.recorded schema now
    cache := if b.changes schema then b.cache.clear else b.cache
    published := some schema }

/-- When some definitions are compiled is only told by the time in their schema. -/
theorem compiled_at (definitions : Definitions) (resources : Resources) (now now' : Instant) :
    (compiled definitions resources now').run.value =
      (compiled definitions resources now).run.value.map
        fun schema => { schema with compiledAt := now' } := by
  unfold compiled
  rw [Attempt.value_bind, Attempt.value_bind]
  cases (Registry.build definitions resources).run.value with
  | error e => rfl
  | ok registry =>
    unfold PageBlocks.compile
    simp only [Attempt.value_bind]
    cases (Attempt.noteAll ((Compile.fieldGroup registry).runOn .empty).notices).run.value with
    | error e => rfl
    | ok u =>
      cases ((Compile.fieldGroup registry).runOn .empty).result with
      | error e => rfl
      | ok group => rfl

/-- A builder whose definitions do not compile, or to a schema that its store cannot record. -/
def Stuck : Prop :=
  ∀ now schema, (compiled b.definitions b.resources now).run.value = .ok schema →
    b.Refuses schema.sourceHash

theorem compile_cases :
    (∃ schema, (compiled b.definitions b.resources now).run.value = .ok schema ∧
        ¬b.Refuses schema.sourceHash ∧
        result (compile now) b = (.ok schema, b.withSchema now schema)) ∨
      b.Stuck ∧ ∃ e, result (compile now) b = (.error e, b) := by
  unfold compile
  rw [result_bind_ok (result_builder b)]
  have houtcome : result (Acting.outcome (compiled b.definitions b.resources now)) b =
      (.ok (compiled b.definitions b.resources now).run.value, b) := rfl
  rw [result_bind_ok houtcome]
  cases hcompiled : (compiled b.definitions b.resources now).run.value with
  | error e =>
    have hstuck : b.Stuck := by
      intro now' schema hschema
      rw [compiled_at _ _ now now', hcompiled] at hschema
      cases hschema
    refine .inr ⟨hstuck, e, ?_⟩
    show result (if b.published.isSome = true then _ else _) b = _
    split
    next => rfl
    next => rfl
  | ok schema =>
    show (∃ schema', _ ∧ _ ∧ result (recordSchema schema now >>= _) b = _) ∨
      b.Stuck ∧ ∃ e, result (recordSchema schema now >>= _) b = _
    rcases recordSchema_cases b now schema with ⟨hfree, hrecord⟩ | ⟨hrefuses, e, hrecord⟩
    · rw [result_bind_ok hrecord]
      exact .inl ⟨schema, rfl, hfree, rfl⟩
    · have hstuck : b.Stuck := by
        intro now' schema' hschema
        rw [compiled_at _ _ now now', hcompiled] at hschema
        cases hschema
        exact hrefuses
      exact .inr ⟨hstuck, e, result_bind_error hrecord _⟩

theorem setDefinitions_eq (definitions : Definitions) :
    result (setDefinitions definitions now) b =
      result (compile now) { b with definitions := definitions } :=
  result_bind_ok rfl _

theorem requireRoot_cases :
    (∃ root, b.root = some root ∧ result requireRoot b = (.ok root, b)) ∨
      b.root = none ∧ ∃ e, result requireRoot b = (.error e, b) := by
  unfold requireRoot
  rw [result_bind_ok (result_builder b)]
  cases b.root with
  | none => exact .inr ⟨rfl, _, rfl⟩
  | some root => exact .inl ⟨root, rfl, rfl⟩

/-- The definitions that a builder loads from its directory, where it can. -/
def loaded? (files : FileTree) : Option Definitions :=
  b.root.bind fun root => (Definitions.load files (configPath root)).run.value.toOption

/-- Loading the definitions again sets them, unless they cannot be loaded. -/
theorem reload_cases (files : FileTree) :
    (∃ definitions, b.loaded? files = some definitions ∧
        result (reload files now) b = result (setDefinitions definitions now) b) ∨
      b.loaded? files = none ∧ ∃ e, result (reload files now) b = (.error e, b) := by
  unfold reload loaded?
  rcases requireRoot_cases b with ⟨root, hroot, hrequire⟩ | ⟨hroot, e, hrequire⟩
  · rw [result_bind_ok hrequire, hroot, Option.bind_some]
    have hload : result (Acting.ofAttempt (Definitions.load files (configPath root))) b =
        ((Definitions.load files (configPath root)).run.value, b) := rfl
    cases hvalue : (Definitions.load files (configPath root)).run.value with
    | error e =>
      rw [hvalue] at hload
      exact .inr ⟨rfl, e, result_bind_error hload _⟩
    | ok definitions =>
      rw [hvalue] at hload
      exact .inl ⟨definitions, rfl, result_bind_ok hload _⟩
  · rw [hroot]
    exact .inr ⟨rfl, e, result_bind_error hrequire _⟩

/-! ## Starting -/

theorem boot_cases :
    (∃ schema, (compiled b.definitions b.resources now).run.value = .ok schema ∧
        result (boot now) b = (.ok (), b.withSchema now schema)) ∨
      (∃ record schema, b.store.last? = some record ∧ readRecord record = .ok schema ∧
        result (boot now) b = (.ok (), { b with published := some schema })) ∨
      ∃ e, result (boot now) b = (.error e, b) := by
  have hrun : ∀ x t, result (compile now) b = (x, t) →
      result (ExceptT.lift (compile now).run : Acting _) b = (.ok x, t) := by
    intro x t h
    rw [result_lift]
    show (Except.ok (result (compile now) b).1, (result (compile now) b).2) = _
    rw [h]
  unfold boot
  rcases compile_cases b now with ⟨schema, hcompiled, -, hcompile⟩ | ⟨-, e, hcompile⟩
  · rw [result_bind_ok (hrun _ _ hcompile)]
    exact .inl ⟨schema, hcompiled, rfl⟩
  · rw [result_bind_ok (hrun _ _ hcompile)]
    refine .inr ?_
    show (∃ record schema, _ ∧ _ ∧ result (readStore >>= _) b = _) ∨
      ∃ e, result (readStore >>= _) b = _
    rcases readStore_cases b with hread | ⟨e', hread⟩
    · rw [result_bind_ok hread]
      cases hlast : b.store.last? with
      | none => exact .inr ⟨e, rfl⟩
      | some record =>
        cases hrecord : readRecord record with
        | error e' => exact .inr ⟨e', result_bind_error (result_ofExcept hrecord b) _⟩
        | ok schema =>
          refine .inl ⟨record, schema, rfl, hrecord, ?_⟩
          exact result_bind_ok (result_ofExcept hrecord b) _
    · exact .inr ⟨e', result_bind_error hread _⟩

theorem loadCache_cases :
    (∃ stored, b.store.renderings = .ok stored ∧
      result loadCache b = (.ok (), { b with cache := (b.cache.load stored).1 })) ∨
      ∃ e, result loadCache b = (.error e, b) := by
  unfold loadCache
  rcases readStore_cases b with hread | ⟨e, hread⟩
  · rw [result_bind_ok hread]
    cases hstored : b.store.renderings with
    | error e => exact .inr ⟨e, result_bind_error (result_ofExcept rfl b) _⟩
    | ok stored =>
      refine .inl ⟨stored, rfl, ?_⟩
      rw [result_bind_ok (result_ofExcept rfl b), result_bind_ok (result_builder b)]
      show result (do
        update fun b => { b with cache := (b.cache.load stored).1 }
        if 0 < (b.cache.load stored).2 then note (.cacheLoaded (b.cache.load stored).2)) b = _
      rw [result_bind_ok (result_update b _)]
      split
      next => rfl
      next => rfl
  · exact .inr ⟨e, result_bind_error hread _⟩

/-! ## Rendering -/

theorem schema_cases :
    (∃ schema, b.published = some schema ∧ result Builder.schema b = (.ok schema, b)) ∨
      b.published = none ∧ ∃ e, result Builder.schema b = (.error e, b) := by
  unfold Builder.schema
  rw [result_bind_ok (result_builder b)]
  cases hpublished : b.published with
  | none => exact .inr ⟨rfl, _, rfl⟩
  | some schema => exact .inl ⟨schema, rfl, rfl⟩

/-- What is rendered by the published index changes the cache; without one nothing is rendered. -/
theorem rendered_cases {σ α β : Type} (host : σ) (f : FlatIndex → Rendering σ α)
    (g : Except Error α × σ → β) :
    let state := (result (do
      let index := (← Builder.schema).index
      return g (← rendering host (f index))) b).2
    (∃ schema, b.published = some schema ∧
      state = { b with cache := (result (f schema.index) ⟨b.cache, host⟩).2.cache }) ∨
      b.published = none ∧ state = b := by
  rcases schema_cases b with ⟨schema, hpublished, hschema⟩ | ⟨hpublished, e, hschema⟩
  · refine .inl ⟨schema, hpublished, ?_⟩
    rw [result_bind_ok hschema]
    rfl
  · refine .inr ⟨hpublished, ?_⟩
    rw [result_bind_error hschema]

theorem renderLayout_eq {σ : Type} (request : RenderRequest) (resolver : Resolver)
    (renderer : Renderer σ) (host : σ) (layout : String) (rows : List Value) :
    renderLayout request resolver renderer host layout rows = (do
      let index := (← Builder.schema).index
      let x ← rendering host
        (PageBlocks.renderLayout request index resolver renderer layout rows)
      return (x.1.map (·.output), x.2)) := rfl

theorem renderItem_eq {σ : Type} (request : RenderRequest) (resolver : Resolver)
    (renderer : Renderer σ) (host : σ) (row : List (String × Value)) :
    renderItem request resolver renderer host row = (do
      let index := (← Builder.schema).index
      let x ← rendering host (PageBlocks.renderItem request index resolver renderer row)
      return (x.1.map fun r => r.map (·.output), x.2)) := rfl

/-! ## Upkeep -/

theorem saveCache_cases :
    (∃ store, b.store.replace b.cache.entries.entries = .ok store ∧
      result saveCache b = (.ok (), { b with store := store })) ∨
      ∃ e, result saveCache b = (.error e, b) := by
  unfold saveCache
  rw [result_bind_ok (result_builder b)]
  cases hreplace : b.store.replace b.cache.entries.entries with
  | error e => exact .inr ⟨e, result_bind_error (result_ofExcept rfl b) _⟩
  | ok store =>
    rw [result_bind_ok (result_ofExcept rfl b)]
    rcases writeStore_cases b store with hwrite | ⟨e, hwrite⟩
    · exact .inl ⟨store, rfl, hwrite⟩
    · exact .inr ⟨e, hwrite⟩

/-- What is kept is dropped even when the store cannot be written. -/
theorem clearCache_cases :
    (result clearCache b).2 = { b with cache := b.cache.clear, store := b.store.clear } ∨
      (result clearCache b).2 = { b with cache := b.cache.clear } := by
  unfold clearCache
  rw [result_bind_ok (result_builder b), result_bind_ok (result_update b _)]
  rcases writeStore_cases { b with cache := b.cache.clear } b.store.clear with hwrite | ⟨e, hwrite⟩
  · rw [result_bind_ok hwrite]
    exact .inl rfl
  · rw [result_bind_error hwrite]
    exact .inr rfl

end Builder

end PageBlocks
