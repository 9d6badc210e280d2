import PageBlocks.Proofs.Session.Reloaded
import PageBlocks.Proofs.Session.Runs
import Mathlib.Data.List.Chain

/-!
# Publication and history in step

Sessions over one data directory record what they publish, and what they record
outlives them. Recording and publishing are guarded by different comparisons: a
schema is recorded unless the schema recorded last has its hash, it is published
in any case, and a start may publish what was recorded before. So the schema
that is published need not be the one that is recorded; both come from the same
definitions.

> `Operation.moves`, `start_moves`: what an action may publish, record and set.
>
> `history_in_step`: the open builder publishes what the last record holds, no
> two neighbours in the history have one hash, and a step appends at most one.

As in single records, a schema nested too deeply cannot be read back:
`deep_history_not_reread`.
-/

namespace PageBlocks

open Stateful Builder Attempt

/-! ## What an action does -/

/-- What a builder may publish and record in one action: nothing, the schema that its definitions
compile to, or the schema that was recorded last. -/
inductive Builder.Settles (b b' : Builder) : Prop where
  | kept (hpublished : b'.published = b.published)
      (hhistory : b'.store.tables.history = b.store.tables.history)
  | compiled (now : Instant) (schema : CompiledSchema)
      (hcompiled : (compiled b'.definitions b'.resources now).run.value = .ok schema)
      (hpublished : b'.published = some schema)
      (hhistory : b'.store.tables.history = (b.store.recorded schema now).tables.history)
  | restored (record : SchemaRecord) (schema : CompiledSchema)
      (hlast : b.store.last? = some record) (hread : readRecord record = .ok schema)
      (hpublished : b'.published = some schema)
      (hhistory : b'.store.tables.history = b.store.tables.history)

/-- What a builder becomes by an action that may set some definitions. -/
structure Builder.Moves (incoming : List Definitions) (b b' : Builder) : Prop where
  home : b'.root = b.root
  resources : b'.resources = b.resources
  access : b'.access = b.access
  definitions : b'.definitions = b.definitions ∨ b'.definitions ∈ incoming
  settles : b.Settles b'

/-- What an operation may set as the definitions of a builder. -/
def Operation.incoming (files : FileTree) (b : Builder) : Operation → List Definitions
  | .setDefinitions definitions _ => [definitions]
  | .reload _ => (b.loaded? files).toList
  | _ => []

section Moves

variable {incoming : List Definitions} {b b' : Builder}

theorem Builder.Moves.refl : b.Moves incoming b := ⟨rfl, rfl, rfl, .inl rfl, .kept rfl rfl⟩

/-- Nothing else of the two builders matters. -/
theorem Builder.Settles.congr {c c' : Builder} (h : b.Settles b') (hstore : c.store = b.store)
    (hbefore : c.published = b.published) (hdefinitions : c'.definitions = b'.definitions)
    (hresources : c'.resources = b'.resources) (hafter : c'.published = b'.published)
    (hrecorded : c'.store.tables.history = b'.store.tables.history) : c.Settles c' := by
  cases h with
  | kept hpublished hhistory =>
    exact .kept (hafter.trans (hpublished.trans hbefore.symm))
      (hrecorded.trans (hstore ▸ hhistory))
  | compiled now schema hcompiled hpublished hhistory =>
    rw [← hdefinitions, ← hresources] at hcompiled
    exact .compiled now schema hcompiled (hafter.trans hpublished)
      (hrecorded.trans (hstore ▸ hhistory))
  | restored record schema hlast hread hpublished hhistory =>
    exact .restored record schema (hstore ▸ hlast) hread (hafter.trans hpublished)
      (hrecorded.trans (hstore ▸ hhistory))

/-- What is kept or stored for rendering is another matter. -/
theorem Builder.Moves.kept {cache : RenderCache} {store : Store}
    (hstore : store.tables.history = b.store.tables.history) :
    b.Moves incoming { b with cache := cache, store := store } :=
  ⟨rfl, rfl, rfl, .inl rfl, .kept rfl hstore⟩

theorem Builder.compile_moves (b : Builder) (now : Instant) :
    b.Moves incoming (result (compile now) b).2 := by
  rcases compile_cases b now with ⟨schema, hcompiled, -, hcompile⟩ | ⟨-, e, hcompile⟩
  · rw [hcompile]
    exact ⟨rfl, rfl, rfl, .inl rfl, .compiled now schema hcompiled rfl rfl⟩
  · rw [hcompile]
    exact .refl

theorem Builder.setDefinitions_moves {definitions : Definitions} (b : Builder) (now : Instant)
    (hset : definitions ∈ incoming) :
    b.Moves incoming (result (setDefinitions definitions now) b).2 := by
  rw [setDefinitions_eq]
  have hmoves : Moves incoming { b with definitions := definitions } _ := compile_moves _ now
  refine ⟨hmoves.home, hmoves.resources, hmoves.access, .inr ?_, ?_⟩
  · rcases hmoves.definitions with heq | hmem
    · rw [heq]
      exact hset
    · exact hmem
  · exact hmoves.settles.congr rfl rfl rfl rfl rfl rfl

theorem Builder.rendered_moves {σ α β : Type} (host : σ) (f : FlatIndex → Rendering σ α)
    (g : Except Error α × σ → β) :
    b.Moves incoming (result (do
      let index := (← Builder.schema).index
      return g (← rendering host (f index))) b).2 := by
  rcases rendered_cases b host f g with ⟨schema, -, hstate⟩ | ⟨-, hstate⟩
  · rw [hstate]
    exact .kept rfl
  · rw [hstate]
    exact .refl

theorem Operation.moves (operation : Operation) (files : FileTree) (b : Builder) :
    b.Moves (operation.incoming files b) (operation.run files b) := by
  cases operation with
  | compile now => exact b.compile_moves now
  | setDefinitions definitions now => exact b.setDefinitions_moves now (List.mem_cons_self ..)
  | reload now =>
    show b.Moves (b.loaded? files).toList (result (Builder.reload files now) b).2
    rcases reload_cases b now files with ⟨definitions, hloaded, hreload⟩ | ⟨-, e, hreload⟩
    · rw [hreload, hloaded]
      exact b.setDefinitions_moves now (List.mem_cons_self ..)
    · rw [hreload]
      exact .refl
  | saveCache =>
    show b.Moves [] (result Builder.saveCache b).2
    rcases saveCache_cases b with ⟨store, hreplace, hsave⟩ | ⟨e, hsave⟩
    · rw [hsave, Store.replace_entries hreplace]
      exact .kept rfl
    · rw [hsave]
      exact .refl
  | clearCache =>
    show b.Moves [] (result Builder.clearCache b).2
    rcases clearCache_cases b with hclear | hclear
    · rw [hclear]
      exact .kept rfl
    · rw [hclear]
      exact .kept rfl
  | @renderLayout σ request resolver renderer host layout rows trace traced =>
    have hmoves : b.Moves [] _ := rendered_moves host
      (fun index => PageBlocks.renderLayout request index resolver renderer layout rows)
      fun x : Except Error Rendered × σ => (x.1.map (·.output), x.2)
    rw [← renderLayout_eq] at hmoves
    exact hmoves
  | @renderItem σ request resolver renderer host row trace traced =>
    have hmoves : b.Moves [] _ := rendered_moves host
      (fun index => PageBlocks.renderItem request index resolver renderer row)
      fun x : Except Error (Option Rendered) × σ => (x.1.map fun r => r.map (·.output), x.2)
    rw [← renderItem_eq] at hmoves
    exact hmoves
  | renderBlock request renderer host data trace traced => exact .kept rfl

/-- Loading stored renderings changes nothing else. -/
theorem Builder.Moves.loadCache (h : b.Moves incoming b') :
    b.Moves incoming (result loadCache b').2 := by
  rcases loadCache_cases b' with ⟨stored, -, hload⟩ | ⟨e, hload⟩
  · rw [hload]
    exact ⟨h.home, h.resources, h.access, h.definitions,
      h.settles.congr rfl rfl rfl rfl rfl rfl⟩
  · rw [hload]
    exact h

/-- A start, whether it succeeds or not. -/
theorem Builder.start_moves (b : Builder) (now : Instant) :
    b.Moves incoming (result (do boot now; loadCache) b).2 := by
  rcases boot_cases b now with ⟨schema, hcompiled, hboot⟩ | ⟨record, schema, hlast, hread, hboot⟩ |
    ⟨e, hboot⟩
  · have hmoves : b.Moves incoming (b.withSchema now schema) :=
      ⟨rfl, rfl, rfl, .inl rfl, .compiled now schema hcompiled rfl rfl⟩
    rw [result_bind_ok hboot]
    exact hmoves.loadCache
  · have hmoves : b.Moves incoming { b with published := some schema } :=
      ⟨rfl, rfl, rfl, .inl rfl, .restored record schema hlast hread rfl rfl⟩
    rw [result_bind_ok hboot]
    exact hmoves.loadCache
  · rw [result_bind_error hboot]
    exact .refl

end Moves

/-! ## What publication and history have in common -/

section InStep

variable {resources : Resources} {met met' : List Definitions} {b b' : Builder}

/-- Whether a schema is what some definitions compile to. -/
def Sourced (resources : Resources) (met : List Definitions) (schema : CompiledSchema) : Prop :=
  ∃ definitions ∈ met,
    (compiled definitions resources schema.compiledAt).run.value = .ok schema

/-- Whether a record is of such a schema. -/
def Recorded (resources : Resources) (met : List Definitions) (record : SchemaRecord) : Prop :=
  ∃ schema, Sourced resources met schema ∧
    record = ⟨schema.sourceHash, schema.toValue.compact, schema.compiledAt⟩

/-- A history of schemas of some definitions, without two neighbours of one hash. -/
structure GoodHistory (resources : Resources) (met : List Definitions)
    (history : List SchemaRecord) : Prop where
  recorded : ∀ record ∈ history, Recorded resources met record
  apart : history.IsChain fun r r' => r.hash ≠ r'.hash

/-- A builder with such a history that publishes a schema of such definitions, or what it has
recorded last. -/
structure Builder.InStep (resources : Resources) (met : List Definitions) (b : Builder) :
    Prop where
  history : GoodHistory resources met b.store.tables.history
  published : ∀ schema, b.published = some schema →
    Sourced resources met schema ∨
      ∃ record, b.store.last? = some record ∧ readRecord record = .ok schema

theorem Sourced.mono {schema : CompiledSchema} (h : Sourced resources met schema)
    (hmet : met ⊆ met') : Sourced resources met' schema := by
  obtain ⟨definitions, hmem, hcompiled⟩ := h
  exact ⟨definitions, hmet hmem, hcompiled⟩

theorem GoodHistory.mono {history : List SchemaRecord} (h : GoodHistory resources met history)
    (hmet : met ⊆ met') : GoodHistory resources met' history := by
  refine ⟨fun record hrecord => ?_, h.apart⟩
  obtain ⟨schema, hsourced, heq⟩ := h.recorded record hrecord
  exact ⟨schema, hsourced.mono hmet, heq⟩

theorem Builder.InStep.mono (h : b.InStep resources met) (hmet : met ⊆ met') :
    b.InStep resources met' := by
  refine ⟨h.history.mono hmet, fun schema hschema => ?_⟩
  rcases h.published schema hschema with hsourced | hlast
  · exact .inl (hsourced.mono hmet)
  · exact .inr hlast

/-- A schema bears the time it was compiled at. -/
theorem compiledAt_eq {definitions : Definitions} {now : Instant} {schema : CompiledSchema}
    (h : (compiled definitions resources now).run.value = .ok schema) :
    schema.compiledAt = now := by
  have hagain := compiled_at definitions resources now now
  rw [h] at hagain
  exact congrArg CompiledSchema.compiledAt (Except.ok.inj hagain)

theorem sourced_of_compiled {definitions : Definitions} {now : Instant} {schema : CompiledSchema}
    (h : (compiled definitions resources now).run.value = .ok schema) (hmem : definitions ∈ met) :
    Sourced resources met schema := by
  refine ⟨definitions, hmem, ?_⟩
  rw [compiledAt_eq h]
  exact h

/-- A schema that is recorded stands behind the history, unless one with its hash stands last. -/
theorem Store.history_recorded (store : Store) (schema : CompiledSchema) (now : Instant) :
    (store.recorded schema now).tables.history = store.tables.history ∨
      store.lastHash? ≠ some schema.sourceHash ∧ (store.recorded schema now).tables.history =
        store.tables.history ++ [⟨schema.sourceHash, schema.toValue.compact, now⟩] := by
  unfold recorded
  by_cases hlast : store.lastHash? = some schema.sourceHash
  · rw [if_pos hlast]
    exact .inl rfl
  · rw [if_neg hlast]
    exact .inr ⟨hlast, rfl⟩

theorem GoodHistory.append {store : Store} {schema : CompiledSchema} {now : Instant}
    (h : GoodHistory resources met store.tables.history)
    (hschema : Sourced resources met schema) (hnow : schema.compiledAt = now) :
    GoodHistory resources met (store.recorded schema now).tables.history := by
  rcases store.history_recorded schema now with hsame | ⟨hlast, hmore⟩
  · rw [hsame]
    exact h
  · rw [hmore]
    constructor
    · intro record hrecord
      rcases List.mem_append.mp hrecord with hold | hnew
      · exact h.recorded record hold
      · exact ⟨schema, hschema, by rw [List.mem_singleton.mp hnew, hnow]⟩
    · refine List.isChain_append.mpr ⟨h.apart, .singleton _, fun r hr r' hr' hsame => ?_⟩
      obtain rfl : r' = _ := (Option.mem_some.mp hr').symm
      refine hlast ?_
      unfold Store.lastHash? Store.last?
      rw [Option.mem_def.mp hr, Option.map_some, hsame]

/-- Whatever an action publishes and records, the two stay in step. -/
theorem Builder.InStep.settles (h : b.InStep resources met) (hsettles : b.Settles b')
    (hresources : b'.resources = resources) (hdefinitions : b'.definitions ∈ met) :
    b'.InStep resources met := by
  cases hsettles with
  | kept hpublished hhistory =>
    constructor
    · rw [hhistory]
      exact h.history
    · unfold Store.last?
      rw [hpublished, hhistory]
      exact h.published
  | compiled now schema hcompiled hpublished hhistory =>
    rw [hresources] at hcompiled
    have hschema : Sourced resources met schema := sourced_of_compiled hcompiled hdefinitions
    constructor
    · rw [hhistory]
      exact h.history.append hschema (compiledAt_eq hcompiled)
    · intro schema' hschema'
      rw [hpublished] at hschema'
      cases hschema'
      exact .inl hschema
  | restored record schema hlast hread hpublished hhistory =>
    constructor
    · rw [hhistory]
      exact h.history
    · intro schema' hschema'
      rw [hpublished] at hschema'
      cases hschema'
      refine .inr ⟨record, ?_, hread⟩
      unfold Store.last? at hlast ⊢
      rw [hhistory]
      exact hlast

/-- An action appends one record to the history, or none. -/
theorem Builder.Settles.grows (h : b.Settles b') :
    ∃ new, b'.store.tables.history = b.store.tables.history ++ new ∧ new.length ≤ 1 := by
  have hnone : b'.store.tables.history = b.store.tables.history →
      ∃ new, b'.store.tables.history = b.store.tables.history ++ new ∧ new.length ≤ 1 := by
    intro hsame
    exact ⟨[], by rw [hsame, List.append_nil], Nat.zero_le _⟩
  cases h with
  | kept _ hhistory => exact hnone hhistory
  | compiled now schema _ _ hhistory =>
    rcases b.store.history_recorded schema now with hsame | ⟨-, hmore⟩
    · exact hnone (hhistory.trans hsame)
    · exact ⟨_, hhistory.trans hmore, Nat.le_refl 1⟩
  | restored _ _ _ _ _ hhistory => exact hnone hhistory

end InStep

/-! ## The store of a directory -/

section Files

variable {root : String} {files : FileTree}

theorem configFile_plain : FileTree.Plain configFile := ⟨by decide, by decide, by decide⟩

theorem storeFile_plain : FileTree.Plain storeFile := ⟨by decide, by decide, by decide⟩

/-- Where definitions can be opened, a store may stand. -/
theorem Builder.place?_storePath {definitions : Definitions}
    (h : Gives (openDefinitions files root) definitions) :
    (files.place? (storePath root)).isSome := by
  have hthere : ∀ {path : String}, files.exists? path = true → (files.place? path).isSome := by
    intro path hexists
    obtain ⟨node, hnode⟩ := Option.isSome_iff_exists.mp hexists
    obtain ⟨place, hplace, -⟩ := Option.bind_eq_some_iff.mp hnode
    exact Option.isSome_iff_exists.mpr ⟨place, hplace⟩
  unfold openDefinitions at h
  have hroot : files.exists? root = true := by
    by_contra hmissing
    rw [Bool.not_eq_true] at hmissing
    simp only [hmissing] at h
    exact gives_throw h
  have hconfig : files.exists? (configPath root) = true := by
    by_contra hmissing
    rw [Bool.not_eq_true] at hmissing
    simp only [hroot, hmissing] at h
    exact gives_throw h
  have hne : root ≠ "" := by
    rintro rfl
    cases hroot
  exact FileTree.place?_beside hne configFile_plain storeFile_plain (hthere hconfig)

/-- A store that is put where no directory stands is there. -/
theorem Builder.node?_withStore (store : Store) (hplace : (files.place? (storePath root)).isSome)
    (hnode : files.node? (storePath root) ≠ some .directory) :
    (withStore root store files).node? (storePath root) = some (.store store) := by
  obtain ⟨files', hput⟩ := FileTree.put_ok (.store store) hplace hnode
  unfold withStore
  rw [hput]
  exact FileTree.node?_put hput

/-- The history in the store of a data directory. -/
def historyOf (root : String) (files : FileTree) : List SchemaRecord :=
  match files.node? (storePath root) with
  | some (.store store) => store.tables.history
  | _ => []

theorem historyOf_store {store : Store}
    (h : files.node? (storePath root) = some (.store store)) :
    historyOf root files = store.tables.history := by
  unfold historyOf
  rw [h]

/-- A directory is opened with the store it has, or with an empty one. -/
theorem Builder.openStore_gives {store : Store} (h : openStore files root = .ok store) :
    files.node? (storePath root) ≠ some .directory ∧
      historyOf root files = store.tables.history := by
  unfold openStore at h
  unfold historyOf
  dsimp only at h
  cases hnode : files.node? (storePath root) with
  | none =>
    rw [hnode] at h
    cases h
    exact ⟨nofun, rfl⟩
  | some node =>
    rw [hnode] at h
    cases node with
    | directory => cases h
    | unreadable => cases h
    | store store =>
      cases h
      exact ⟨nofun, rfl⟩
    | text content =>
      dsimp only at h
      split at h
      next =>
        cases h
        exact ⟨nofun, rfl⟩
      next => cases h

/-- Opening a directory leaves it as it is and gives no builder, or starts one and keeps its
store. -/
theorem Builder.ofDirectory_cases (files : FileTree) (root : String) (resources : Resources)
    (now : Instant) :
    let opened := (ofDirectory files root resources now).value
    (opened.files = files ∧ opened.result.toOption = none) ∨
      ∃ definitions store b, Gives (openDefinitions files root) definitions ∧
        openStore files root = .ok store ∧
        Moves [definitions] (assemble (some root) resources definitions store) b ∧
        opened.files = withStore root b.store files ∧
        ∀ b', opened.result.toOption = some b' → b' = b := by
  dsimp only
  rw [ofDirectory_value]
  split
  next definitions store hdefinitions hstore =>
    refine .inr ⟨definitions, store, _, hdefinitions, hstore, start_moves _ now, rfl, ?_⟩
    intro b' hb'
    rw [start_value] at hb'
    dsimp only at hb'
    cases hresult : (result (do boot now; loadCache)
        (assemble (some root) resources definitions store)).1 with
    | error e =>
      rw [hresult] at hb'
      cases hb'
    | ok u =>
      rw [hresult] at hb'
      cases hb'
      rfl
  next => exact .inl ⟨rfl, rfl⟩
  next => exact .inl ⟨rfl, rfl⟩

end Files

/-! ## Runs -/

/-- Definitions that an operation of the open builder may set. -/
def World.incoming (w : World) (operation : Operation) : List Definitions :=
  match w.session with
  | none => []
  | some b => operation.incoming w.files b

/-- A step of a run, and the definitions that come in with it. Storage does not fail: what others
change of the files is not the store. -/
inductive Advance (root : String) (resources : Resources) :
    World → List Definitions → World → Prop where
  | opened {w : World} (hclosed : w.session = none) (now : Instant) :
      Advance root resources w (openDefinitions w.files root).run.value.toOption.toList
        (w.opened root resources now)
  | closed {w : World} : Advance root resources w [] w.closed
  | edited {w : World} {files : FileTree}
      (hstore : files.node? (storePath root) = w.files.node? (storePath root)) :
      Advance root resources w [] (w.edited files)
  | acted {w : World} (operation : Operation) :
      Advance root resources w (w.incoming operation) (w.acted operation)

/-- What a run reaches that starts on files without a system store, all sessions having the same
resources, and the definitions that came in on the way. -/
inductive Course (root : String) (resources : Resources) : List Definitions → World → Prop where
  | start {files : FileTree}
      (hstore : ∀ store, files.node? (storePath root) ≠ some (.store store)) :
      Course root resources [] { files := files }
  | step {met incoming : List Definitions} {w w' : World} (h : Course root resources met w)
      (hstep : Advance root resources w incoming w') :
      Course root resources (met ++ incoming) w'

section Runs

variable {root : String} {resources : Resources} {met incoming : List Definitions}
  {w w' : World}

/-- A step of such a run is a step. -/
theorem Advance.step (h : Advance root resources w incoming w') : Step root w w' := by
  cases h with
  | opened hclosed now => exact .opened hclosed resources now
  | closed => exact .closed
  | edited hstore =>
    refine .edited fun store hfound => ?_
    rw [← hstore]
    exact hfound
  | acted operation => exact .acted operation

theorem Course.reached (h : Course root resources met w) : Reached root w := by
  induction h with
  | start hstore => exact .start hstore
  | step _ hstep ih => exact ih.step hstep.step

/-- An open builder that is in step, with the store of its directory. -/
structure Attached (root : String) (resources : Resources) (met : List Definitions)
    (files : FileTree) (b : Builder) : Prop extends b.InStep resources met where
  home : b.root = some root
  resources : b.resources = resources
  access : b.access = .full
  definitions : b.definitions ∈ met
  stored : files.node? (storePath root) = some (.store b.store)

structure World.InStep (root : String) (resources : Resources) (met : List Definitions)
    (w : World) : Prop where
  history : GoodHistory resources met (historyOf root w.files)
  session : ∀ b, w.session = some b → Attached root resources met w.files b

/-- What moves from a builder that is in step is in step, once its store is kept. -/
theorem Builder.InStep.moves {files : FileTree} {b b' : Builder}
    (h : b.InStep resources (met ++ incoming)) (hmoves : b.Moves incoming b')
    (hhome : b.root = some root) (hresources : b.resources = resources)
    (haccess : b.access = .full) (hdefinitions : b.definitions ∈ met ++ incoming)
    (hstored : files.node? (storePath root) = some (.store b'.store)) :
    Attached root resources (met ++ incoming) files b' := by
  have hset : b'.definitions ∈ met ++ incoming := by
    rcases hmoves.definitions with heq | hmem
    · rw [heq]
      exact hdefinitions
    · exact List.mem_append_right _ hmem
  have hsame : b'.resources = resources := hmoves.resources.trans hresources
  exact ⟨h.settles hmoves.settles hsame hset, hmoves.home.trans hhome, hsame,
    hmoves.access.trans haccess, hset, hstored⟩

/-- The store that a builder keeps is there. -/
theorem Builder.node?_keepStore {files : FileTree} {store : Store} {b : Builder}
    (hfound : files.node? (storePath root) = some (.store store)) (hhome : b.root = some root)
    (haccess : b.access = .full) :
    (b.keepStore files).node? (storePath root) = some (.store b.store) := by
  have hplace : (files.place? (storePath root)).isSome := by
    obtain ⟨place, hplace, -⟩ := Option.bind_eq_some_iff.mp hfound
    exact Option.isSome_iff_exists.mpr ⟨place, hplace⟩
  have hnode : files.node? (storePath root) ≠ some .directory := by
    rw [hfound]
    exact nofun
  unfold keepStore
  rw [hhome, haccess]
  exact node?_withStore b.store hplace hnode

/-- Opening a directory keeps its history in step, and gives a builder that is in step with it. -/
theorem World.InStep.opened (h : w.InStep root resources met) (now : Instant) :
    let incoming := (openDefinitions w.files root).run.value.toOption.toList
    (w.opened root resources now).InStep root resources (met ++ incoming) ∧
      ∃ new, historyOf root (w.opened root resources now).files =
        historyOf root w.files ++ new ∧ new.length ≤ 1 := by
  dsimp only
  unfold World.opened
  rcases ofDirectory_cases w.files root resources now with
    ⟨hfiles, hnone⟩ | ⟨definitions, store, b, hdefinitions, hopen, hmoves, hfiles, hbuilder⟩
  · dsimp only
    rw [hfiles, hnone]
    refine ⟨⟨h.history.mono (List.subset_append_left ..), fun b hb => nomatch hb⟩, [], ?_⟩
    exact ⟨(List.append_nil _).symm, Nat.zero_le _⟩
  · obtain ⟨hnode, hhistory⟩ := openStore_gives hopen
    have hincoming : (openDefinitions w.files root).run.value.toOption.toList = [definitions] := by
      rw [show (openDefinitions w.files root).run.value = .ok definitions from hdefinitions]
      rfl
    have hstored : (withStore root b.store w.files).node? (storePath root) =
        some (.store b.store) := node?_withStore b.store (place?_storePath hdefinitions) hnode
    -- Before it starts, the builder publishes nothing.
    have hbefore : (assemble (some root) resources definitions store).InStep resources
        (met ++ [definitions]) := by
      refine ⟨?_, fun schema hschema => nomatch hschema⟩
      have hkept := h.history
      rw [hhistory] at hkept
      exact hkept.mono (List.subset_append_left ..)
    have hattached : Attached root resources (met ++ [definitions])
        (withStore root b.store w.files) b :=
      hbefore.moves hmoves rfl rfl rfl (List.mem_append_right _ (List.mem_cons_self ..)) hstored
    dsimp only
    rw [hfiles, hincoming, historyOf_store hstored, hhistory]
    refine ⟨⟨?_, fun b' hb' => ?_⟩, hmoves.settles.grows⟩
    · rw [historyOf_store hstored]
      exact hattached.history
    · obtain rfl := hbuilder b' hb'
      exact hattached

/-- So does an operation. -/
theorem World.InStep.acted (h : w.InStep root resources met) (operation : Operation) :
    (w.acted operation).InStep root resources (met ++ w.incoming operation) ∧
      ∃ new, historyOf root (w.acted operation).files = historyOf root w.files ++ new ∧
        new.length ≤ 1 := by
  unfold World.acted World.incoming
  cases hsession : w.session with
  | none =>
    refine ⟨⟨h.history.mono (List.subset_append_left ..), fun b hb => ?_⟩, [], ?_⟩
    · rw [hsession] at hb
      cases hb
    · exact ⟨(List.append_nil _).symm, Nat.zero_le _⟩
  | some b =>
    have hattached := h.session b hsession
    have hmoves := operation.moves w.files b
    have hstored : ((operation.run w.files b).keepStore w.files).node? (storePath root) =
        some (.store (operation.run w.files b).store) :=
      node?_keepStore hattached.stored (hmoves.home.trans hattached.home)
        (hmoves.access.trans hattached.access)
    have hafter : Attached root resources (met ++ operation.incoming w.files b)
        ((operation.run w.files b).keepStore w.files) (operation.run w.files b) :=
      (hattached.toInStep.mono (List.subset_append_left ..)).moves hmoves hattached.home
        hattached.resources hattached.access (List.mem_append_left _ hattached.definitions) hstored
    dsimp only
    rw [historyOf_store hstored, historyOf_store hattached.stored]
    refine ⟨⟨?_, fun b' hb' => ?_⟩, hmoves.settles.grows⟩
    · rw [historyOf_store hstored]
      exact hafter.history
    · cases hb'
      exact hafter

/-- A step keeps publication and history in step, and appends at most one record. -/
theorem Advance.inStep (h : w.InStep root resources met)
    (hstep : Advance root resources w incoming w') :
    w'.InStep root resources (met ++ incoming) ∧
      ∃ new, historyOf root w'.files = historyOf root w.files ++ new ∧ new.length ≤ 1 := by
  cases hstep with
  | opened _ now => exact h.opened now
  | closed =>
    rw [List.append_nil]
    refine ⟨⟨h.history, fun b hb => nomatch hb⟩, [], ?_⟩
    exact ⟨(List.append_nil _).symm, Nat.zero_le _⟩
  | @edited files hstore =>
    have hsame : historyOf root files = historyOf root w.files := by
      unfold historyOf
      rw [hstore]
    rw [List.append_nil]
    refine ⟨⟨?_, fun b hb => ?_⟩, [], ?_⟩
    · show GoodHistory resources met (historyOf root files)
      rw [hsame]
      exact h.history
    · -- The store is still there, so the builder keeps its access.
      obtain ⟨before, hbefore, rfl⟩ := Option.map_eq_some_iff.mp hb
      have hattached := h.session before hbefore
      have hstored : files.node? (storePath root) = some (.store before.store) :=
        hstore.trans hattached.stored
      have hsees : before.seeFiles files = before := by
        unfold Builder.seeFiles
        rw [hattached.home, hattached.access]
        dsimp only
        rw [hstored]
      rw [hsees]
      exact { hattached with stored := hstored }
    · exact ⟨hsame.trans (List.append_nil _).symm, Nat.zero_le _⟩
  | acted operation => exact h.acted operation

theorem Course.inStep (h : Course root resources met w) : w.InStep root resources met := by
  induction h with
  | @start files hstore =>
    have hempty : historyOf root files = [] := by
      unfold historyOf
      split
      next store hfound => exact absurd hfound (hstore store)
      next => rfl
    refine ⟨?_, fun b hb => nomatch hb⟩
    rw [hempty]
    exact ⟨fun record hrecord => absurd hrecord List.not_mem_nil, .nil⟩
  | step _ hstep ih => exact (hstep.inStep ih).1

end Runs

/-! ## Reading the last record -/

namespace CompiledSchema

/-- The members of the value of a schema stand in this order. -/
theorem toValue_eq (s : CompiledSchema) :
    s.toValue = .object [("compiled_at", .string s.compiledAt.zulu), ("flatmap", s.index.toValue),
      ("group", s.group.toValue), ("key_scheme", .int s.keyScheme),
      ("source_hash", .string s.sourceHash)] := by
  simp +decide only [CompiledSchema.toValue, Value.ofMembers, Entries.ofList, List.foldl_cons,
    List.foldl_nil, Entries.insert, if_true, if_false]

/-- The time in a schema does not matter to its depth. -/
theorem depth_restamped (s : CompiledSchema) (now : Instant) :
    { s with compiledAt := now : CompiledSchema }.toValue.depth = s.toValue.depth := by
  rw [toValue_eq, toValue_eq]
  simp only [Value.depth, Value.depthMembers]

/-- Nor does it to its numbers. -/
theorem renumbered?_restamped {s : CompiledSchema} {now : Instant}
    (h : { s with compiledAt := now : CompiledSchema }.toValue.renumbered? =
      some { s with compiledAt := now : CompiledSchema }.toValue) :
    s.toValue.renumbered? = some s.toValue := by
  rw [toValue_eq] at h ⊢
  simpa [Value.renumbered?, Value.renumberedMembers?, Option.bind_eq_some_iff] using h

end CompiledSchema

section Reading

variable {resources : Resources} {met : List Definitions}

/-- A record is read back as the schema it was made of, where that is nested no deeper than a text
may be. -/
theorem Sourced.readRecord_eq {schema : CompiledSchema} (h : Sourced resources met schema)
    (hvalues : ∀ d ∈ met, ∀ registry, Gives (Registry.build d resources) registry →
      registry.hasOrderedValues = true)
    (hdepth : schema.toValue.depth ≤ JsonText.maxDepth)
    (hnumbers : schema.toValue.renumbered? = some schema.toValue)
    (htime : Instant.read? schema.compiledAt.zulu = some schema.compiledAt) :
    readRecord ⟨schema.sourceHash, schema.toValue.compact, schema.compiledAt⟩ = .ok schema := by
  obtain ⟨definitions, hmem, hgives⟩ := h
  obtain ⟨registry, hbuilt, hcompiled⟩ := gives_bind hgives
  have hfields := fields_recordable hbuilt hcompiled (hvalues definitions hmem registry hbuilt)
  obtain ⟨entries, hmakes, -, -, hscheme, -⟩ := compile_gives hcompiled
  obtain ⟨layouts, held, -, hgroup, -⟩ := Compile.makes_fieldGroup hmakes
  have hreread : Rereads CompiledSchema.ofDatum? CompiledSchema.toValue schema := by
    refine CompiledSchema.rereads hfields ?_ ?_ ?_ htime
    · rw [hgroup]
      exact (by decide : -2147483648 ≤ (0 : Int) ∧ (0 : Int) < 2147483648)
    · rw [hgroup]
      exact (by decide : 1 < 256)
    · rw [hscheme]
      decide
  rw [readRecord, JsonText.read?_compact, if_pos hdepth, hnumbers, Option.map_some,
    Value.ordered_of_wellFormed hreread.wellFormed, Option.bind_some, CompiledSchema.ofValue?,
    hreread.reread]

/-- The hash of a schema is that of its definitions. -/
theorem sourceHash_of_compiled {definitions : Definitions} {now : Instant}
    {schema : CompiledSchema}
    (h : (compiled definitions resources now).run.value = .ok schema) :
    schema.sourceHash = definitions.hash := by
  obtain ⟨registry, hbuilt, hcompiled⟩ := gives_bind h
  obtain ⟨-, -, -, hhash, -⟩ := compile_gives hcompiled
  exact hhash.trans (Registry.build_sourceHash hbuilt)

/-- Two schemas of one hash come from the same definitions, and only bear different times. -/
theorem Sourced.eq_restamped {schema schema' : CompiledSchema} (h : Sourced resources met schema)
    (h' : Sourced resources met schema') (hhash : schema.sourceHash = schema'.sourceHash)
    (hhashes : ∀ d ∈ met, ∀ d' ∈ met, d.hash = d'.hash → d = d') :
    schema' = { schema with compiledAt := schema'.compiledAt } := by
  obtain ⟨d, hmem, hcompiled⟩ := h
  obtain ⟨d', hmem', hcompiled'⟩ := h'
  have hsame : d = d' := by
    apply hhashes d hmem d' hmem'
    rw [← sourceHash_of_compiled hcompiled, ← sourceHash_of_compiled hcompiled', hhash]
  rw [← hsame, compiled_at d resources schema.compiledAt, hcompiled] at hcompiled'
  exact (Except.ok.inj hcompiled').symm

end Reading

/-- An open builder publishes a schema, and has recorded one of its hash last. -/
theorem Course.publishes {root : String} {resources : Resources} {met : List Definitions}
    {w : World} (h : Course root resources met w) {b : Builder} (hb : w.session = some b) :
    ∃ schema record, b.published = some schema ∧ b.store.last? = some record ∧
      (historyOf root w.files).getLast? = some record ∧ record.hash = schema.sourceHash := by
  have hserving : b.Serving root w.log := h.reached.sound.session b hb
  obtain ⟨hash, hhash⟩ := Option.isSome_iff_exists.mp hserving.published
  obtain ⟨schema, hschema, rfl⟩ := Option.map_eq_some_iff.mp hhash
  obtain ⟨record, hlast, hrecord⟩ := Option.map_eq_some_iff.mp (hserving.current.trans hhash)
  refine ⟨schema, record, hschema, hlast, ?_, hrecord⟩
  rw [historyOf_store (h.inStep.session b hb).stored]
  exact hlast

/-- In every state of a run an open builder publishes a schema, which has the hash that was recorded
last; what is recorded last is read back as a schema with the same tree and the same index, unless
it is nested more deeply than a text may be or has numbers that change in a text. No two neighbours
in the history have one hash, and no step appends more than one record. -/
theorem history_in_step {root : String} {resources : Resources} {met : List Definitions}
    {w : World} (h : Course root resources met w)
    (hhashes : ∀ d ∈ met, ∀ d' ∈ met, d.hash = d'.hash → d = d')
    (hvalues : ∀ d ∈ met, ∀ registry, Gives (Registry.build d resources) registry →
      registry.hasOrderedValues = true) :
    (∀ b, w.session = some b → ∃ schema record, b.published = some schema ∧
      (historyOf root w.files).getLast? = some record ∧ record.hash = schema.sourceHash ∧
      (schema.toValue.depth ≤ JsonText.maxDepth →
        schema.toValue.renumbered? = some schema.toValue →
        Instant.read? record.recordedAt.zulu = some record.recordedAt →
        ∃ s, readRecord record = .ok s ∧ s.group = schema.group ∧ s.index = schema.index)) ∧
      (historyOf root w.files).IsChain (fun r r' => r.hash ≠ r'.hash) ∧
      ∀ incoming w', Advance root resources w incoming w' →
        ∃ new, historyOf root w'.files = historyOf root w.files ++ new ∧ new.length ≤ 1 := by
  refine ⟨fun b hb => ?_, h.inStep.history.apart, fun incoming w' hstep =>
    (hstep.inStep h.inStep).2⟩
  have hattached : Attached root resources met w.files b := h.inStep.session b hb
  obtain ⟨schema, record, hschema, hlast, hhistory, hrecord⟩ := h.publishes hb
  refine ⟨schema, record, hschema, hhistory, hrecord, fun hdepth hnumbers htime => ?_⟩
  rcases hattached.published schema hschema with hsourced | ⟨record', hlast', hread⟩
  · -- What is recorded was compiled from the same definitions, at its own time.
    obtain ⟨s, hs, rfl⟩ := hattached.history.recorded record (List.mem_of_getLast? hlast)
    have hsame := hs.eq_restamped hsourced hrecord hhashes
    rw [hsame] at hdepth hnumbers ⊢
    rw [CompiledSchema.depth_restamped] at hdepth
    exact ⟨s, hs.readRecord_eq hvalues hdepth (CompiledSchema.renumbered?_restamped hnumbers)
      htime, rfl, rfl⟩
  · obtain rfl := Option.some.inj (hlast.symm.trans hlast')
    exact ⟨schema, hread, rfl, rfl⟩

/-- A generator of a text that has an option of lists inside each other. -/
def listResources (count : Nat) : Resources :=
  { Resources.builtin with
    generators := .ofList [("lists", fun _ =>
      [(FieldDeclaration.simple "title" "Title" "text").withOption "extra" (nestedLists count)])] }

/-- A directory with a page of such texts. -/
def listFiles : FileTree :=
  { nodes := .ofList [
      ("data", .directory),
      ("data/blockpress.yaml", .text ("settings: {core_fields: false}\nlayouts: {page: {}}\n" ++
        "blocks: {text: {content: [{generate: lists}]}}\n"))] }

def listDefinitions : Definitions := (openDefinitions listFiles "/data").result

/-- That directory when it has been opened. -/
def listWorld (count : Nat) : World :=
  World.opened { files := listFiles } "/data" (listResources count) default

theorem listWorld_course (count : Nat) :
    Course "/data" (listResources count) [listDefinitions] (listWorld count) := by
  have hstart : Course "/data" (listResources count) [] { files := listFiles } := by
    refine .start fun store h => ?_
    rw [show listFiles.node? (storePath "/data") = none from by decide +kernel] at h
    cases h
  have hdefinitions : Gives (openDefinitions listFiles "/data") listDefinitions :=
    gives_result (by decide +kernel)
  have hopened : Course "/data" (listResources count) _ (listWorld count) :=
    hstart.step (.opened rfl default)
  rw [show (openDefinitions listFiles "/data").run.value = _ from hdefinitions] at hopened
  exact hopened

theorem listWorld_hashes :
    ∀ d ∈ [listDefinitions], ∀ d' ∈ [listDefinitions], d.hash = d'.hash → d = d' := by
  intro d hd d' hd' _
  rw [List.mem_singleton.mp hd, List.mem_singleton.mp hd']

/-- The page is recorded as it is published when there is one list in the other. -/
theorem lists_in_step :
    ∃ b schema record s, (listWorld 1).session = some b ∧ b.published = some schema ∧
      (historyOf "/data" (listWorld 1).files).getLast? = some record ∧
      readRecord record = .ok s ∧ s.group = schema.group ∧ s.index = schema.index := by
  have hworld : ((listWorld 1).session.any fun b => b.published.any fun s =>
        s.toValue.keepsNumbers && s.toValue.nestsWithin JsonText.maxDepth) = true ∧
      ((historyOf "/data" (listWorld 1).files).all fun r =>
        Instant.read? r.recordedAt.zulu == some r.recordedAt) = true ∧
      (Registry.build listDefinitions (listResources 1)).run.value.toOption.isSome = true ∧
      (Registry.build listDefinitions (listResources 1)).result.hasOrderedValues = true := by
    decide +kernel
  obtain ⟨hsession, htimes, hbuilds, hvalues⟩ := hworld
  obtain ⟨b, hb, hany⟩ := (Option.any_eq_true _ _).mp hsession
  obtain ⟨schema, hschema, hboth⟩ := (Option.any_eq_true _ _).mp hany
  obtain ⟨hnumbers, hnests⟩ := Bool.and_eq_true_iff.mp hboth
  have hbuilt : ∀ d ∈ [listDefinitions], ∀ registry,
      Gives (Registry.build d (listResources 1)) registry → registry.hasOrderedValues = true := by
    intro d hd registry hregistry
    rw [List.mem_singleton.mp hd] at hregistry
    obtain rfl := Except.ok.inj (hregistry.symm.trans (gives_result hbuilds))
    exact hvalues
  obtain ⟨published, record, hpublished, hrecord, -, hread⟩ :=
    (history_in_step (listWorld_course 1) listWorld_hashes hbuilt).1 b hb
  rw [hschema] at hpublished
  cases hpublished
  have htime : Instant.read? record.recordedAt.zulu = some record.recordedAt :=
    beq_iff_eq.mp (List.all_eq_true.mp htimes record (List.mem_of_getLast? hrecord))
  obtain ⟨s, hs, hgroup, hindex⟩ := hread (Value.nestsWithin_iff.mp hnests)
    (Value.renumbered?_of_keepsNumbers hnumbers) htime
  exact ⟨b, schema, record, s, hb, hschema, hrecord, hs, hgroup, hindex⟩

/-- When the lists are nested as deeply as this, what is published is not what is recorded: the
record cannot be read. -/
theorem deep_history_not_reread :
    Course "/data" (listResources 121) [listDefinitions] (listWorld 121) ∧
      (∀ d ∈ [listDefinitions], ∀ d' ∈ [listDefinitions], d.hash = d'.hash → d = d') ∧
      ∃ b schema record, (listWorld 121).session = some b ∧ b.published = some schema ∧
        (historyOf "/data" (listWorld 121).files).getLast? = some record ∧
        record.hash = schema.sourceHash ∧ readRecord record = .error .badJson := by
  have hworld : (listWorld 121).session.isSome = true ∧
      (compiled listDefinitions (listResources 121) default).run.value.toOption.isSome = true ∧
      ¬(compiled listDefinitions (listResources 121) default).result.toValue.nestsWithin
        JsonText.maxDepth = true := by
    decide +kernel
  obtain ⟨hsession, hcompiles, hnests⟩ := hworld
  obtain ⟨b, hb⟩ := Option.isSome_iff_exists.mp hsession
  obtain ⟨schema, record, hschema, hlast, hrecord, hhash⟩ := (listWorld_course 121).publishes hb
  refine ⟨listWorld_course 121, listWorld_hashes, b, schema, record, hb, hschema, hrecord, hhash,
    ?_⟩
  -- The only definitions are those of the page.
  obtain ⟨s, ⟨d, hd, hcompiled⟩, rfl⟩ :=
    (listWorld_course 121).inStep.history.recorded record (List.mem_of_getLast? hrecord)
  rw [List.mem_singleton.mp hd, compiled_at listDefinitions _ default,
    show (compiled listDefinitions (listResources 121) default).run.value = .ok _ from
      gives_result hcompiles] at hcompiled
  have hdepth : ¬s.toValue.depth ≤ JsonText.maxDepth := by
    rw [← Except.ok.inj hcompiled, CompiledSchema.depth_restamped]
    exact mt Value.nestsWithin_iff.mpr hnests
  exact readRecord_deep hdepth

end PageBlocks
