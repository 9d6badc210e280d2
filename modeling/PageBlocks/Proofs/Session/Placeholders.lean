import PageBlocks.Proofs.Render.Spans
import PageBlocks.Proofs.Session.Runs

/-!
# Placeholders are never kept

A data directory is opened and closed, builders are made of definitions alone,
and whatever is open renders items, layouts and blocks, each time with another
lone host if need be, and drops, saves and loads what is kept in between. The
spans of all renderings are logged.

A `Held` builder has nothing kept or stored but what satisfies a predicate: here,
that it was kept at the end of a span of the log.

> `Held.compile`, `Held.saveCache`, `Held.boot`, ...: no action of a builder but
> rendering makes anything to be kept;
>
> `Hosting.Kept.step`: every step leaves kept and stored renderings in the log,
> and the log with whole spans alone that keep anything;
>
> `placeholders_never_kept`: nothing is ever kept or stored with a placeholder
> in it.
-/

namespace PageBlocks

open Stateful Builder

/-! ## What a builder holds -/

namespace Builder

/-- A builder of a data directory, or of none, whose kept and stored renderings all satisfy a
predicate. -/
structure Held (root : String) (P : String → CacheEntry → Prop) (b : Builder) : Prop where
  kept : b.cache.entries.All P
  stored : b.store.tables.renderings.All P
  home : ∀ dir, b.root = some dir → dir = root

namespace Held

variable {root : String} {P Q : String → CacheEntry → Prop} {b : Builder}

theorem mono (h : b.Held root P) (hle : ∀ key entry, P key entry → Q key entry) :
    b.Held root Q where
  kept key entry hget := hle key entry (h.kept key entry hget)
  stored key entry hget := hle key entry (h.stored key entry hget)
  home := h.home

/-- A builder with another cache, which may hold what it held before. -/
theorem withCache (h : b.Held root P) {cache : RenderCache} (hcache : cache.entries.All P) :
    Held root P { b with cache := cache } := ⟨hcache, h.stored, h.home⟩

theorem invalidate (h : b.Held root P) (key : CacheKey) :
    Held root P { b with cache := b.cache.invalidate key } :=
  h.withCache (h.kept.erase key.composite)

theorem withSchema (h : b.Held root P) (now : Instant) (schema : CompiledSchema) :
    (b.withSchema now schema).Held root P where
  kept := by
    unfold Builder.withSchema
    dsimp only
    split
    next => exact Dict.all_empty
    next => exact h.kept
  stored := by
    unfold Builder.withSchema Store.recorded
    dsimp only
    split
    next => exact h.stored
    next => exact Dict.all_empty
  home := h.home

theorem compile (h : b.Held root P) (now : Instant) :
    (result (compile now) b).2.Held root P := by
  rcases compile_cases b now with ⟨schema, -, -, hcompile⟩ | ⟨-, e, hcompile⟩
  · rw [hcompile]
    exact h.withSchema now schema
  · rw [hcompile]
    exact h

theorem setDefinitions (h : b.Held root P) (definitions : Definitions) (now : Instant) :
    (result (setDefinitions definitions now) b).2.Held root P := by
  have hset : Held root P { b with definitions := definitions } := ⟨h.kept, h.stored, h.home⟩
  rw [setDefinitions_eq]
  exact hset.compile now

theorem reload (h : b.Held root P) (files : FileTree) (now : Instant) :
    (result (reload files now) b).2.Held root P := by
  rcases reload_cases b now files with ⟨definitions, -, hreload⟩ | ⟨-, e, hreload⟩
  · rw [hreload]
    exact h.setDefinitions definitions now
  · rw [hreload]
    exact h

theorem saveCache (h : b.Held root P) : (result saveCache b).2.Held root P := by
  rcases saveCache_cases b with ⟨store, hreplace, hsave⟩ | ⟨e, hsave⟩
  · rw [hsave, Store.replace_entries hreplace]
    exact ⟨h.kept, h.kept, h.home⟩
  · rw [hsave]
    exact h

theorem clearCache (h : b.Held root P) : (result clearCache b).2.Held root P := by
  rcases clearCache_cases b with hclear | hclear
  · rw [hclear]
    exact ⟨Dict.all_empty, Dict.all_empty, h.home⟩
  · rw [hclear]
    exact ⟨Dict.all_empty, h.stored, h.home⟩

theorem loadCache (h : b.Held root P) : (result loadCache b).2.Held root P := by
  rcases loadCache_cases b with ⟨stored, hstored, hload⟩ | ⟨e, hload⟩
  · rw [hload]
    have hall : ∀ e ∈ stored, P e.1 e.2 := by
      rw [Store.renderings_entries hstored]
      exact fun e he => h.stored e.1 e.2 (Dict.mem_entries_iff.mp he)
    exact h.withCache (h.kept.foldl_insert fun e he => hall e (List.mem_filter.mp he).1)
  · rw [hload]
    exact h

theorem seeFiles (h : b.Held root P) (files : FileTree) : (b.seeFiles files).Held root P := by
  obtain ⟨access, hsees⟩ := seeFiles_eq b files
  rw [hsees]
  exact ⟨h.kept, h.stored, h.home⟩

theorem boot (h : b.Held root P) (now : Instant) : (result (boot now) b).2.Held root P := by
  rcases boot_cases b now with ⟨schema, -, hboot⟩ | ⟨record, schema, -, -, hboot⟩ | ⟨e, hboot⟩
  · rw [hboot]
    exact h.withSchema now schema
  · rw [hboot]
    exact ⟨h.kept, h.stored, h.home⟩
  · rw [hboot]
    exact h

/-- A builder before its start holds what its store holds. -/
theorem assemble {dir : Option String} (hdir : ∀ d, dir = some d → d = root)
    {resources : Resources} {definitions : Definitions} {store : Store}
    (hstore : store.tables.renderings.All P) :
    (assemble dir resources definitions store).Held root P := ⟨Dict.all_empty, hstore, hdir⟩

/-- A builder that starts on a store holds what the store held. -/
theorem started {dir : Option String} (hdir : ∀ d, dir = some d → d = root)
    {resources : Resources} {definitions : Definitions} {store : Store} {now : Instant}
    (hstore : store.tables.renderings.All P) {started : Except Error Builder} {after : Store}
    (hstart : (Builder.start (Builder.assemble dir resources definitions store) do
      Builder.boot now
      Builder.loadCache).value = (started, after)) :
    after.tables.renderings.All P ∧ ∀ b', started = .ok b' → b'.Held root P := by
  have hboot : (result (Builder.boot now)
      (Builder.assemble dir resources definitions store)).2.Held root P :=
    (assemble hdir hstore).boot now
  obtain ⟨rfl, hstarted⟩ := start_eq hstart
  suffices hheld : (result (do Builder.boot now; Builder.loadCache)
      (Builder.assemble dir resources definitions store)).2.Held root P from
    ⟨hheld.stored, fun b' hb' => hstarted b' hb' ▸ hheld⟩
  rcases hresult : result (Builder.boot now) (Builder.assemble dir resources definitions store)
    with ⟨outcome, b'⟩
  rw [hresult] at hboot
  cases outcome with
  | error e =>
    rw [result_bind_error hresult]
    exact hboot
  | ok u =>
    rw [result_bind_ok hresult]
    exact hboot.loadCache

end Held

/-- A builder of definitions alone holds nothing. -/
theorem held_ofDefinitions {root : String} {P : String → CacheEntry → Prop}
    {definitions : Definitions} {resources : Resources} {now : Instant} {b : Builder}
    (h : (ofDefinitions definitions resources now).run.value = .ok b) : b.Held root P := by
  rw [ofDefinitions_value] at h
  have hassembled : (assemble none resources definitions .empty).Held root P :=
    .assemble (fun d hd => by cases hd) Dict.all_empty
  rw [(start_eq rfl).2 b h]
  exact hassembled.boot now

end Builder

/-! ## Tasks -/

/-- What an open builder is asked to do. Each rendering has a host of its own. -/
inductive Task : Type 1 where
  | compile (now : Instant)
  | setDefinitions (definitions : Definitions) (now : Instant)
  | reload (now : Instant)
  | saveCache
  | clearCache
  | invalidate (key : CacheKey)
  | renderLayout {σ : Type} (request : RenderRequest) (resolver : Resolver) (host : LoneHost σ)
      (own : σ) (layout : String) (rows : List Value)
  | renderItem {σ : Type} (request : RenderRequest) (resolver : Resolver) (host : LoneHost σ)
      (own : σ) (row : List (String × Value))
  | renderBlock {σ : Type} (request : RenderRequest) (host : LoneHost σ) (own : σ) (data : Value)

namespace Task

/-- The builder after a task, which may read the files. -/
def run (files : FileTree) (b : Builder) : Task → Builder
  | .compile now => (result (Builder.compile now) b).2
  | .setDefinitions definitions now => (result (Builder.setDefinitions definitions now) b).2
  | .reload now => (result (Builder.reload files now) b).2
  | .saveCache => (result Builder.saveCache b).2
  | .clearCache => (result Builder.clearCache b).2
  | .invalidate key => { b with cache := b.cache.invalidate key }
  | .renderLayout request resolver host own layout rows =>
    (result (Builder.renderLayout request resolver host.renderer own layout rows) b).2
  | .renderItem request resolver host own row =>
    (result (Builder.renderItem request resolver host.renderer own row) b).2
  | .renderBlock request host own data =>
    (result (Builder.renderBlock request host.renderer own data) b).2

/-- The spans of what is rendered by the published index, if there is one. -/
def spansBy {σ : Type} (b : Builder) (own : σ)
    (spans : FlatIndex → RenderState σ → List Span) : List Span :=
  match b.published with
  | some schema => spans schema.index ⟨b.cache, own⟩
  | none => []

/-- The spans of what a task renders. -/
def spans (b : Builder) : Task → List Span
  | .renderLayout request resolver host own layout rows =>
    spansBy b own fun index s => [layoutSpan request host index resolver layout rows s]
  | .renderItem request resolver host own row =>
    spansBy b own fun index s => itemSpans request host index resolver row s
  | .renderBlock request host own data => blockSpans request host data ⟨b.cache, own⟩
  | _ => []

end Task

/-- What holds what was kept before, and now what its spans account for. -/
theorem Builder.Held.accounted {root : String} {log spans : List Span} {b : Builder}
    (h : b.Held root (KeptIn log)) {cache : RenderCache}
    (hspans : Accounts spans b.cache.entries cache.entries) :
    Held root (KeptIn (log ++ spans)) { b with cache := cache } := by
  refine (h.mono fun key entry hkept => hkept.mono (List.subset_append_left ..)).withCache ?_
  intro key entry hget
  rcases hspans.entries key entry hget with hget | hkept
  · exact (h.kept key entry hget).mono (List.subset_append_left ..)
  · exact hkept.mono (List.subset_append_right ..)

/-- So does what is rendered by the published index. -/
theorem Builder.Held.renderedBy {root : String} {log : List Span} {b : Builder}
    (h : b.Held root (KeptIn log)) (hlog : KeepsWhole log) {σ α β : Type} (own : σ)
    {f : FlatIndex → Rendering σ α} {spans : FlatIndex → RenderState σ → List Span}
    (hspans : ∀ index s,
      Accounts (spans index s) s.cache.entries (result (f index) s).2.cache.entries)
    (g : Except Error α × σ → β) :
    KeepsWhole (log ++ Task.spansBy b own spans) ∧
      Held root (KeptIn (log ++ Task.spansBy b own spans))
        (result (do
          let index := (← Builder.schema).index
          return g (← rendering own (f index))) b).2 := by
  rcases rendered_cases b own f g with ⟨schema, hpublished, hstate⟩ | ⟨hpublished, hstate⟩
  · have hby : Task.spansBy b own spans = spans schema.index ⟨b.cache, own⟩ := by
      unfold Task.spansBy
      rw [hpublished]
    rw [hstate, hby]
    have hrendered := hspans schema.index ⟨b.cache, own⟩
    exact ⟨hlog.append hrendered.whole, h.accounted hrendered⟩
  · have hby : Task.spansBy b own spans = [] := by
      unfold Task.spansBy
      rw [hpublished]
    rw [hstate, hby, List.append_nil]
    exact ⟨hlog, h⟩

/-- What a builder holds after a task is in the log with the spans of the task. -/
theorem Builder.Held.worked {root : String} {log : List Span} {b : Builder}
    (h : b.Held root (KeptIn log)) (hlog : KeepsWhole log) (files : FileTree) (task : Task) :
    KeepsWhole (log ++ task.spans b) ∧
      (task.run files b).Held root (KeptIn (log ++ task.spans b)) := by
  have hquiet : ∀ b' : Builder, b'.Held root (KeptIn log) →
      KeepsWhole (log ++ []) ∧ b'.Held root (KeptIn (log ++ [])) := by
    intro b' hb'
    rw [List.append_nil]
    exact ⟨hlog, hb'⟩
  -- Only rendering has spans.
  cases task with
  | compile now => exact hquiet _ (h.compile now)
  | setDefinitions definitions now => exact hquiet _ (h.setDefinitions definitions now)
  | reload now => exact hquiet _ (h.reload files now)
  | saveCache => exact hquiet _ h.saveCache
  | clearCache => exact hquiet _ h.clearCache
  | invalidate key => exact hquiet _ (h.invalidate key)
  | @renderLayout σ request resolver host own layout rows =>
    have hrendered := h.renderedBy hlog own
      (fun index s => accounts_layout request host index resolver layout rows s)
      fun x : Except Error Rendered × σ => (x.1.map (·.output), x.2)
    rw [← renderLayout_eq] at hrendered
    exact hrendered
  | @renderItem σ request resolver host own row =>
    have hrendered := h.renderedBy hlog own
      (fun index s => accounts_item request host index resolver s row)
      fun x : Except Error (Option Rendered) × σ => (x.1.map fun r => r.map (·.output), x.2)
    rw [← renderItem_eq] at hrendered
    exact hrendered
  | renderBlock request host own data =>
    have hspans := accounts_block request host data ⟨b.cache, own⟩
    exact ⟨hlog.append hspans.whole, h.accounted hspans⟩

/-! ## Runs -/

/-- A data directory, the builder that is open, and the spans of all renderings so far. -/
structure Hosting where
  files : FileTree
  session : Option Builder := none
  log : List Span := []

namespace Hosting

variable (w : Hosting)

/-- Opens the directory. -/
def opened (root : String) (resources : Resources) (now : Instant) : Hosting :=
  let opened := (ofDirectory w.files root resources now).value
  { w with files := opened.files, session := opened.result.toOption }

/-- Makes a builder of definitions alone. -/
def launched (definitions : Definitions) (resources : Resources) (now : Instant) : Hosting :=
  { w with session := (ofDefinitions definitions resources now).run.value.toOption }

def closed : Hosting := { w with session := none }

/-- Other hands change the files. -/
def edited (files : FileTree) : Hosting :=
  { w with files := files, session := w.session.map fun b => b.seeFiles files }

/-- The open builder does a task, if there is one. -/
def worked (task : Task) : Hosting :=
  match w.session with
  | none => w
  | some b =>
    { files := (task.run w.files b).keepStore w.files
      session := some (task.run w.files b)
      log := w.log ++ task.spans b }

/-- A step of a run. No step makes a system store but a builder. -/
inductive Step (root : String) : Hosting → Hosting → Prop where
  | opened {w : Hosting} (hclosed : w.session = none) (resources : Resources) (now : Instant) :
      Step root w (w.opened root resources now)
  | launched {w : Hosting} (hclosed : w.session = none) (definitions : Definitions)
      (resources : Resources) (now : Instant) :
      Step root w (w.launched definitions resources now)
  | closed {w : Hosting} : Step root w w.closed
  | edited {w : Hosting} {files : FileTree}
      (hstore : ∀ store, files.node? (storePath root) = some (.store store) →
        w.files.node? (storePath root) = some (.store store)) :
      Step root w (w.edited files)
  | worked {w : Hosting} (task : Task) : Step root w (w.worked task)

/-- What a run reaches that starts on files without a system store. -/
inductive Reached (root : String) : Hosting → Prop where
  | start {files : FileTree}
      (hstore : ∀ store, files.node? (storePath root) ≠ some (.store store)) :
      Reached root { files := files }
  | step {w w' : Hosting} (h : Reached root w) (hstep : Step root w w') : Reached root w'

/-- All that is kept and stored was kept at the end of a span of the log, and by whole spans
alone. -/
structure Kept (root : String) (w : Hosting) : Prop where
  files : StoreHas root (fun store => store.tables.renderings.All (KeptIn w.log)) w.files
  session : ∀ b, w.session = some b → b.Held root (KeptIn w.log)
  whole : KeepsWhole w.log

theorem Kept.step {root : String} {w w' : Hosting} (h : w.Kept root) (hstep : Step root w w') :
    w'.Kept root := by
  cases hstep with
  | opened _ resources now =>
    obtain ⟨hfiles, hheld⟩ := h.files.ofDirectory Dict.all_empty resources now
      fun definitions store hstore started after hstart =>
        Held.started (fun d hd => (Option.some.inj hd).symm) hstore hstart
    exact ⟨hfiles, fun b hb => hheld b (ok_of_toOption hb), h.whole⟩
  | launched _ definitions resources now =>
    exact ⟨h.files, fun b hb => held_ofDefinitions (ok_of_toOption hb), h.whole⟩
  | closed => exact ⟨h.files, fun b hb => (nomatch hb), h.whole⟩
  | @edited files hstore =>
    refine ⟨fun store hfound => h.files store (hstore store hfound), fun b hb => ?_, h.whole⟩
    obtain ⟨before, hbefore, rfl⟩ := Option.map_eq_some_iff.mp hb
    exact (h.session before hbefore).seeFiles files
  | worked task =>
    -- The log has grown, and what was in it before still is.
    unfold Hosting.worked
    cases hsession : w.session with
    | none => exact h
    | some b =>
      obtain ⟨hwhole, hheld⟩ := (h.session b hsession).worked h.whole w.files task
      refine ⟨?_, fun b' hb' => ?_, hwhole⟩
      · have hmono : StoreHas root
            (fun store => store.tables.renderings.All (KeptIn (w.log ++ task.spans b))) w.files :=
          fun store hfound key entry hget =>
            (h.files store hfound key entry hget).mono (List.subset_append_left ..)
        exact hmono.keepStore hheld.home hheld.stored
      · cases hb'
        exact hheld

theorem Reached.kept {root : String} {w : Hosting} (h : Reached root w) : w.Kept root := by
  induction h with
  | start hstore =>
    exact ⟨fun store hfound => absurd hfound (hstore store), fun b hb => (nomatch hb),
      keepsWhole_nil⟩
  | step _ hstep ih => exact ih.step hstep

theorem Reached.works {root : String} {w : Hosting} (h : Reached root w) (tasks : List Task) :
    Reached root (tasks.foldl worked w) := by
  induction tasks generalizing w with
  | nil => exact h
  | cons task tasks ih => exact ih (h.step (.worked task))

end Hosting

/-- What is kept in an open builder, stored by it or stored in the files was kept at the end of a
span, and in none that kept anything stood a placeholder: not for the unit itself, not for one that
was joined into it, and not in anything that was given out again on the way. -/
theorem placeholders_never_kept {root : String} {w : Hosting} (h : w.Reached root) :
    (∀ b, w.session = some b → b.cache.entries.All (KeptIn w.log) ∧
      b.store.tables.renderings.All (KeptIn w.log)) ∧
    (∀ store, w.files.node? (storePath root) = some (.store store) →
      store.tables.renderings.All (KeptIn w.log)) ∧
    ∀ span key entry, Logged w.log span → span.Keeps key entry → ¬span.Tainted w.log := by
  have hkept := h.kept
  refine ⟨fun b hb => ?_, hkept.files, fun span key entry hlogged hkeeps => ?_⟩
  · exact ⟨(hkept.session b hb).kept, (hkept.session b hb).stored⟩
  · exact (hkept.whole span key entry hlogged hkeeps).not_tainted hkept.whole

/-- A host that has templates or not. -/
def pageHost (there : Bool) : LoneHost Unit where
  block layout block _ own :=
    (if there then .ok "<p>" else .error (.missingTemplate (layout ++ "/" ++ block)), own)
  layout layout _ _ own := (if there then .ok none else .error (.missingTemplate layout), own)

/-- An empty page is rendered and a block by itself, and what is kept is saved. -/
def pageTasks (there : Bool) : List Task :=
  [.renderLayout ⟨{}, "1", default⟩ .none (pageHost there) () "page" [],
    .renderBlock ⟨{}, "1", default⟩ (pageHost there) () topBlockData, .saveCache]

/-- The bare directory, opened, after some tasks. -/
def bareHosting (tasks : List Task) : Hosting :=
  tasks.foldl Hosting.worked ({ files := bareFiles : Hosting }.opened "/data" .empty default)

/-- What is kept and what is stored in the end. -/
def Hosting.keys? (w : Hosting) : Option (List String × List String) :=
  w.session.map fun b => (b.cache.entries.keys, b.store.tables.renderings.keys)

/-- Without templates nothing is kept; as soon as they are there, both units are. -/
theorem page_kept_whole :
    (bareHosting (pageTasks false)).keys? = some ([], []) ∧
    (bareHosting (pageTasks false ++ pageTasks true)).keys? =
      some (["1|page|page", "1|page|page|0|text"], ["1|page|page", "1|page|page|0|text"]) ∧
    let w := bareHosting (pageTasks false ++ pageTasks true)
    (∀ b, w.session = some b → b.cache.entries.All (KeptIn w.log) ∧
      b.store.tables.renderings.All (KeptIn w.log)) ∧
    ∀ span key entry, Logged w.log span → span.Keeps key entry → ¬span.Tainted w.log := by
  have hstart : Hosting.Reached "/data" { files := bareFiles } := by
    refine .start fun store h => ?_
    rw [show bareFiles.node? (storePath "/data") = none from by decide +kernel] at h
    cases h
  have hreached : (bareHosting (pageTasks false ++ pageTasks true)).Reached "/data" :=
    (Hosting.Reached.step hstart (.opened rfl .empty default)).works _
  obtain ⟨hsession, -, hwhole⟩ := placeholders_never_kept hreached
  exact ⟨by decide +kernel, by decide +kernel, hsession, hwhole⟩

end PageBlocks
