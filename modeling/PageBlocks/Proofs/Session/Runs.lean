import PageBlocks.Proofs.Render.Hosts
import PageBlocks.Proofs.Session.Serving

/-!
# Runs of sessions over one data directory

Builders are opened and closed one after the other, act in any order, and the
files change under them. No step makes a system store but a builder: files that
others change have the store they had, or none. What the caches give out and
keep on the way is logged.

> `hit_was_kept`: whatever is given out was kept under the same key while a
> schema with the hash of the published one was published.
-/

namespace PageBlocks

open Stateful Builder

/-- What an open builder is asked to do. What is rendered has a trace, from every index that may
be published. -/
inductive Operation : Type 1 where
  | compile (now : Instant)
  | setDefinitions (definitions : Definitions) (now : Instant)
  | reload (now : Instant)
  | saveCache
  | clearCache
  | renderLayout {σ : Type} (request : RenderRequest) (resolver : Resolver)
      (renderer : Renderer σ) (host : σ) (layout : String) (rows : List Value)
      (trace : FlatIndex → RenderState σ → List CacheEvent)
      (traced : ∀ index,
        Traced (renderLayout request index resolver renderer layout rows) (trace index))
  | renderItem {σ : Type} (request : RenderRequest) (resolver : Resolver)
      (renderer : Renderer σ) (host : σ) (row : List (String × Value))
      (trace : FlatIndex → RenderState σ → List CacheEvent)
      (traced : ∀ index, Traced (renderItem request index resolver renderer row) (trace index))
  | renderBlock {σ : Type} (request : RenderRequest) (renderer : Renderer σ) (host : σ)
      (data : Value) (trace : RenderState σ → List CacheEvent)
      (traced : Traced (renderBlock request renderer.block data) trace)

namespace Operation

/-- The builder after an operation, which may read the files. -/
def run (files : FileTree) (b : Builder) : Operation → Builder
  | .compile now => (result (Builder.compile now) b).2
  | .setDefinitions definitions now => (result (Builder.setDefinitions definitions now) b).2
  | .reload now => (result (Builder.reload files now) b).2
  | .saveCache => (result Builder.saveCache b).2
  | .clearCache => (result Builder.clearCache b).2
  | .renderLayout request resolver renderer host layout rows _ _ =>
    (result (Builder.renderLayout request resolver renderer host layout rows) b).2
  | .renderItem request resolver renderer host row _ _ =>
    (result (Builder.renderItem request resolver renderer host row) b).2
  | .renderBlock request renderer host data _ _ =>
    (result (Builder.renderBlock request renderer host data) b).2

/-- What rendering by the published index does with the cache, if there is one. -/
def eventsBy {σ : Type} (b : Builder) (host : σ)
    (trace : FlatIndex → RenderState σ → List CacheEvent) : List CacheEvent :=
  match b.published with
  | some schema => trace schema.index ⟨b.cache, host⟩
  | none => []

/-- What an operation does with the cache. -/
def events (b : Builder) : Operation → List CacheEvent
  | .renderLayout _ _ _ host _ _ trace _ => eventsBy b host trace
  | .renderItem _ _ _ host _ trace _ => eventsBy b host trace
  | .renderBlock _ _ host _ trace _ => trace ⟨b.cache, host⟩
  | _ => []

end Operation

/-- A data directory, the builder that is open on it, and what the caches did so far. -/
structure World where
  files : FileTree
  session : Option Builder := none
  log : List Stamped := []

namespace World

variable (w : World)

/-- Opens the directory. -/
def opened (root : String) (resources : Resources) (now : Instant) : World :=
  let opened := (ofDirectory w.files root resources now).value
  { w with files := opened.files, session := opened.result.toOption }

def closed : World := { w with session := none }

/-- Other hands change the files. -/
def edited (files : FileTree) : World :=
  { w with files := files, session := w.session.map fun b => b.seeFiles files }

/-- The open builder acts, if there is one. -/
def acted (operation : Operation) : World :=
  match w.session with
  | none => w
  | some b =>
    { files := (operation.run w.files b).keepStore w.files
      session := some (operation.run w.files b)
      log := w.log ++ (operation.events b).map (Stamped.mk b.hash?) }

/-- It acts several times. -/
def actedAll (operations : List Operation) : World := operations.foldl acted w

end World

/-- A step of a run. -/
inductive Step (root : String) : World → World → Prop where
  | opened {w : World} (hclosed : w.session = none) (resources : Resources) (now : Instant) :
      Step root w (w.opened root resources now)
  | closed {w : World} : Step root w w.closed
  | edited {w : World} {files : FileTree}
      (hstore : ∀ store, files.node? (storePath root) = some (.store store) →
        w.files.node? (storePath root) = some (.store store)) :
      Step root w (w.edited files)
  | acted {w : World} (operation : Operation) : Step root w (w.acted operation)

/-- What a run reaches that starts on files without a system store. -/
inductive Reached (root : String) : World → Prop where
  | start {files : FileTree}
      (hstore : ∀ store, files.node? (storePath root) ≠ some (.store store)) :
      Reached root { files := files }
  | step {w w' : World} (h : Reached root w) (hstep : Step root w w') : Reached root w'

theorem Reached.actedAll {root : String} {w : World} (h : Reached root w)
    (operations : List Operation) : Reached root (w.actedAll operations) := by
  induction operations generalizing w with
  | nil => exact h
  | cons operation operations ih => exact ih (h.step (.acted operation))

/-! ## The invariant -/

/-- The store of the directory is tied to the log, the open builder serves, and no hit was
stale. -/
structure World.Sound (root : String) (w : World) : Prop where
  files : FilesTied root w.log w.files
  session : ∀ b, w.session = some b → b.Serving root w.log
  fresh : Fresh w.log

/-- So does rendering by the published index. -/
theorem Builder.Serving.renderedBy {root : String} {log : List Stamped} {b : Builder}
    (h : b.Serving root log) (hlog : Fresh log) {σ α β : Type} (host : σ)
    {f : FlatIndex → Rendering σ α} {trace : FlatIndex → RenderState σ → List CacheEvent}
    (traced : ∀ index, Traced (f index) (trace index)) (g : Except Error α × σ → β) :
    Fresh (log ++ (Operation.eventsBy b host trace).map (Stamped.mk b.hash?)) ∧
      Serving root (log ++ (Operation.eventsBy b host trace).map (Stamped.mk b.hash?))
        (result (do
          let index := (← Builder.schema).index
          return g (← rendering host (f index))) b).2 := by
  rcases rendered_cases b host f g with ⟨schema, hpublished, hstate⟩ | ⟨hpublished, hstate⟩
  · have hevents : Operation.eventsBy b host trace = trace schema.index ⟨b.cache, host⟩ := by
      unfold Operation.eventsBy
      rw [hpublished]
    rw [hstate, hevents]
    exact h.rendered hlog (traced schema.index) host
  · have hevents : Operation.eventsBy b host trace = [] := by
      unfold Operation.eventsBy
      rw [hpublished]
    rw [hstate, hevents, List.map_nil, List.append_nil]
    exact ⟨hlog, h⟩

/-- An operation keeps the log fresh, and its builder serving. -/
theorem Builder.Serving.operated {root : String} {log : List Stamped} {b : Builder}
    (h : b.Serving root log) (hlog : Fresh log) (files : FileTree) (operation : Operation) :
    Fresh (log ++ (operation.events b).map (Stamped.mk b.hash?)) ∧
      (operation.run files b).Serving root
        (log ++ (operation.events b).map (Stamped.mk b.hash?)) := by
  have hquiet : ∀ b' : Builder, b'.Serving root log →
      Fresh (log ++ [].map (Stamped.mk b.hash?)) ∧
        b'.Serving root (log ++ [].map (Stamped.mk b.hash?)) := by
    intro b' hb'
    rw [List.map_nil, List.append_nil]
    exact ⟨hlog, hb'⟩
  -- Only rendering asks the cache for anything.
  cases operation with
  | compile now => exact hquiet _ (h.compile now)
  | setDefinitions definitions now => exact hquiet _ (h.setDefinitions definitions now)
  | reload now => exact hquiet _ (h.reload files now)
  | saveCache => exact hquiet _ h.saveCache
  | clearCache => exact hquiet _ h.clearCache
  | @renderLayout σ request resolver renderer host layout rows trace traced =>
    have hrendered := h.renderedBy hlog host traced fun x : Except Error Rendered × σ =>
      (x.1.map (·.output), x.2)
    rw [← renderLayout_eq] at hrendered
    exact hrendered
  | @renderItem σ request resolver renderer host row trace traced =>
    have hrendered := h.renderedBy hlog host traced fun x : Except Error (Option Rendered) × σ =>
      (x.1.map fun r => r.map (·.output), x.2)
    rw [← renderItem_eq] at hrendered
    exact hrendered
  | renderBlock request renderer host data trace traced =>
    exact h.rendered hlog traced host

theorem World.Sound.step {root : String} {w w' : World} (h : w.Sound root)
    (hstep : Step root w w') : w'.Sound root := by
  cases hstep with
  | opened _ resources now =>
    obtain ⟨hfiles, hserving⟩ := h.files.ofDirectory resources now
    exact ⟨hfiles, fun b hb => hserving b (ok_of_toOption hb), h.fresh⟩
  | closed => exact ⟨h.files, fun b hb => (nomatch hb), h.fresh⟩
  | @edited files hstore =>
    refine ⟨fun store hfound => h.files store (hstore store hfound), fun b hb => ?_, h.fresh⟩
    obtain ⟨before, hbefore, rfl⟩ := Option.map_eq_some_iff.mp hb
    exact (h.session before hbefore).seeFiles files
  | acted operation =>
    -- The log has grown, and what was tied to it before still is.
    unfold World.acted
    cases hsession : w.session with
    | none => exact h
    | some b =>
      obtain ⟨hfresh, hserving⟩ :=
        (h.session b hsession).operated h.fresh w.files operation
      refine ⟨?_, fun b' hb' => ?_, hfresh⟩
      · have hmono : FilesTied root (w.log ++ (operation.events b).map (Stamped.mk b.hash?))
            w.files :=
          fun store hfound => (h.files store hfound).mono (List.subset_append_left ..)
        exact hmono.keepStore hserving
      · cases hb'
        exact hserving

theorem Reached.sound {root : String} {w : World} (h : Reached root w) : w.Sound root := by
  induction h with
  | start hstore =>
    exact ⟨fun store hfound => absurd hfound (hstore store), fun b hb => (nomatch hb), fresh_nil⟩
  | step _ hstep ih => exact ih.step hstep

/-- Whatever a cache gives out was kept before, under the same key, while a schema with the hash of
the one that is published now was published. -/
theorem hit_was_kept {root : String} {w : World} (h : Reached root w)
    {before after : List Stamped} {hash : Option String} {key : String} {entry : CacheEntry}
    (hlog : w.log = before ++ ⟨hash, .hit key entry⟩ :: after) :
    hash.isSome ∧ ⟨hash, .kept key entry⟩ ∈ before :=
  h.sound.fresh before after hash key entry hlog

/-- The block at the top of a page. -/
def topBlock : BlockMeta :=
  { layout := "page", block := "text", key := "block_text", index := 0, parent := "page" }

/-- The data of a block that has nothing but its envelope. -/
def topBlockData : Value := .ofMembers [(metaKey, topBlock.toValue)]

theorem topBlock_read : BlockMeta.ofData? topBlockData = some topBlock := rfl

/-- A host whose blocks are all one text. -/
def plainRenderer : Renderer Unit where
  block _ _ _ := pure "<p>"
  layout _ _ _ := pure none

/-- A visit of the page: its block is rendered. -/
def visit (now : Instant) : Operation :=
  .renderBlock ⟨{}, "1", now⟩ plainRenderer () topBlockData
    (unitTrace now {} (.ofBlock "1" topBlock)
      (do return { output := ← plainRenderer.block "page" "text" topBlockData })
      (bindTrace (plainRenderer.block "page" "text" topBlockData) (fun _ => []) fun _ _ => []))
    (by
      unfold renderBlock
      rw [topBlock_read]
      refine .unit _ _ _ (.bind (.settled (.ok "<p>")) fun output => ?_)
      exact .settled (.ok _))

/-- A directory without blocks of its own. -/
def bareFiles : FileTree :=
  { nodes := .ofList [
      ("data", .directory), ("data/blockpress.yaml", .text "blocks: {}\n")] }

/-- The directory when it has been opened. -/
def bareWorld : World := World.opened { files := bareFiles } "/data" .builtin default

/-- Its builder. -/
def bareBuilder : Builder := bareWorld.session.get (by decide +kernel)

/-- Definitions that are not those of the directory. -/
def otherDefinitions : Definitions := { settings := { label := "Pages" } }

def onDay (day : Int) : Instant := { day := day, second := 0, nano := 0 }

/-- The rendering that is kept on a day. -/
def keptOn (day : Int) : CacheEntry := { output := "<p>", storedAt := onDay day }

/-- The page is visited, then once under other definitions, and twice when these have been taken
back. -/
def visits : List Operation :=
  [visit (onDay 1), .setDefinitions otherDefinitions (onDay 2), visit (onDay 2),
    .reload (onDay 3), visit (onDay 3), visit (onDay 4)]

/-- What the first three visits leave in the log. -/
def visitsKept : List Stamped :=
  [⟨bareBuilder.hash?, .kept "1|page|page|0|text" (keptOn 1)⟩,
    ⟨some otherDefinitions.hash, .kept "1|page|page|0|text" (keptOn 2)⟩,
    ⟨bareBuilder.hash?, .kept "1|page|page|0|text" (keptOn 3)⟩]

theorem visits_logged :
    bareBuilder.hash? ≠ some otherDefinitions.hash ∧
      (bareWorld.actedAll visits).log =
        visitsKept ++ [⟨bareBuilder.hash?, .hit "1|page|page|0|text" (keptOn 3)⟩] := by
  decide +kernel

/-- The last visit is given the rendering of the third. The one that was kept in between, under the
same key but under the other definitions, is none that it could have been given. -/
theorem last_visit_not_given_other :
    (bareWorld.actedAll visits).log =
        visitsKept ++ [⟨bareBuilder.hash?, .hit "1|page|page|0|text" (keptOn 3)⟩] ∧
      bareBuilder.hash?.isSome ∧
      ∀ entry, (bareWorld.actedAll visits).log =
          visitsKept ++ [⟨bareBuilder.hash?, .hit "1|page|page|0|text" entry⟩] →
        entry = keptOn 1 ∨ entry = keptOn 3 := by
  obtain ⟨hother, hlog⟩ := visits_logged
  have hstart : Reached "/data" { files := bareFiles } := by
    refine .start fun store h => ?_
    rw [show bareFiles.node? (storePath "/data") = none from by decide +kernel] at h
    cases h
  have hopened : Reached "/data" bareWorld := .step hstart (.opened rfl .builtin default)
  have hvisited := hopened.actedAll visits
  refine ⟨hlog, (hit_was_kept hvisited hlog).1, fun entry hentry => ?_⟩
  have hkept := (hit_was_kept hvisited hentry).2
  simp only [visitsKept, List.mem_cons, Stamped.mk.injEq, CacheEvent.kept.injEq,
    List.not_mem_nil, or_false, hother, false_and, false_or, true_and] at hkept
  exact hkept

end PageBlocks
