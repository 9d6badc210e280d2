import PageBlocks.Proofs.Session.Actions

/-!
# Failed compilations cannot be seen

Readers of a builder see the schema it publishes, its cache and its store, and
never its definitions. A compilation that fails leaves all of these as they
were. It may leave other definitions behind, but then these do not compile, so
no compilation succeeds until they are replaced as well.

> `failed_compilations_unseen`: a session without its failed compilations is
> answered as before, and ends with the same schema, cache and store.
-/

namespace PageBlocks

open Stateful Builder

/-! ## Sessions -/

/-- What a builder is asked besides compiling. -/
inductive Question : Type 1 where
  | schema
  | lookup (id : String)
  | rehydrateLayout (resolver : Resolver) (layout : String) (rows : List Value)
  | rehydrateItem (resolver : Resolver) (row : List (String × Value))
  | flattenLayout (blocks : List Value)
  | renderLayout {σ : Type} (request : RenderRequest) (resolver : Resolver)
      (renderer : Renderer σ) (host : σ) (layout : String) (rows : List Value)
  | renderItem {σ : Type} (request : RenderRequest) (resolver : Resolver)
      (renderer : Renderer σ) (host : σ) (row : List (String × Value))
  | renderBlock {σ : Type} (request : RenderRequest) (renderer : Renderer σ) (host : σ)
      (data : Value)
  | saveCache
  | clearCache
  | status

namespace Question

/-- What a question is answered with, where it does not fail. -/
def Answer : Question → Type
  | .schema => CompiledSchema
  | .lookup _ => Option IndexEntry
  | .rehydrateLayout .. => List Value
  | .rehydrateItem .. => Option (String × List Value)
  | .flattenLayout _ => List Value
  | @renderLayout σ .. => Except Error String × σ
  | @renderItem σ .. => Except Error (Option String) × σ
  | @renderBlock σ .. => Except Error String × σ
  | .saveCache => Unit
  | .clearCache => Nat
  | .status => Value

/-- What a builder does to answer a question. -/
def action : (q : Question) → Acting q.Answer
  | .schema => Builder.schema
  | .lookup id => Builder.lookup id
  | .rehydrateLayout resolver layout rows => Builder.rehydrateLayout resolver layout rows
  | .rehydrateItem resolver row => Builder.rehydrateItem resolver row
  | .flattenLayout blocks => Builder.flattenLayout blocks
  | .renderLayout request resolver renderer host layout rows =>
    Builder.renderLayout request resolver renderer host layout rows
  | .renderItem request resolver renderer host row =>
    Builder.renderItem request resolver renderer host row
  | .renderBlock request renderer host data => Builder.renderBlock request renderer host data
  | .saveCache => Builder.saveCache
  | .clearCache => Builder.clearCache
  | .status => Builder.status

end Question

/-- A step of a session. -/
inductive Turn : Type 1 where
  | compile (now : Instant)
  | setDefinitions (definitions : Definitions) (now : Instant)
  /-- The definitions are loaded from the files as they are at the time. -/
  | reload (files : FileTree) (now : Instant)
  | ask (q : Question)

namespace Turn

/-- What comes of a step, where it does not fail. -/
def Answer : Turn → Type
  | .ask q => q.Answer
  | _ => CompiledSchema

def action : (t : Turn) → Acting t.Answer
  | .compile now => Builder.compile now
  | .setDefinitions definitions now => Builder.setDefinitions definitions now
  | .reload files now => Builder.reload files now
  | .ask q => q.action

/-- Whether a step compiles definitions. -/
def compiles : Turn → Bool
  | .ask _ => false
  | _ => true

end Turn

/-- A step, and what came of it. -/
structure Answered : Type 1 where
  turn : Turn
  outcome : Except Error turn.Answer

/-- A step that was to compile definitions and failed. -/
def Answered.failed (a : Answered) : Bool := a.turn.compiles && !a.outcome.isOk

namespace Builder

/-- What comes of the steps of a session, one after the other. -/
def answers (b : Builder) : List Turn → List Answered
  | [] => []
  | t :: rest => ⟨t, (result t.action b).1⟩ :: answers (result t.action b).2 rest

/-- The builder after a session. -/
def after (b : Builder) : List Turn → Builder
  | [] => b
  | t :: rest => after (result t.action b).2 rest

/-! ## What readers see -/

/-- An action that does not see the definitions, and changes nothing but renderings. -/
structure Reads {α : Type} (x : Acting α) : Prop where
  blind : ∀ (b : Builder) (definitions : Definitions),
    result x { b with definitions := definitions } =
      ((result x b).1, { (result x b).2 with definitions := definitions })
  keeps : ∀ b : Builder, ∃ cache store, (result x b).2 = { b with cache := cache, store := store } ∧
    store.tables.history = b.store.tables.history

namespace Reads

open Acting

variable {α β : Type}

theorem settled (x : Except Error α) : Reads (ExceptT.mk (pure x)) where
  blind _ _ := rfl
  keeps b := ⟨b.cache, b.store, rfl, rfl⟩

theorem ofExcept (x : Except Error α) : Reads (ofExcept x : Acting α) := by
  cases x with
  | ok a => exact settled (.ok a)
  | error e => exact settled (.error e)

theorem ofNoted (x : Noted α) : Reads (Acting.ofNoted x) where
  blind _ _ := rfl
  keeps b := ⟨b.cache, b.store, rfl, rfl⟩

theorem bind {x : Acting α} {f : α → Acting β} (hx : Reads x) (hf : ∀ a, Reads (f a)) :
    Reads (x >>= f) where
  blind b definitions := by
    rw [result_bind, result_bind, hx.blind b definitions]
    rcases result x b with ⟨y, t⟩
    cases y with
    | ok a => exact (hf a).blind t definitions
    | error e => rfl
  keeps b := by
    obtain ⟨cache, store, hafter, hhistory⟩ := hx.keeps b
    rw [result_bind]
    rcases hresult : result x b with ⟨y, t⟩
    obtain rfl : t = { b with cache := cache, store := store } := by
      rw [← hafter, hresult]
    cases y with
    | ok a =>
      obtain ⟨cache', store', hafter', hhistory'⟩ :=
        (hf a).keeps { b with cache := cache, store := store }
      exact ⟨cache', store', hafter', hhistory'.trans hhistory⟩
    | error e => exact ⟨cache, store, rfl, hhistory⟩

/-- What depends on the builder may depend on anything but its definitions. -/
theorem builder {f : Builder → Acting β} (hf : ∀ b, Reads (f b))
    (hsame : ∀ (b : Builder) (definitions : Definitions),
      f { b with definitions := definitions } = f b) : Reads (Acting.builder >>= f) where
  blind b definitions := by
    rw [result_bind_ok (result_builder _), result_bind_ok (result_builder _), hsame]
    exact (hf b).blind b definitions
  keeps b := by
    rw [result_bind_ok (result_builder _)]
    exact (hf b).keeps b

theorem cached (f : RenderCache → RenderCache) :
    Reads (update fun b => { b with cache := f b.cache }) where
  blind _ _ := rfl
  keeps b := ⟨f b.cache, b.store, rfl, rfl⟩

theorem schema : Reads Builder.schema := by
  refine builder (fun b => ?_) fun _ _ => rfl
  cases b.published with
  | none => exact settled _
  | some schema => exact settled _

theorem rendering {σ : Type} (host : σ) (r : Rendering σ α) :
    Reads (Builder.rendering host r) := by
  refine builder (fun b => ?_) fun _ _ => rfl
  refine bind (ofNoted _) fun x => bind (cached fun _ => x.2.cache) fun _ => settled _

theorem rehydrateLayout (resolver : Resolver) (layout : String) (rows : List Value) :
    Reads (Builder.rehydrateLayout resolver layout rows) :=
  bind schema fun _ => ofNoted _

theorem saveCache : Reads Builder.saveCache where
  blind b definitions := by
    obtain ⟨root, resources, before, published, cache, store, access⟩ := b
    unfold Builder.saveCache
    rw [result_bind_ok (result_builder _), result_bind_ok (result_builder _)]
    cases store.replace cache.entries.entries with
    | error e => rfl
    | ok replaced =>
      cases access with
      | full => rfl
      | readOnly => rfl
      | none => rfl
  keeps b := by
    rcases saveCache_cases b with ⟨store, hreplace, hsave⟩ | ⟨e, hsave⟩
    · rw [hsave, Store.replace_entries hreplace]
      exact ⟨b.cache, _, rfl, rfl⟩
    · rw [hsave]
      exact ⟨b.cache, b.store, rfl, rfl⟩

theorem clearCache : Reads Builder.clearCache where
  blind b definitions := by
    obtain ⟨root, resources, before, published, cache, store, access⟩ := b
    cases access with
    | full => rfl
    | readOnly => rfl
    | none => rfl
  keeps b := by
    rcases clearCache_cases b with hclear | hclear
    · rw [hclear]
      exact ⟨b.cache.clear, b.store.clear, rfl, rfl⟩
    · rw [hclear]
      exact ⟨b.cache.clear, b.store, rfl, rfl⟩

theorem readStore : Reads Builder.readStore := by
  refine builder (fun b => ?_) fun _ _ => rfl
  split
  next => exact settled _
  next => exact settled _

theorem status : Reads Builder.status := by
  refine builder (fun b => ?_) fun _ _ => rfl
  refine bind schema fun schema => bind readStore fun store => settled _

/-- No question sees the definitions or changes the history. -/
theorem question (q : Question) : Reads q.action := by
  cases q with
  | schema => exact schema
  | lookup id => exact bind schema fun _ => settled _
  | rehydrateLayout resolver layout rows => exact rehydrateLayout resolver layout rows
  | rehydrateItem resolver row =>
    refine bind schema fun schema => bind (ofExcept _) fun selected => ?_
    cases selected with
    | none => exact settled _
    | some selected => exact bind (rehydrateLayout ..) fun _ => settled _
  | flattenLayout blocks => exact bind schema fun _ => ofNoted _
  | renderLayout request resolver renderer host layout rows =>
    exact bind schema fun _ => bind (rendering host _) fun _ => settled _
  | renderItem request resolver renderer host row =>
    exact bind schema fun _ => bind (rendering host _) fun _ => settled _
  | renderBlock request renderer host data => exact bind (rendering host _) fun _ => settled _
  | saveCache => exact saveCache
  | clearCache => exact clearCache
  | status => exact status

end Reads

/-! ## Two builders -/

/-- A builder as it would be with other definitions, which it may only have where its own do not
compile. -/
structure Resembles (b b' : Builder) : Prop where
  same : ∃ definitions, b' = { b with definitions := definitions }
  stuck : b'.definitions = b.definitions ∨ b.Stuck

namespace Resembles

variable {b b' : Builder}

theorem refl (b : Builder) : b.Resembles b := ⟨⟨b.definitions, rfl⟩, .inl rfl⟩

/-- Where some definitions compile, the two builders are one. -/
theorem eq_of_not_stuck (h : b.Resembles b') (hfree : ¬b.Stuck) : b' = b := by
  obtain ⟨⟨definitions, rfl⟩, hsame | hstuck⟩ := h
  · obtain rfl : definitions = b.definitions := hsame
    rfl
  · exact absurd hstuck hfree

/-- Both are answered alike, and still resemble each other. -/
theorem ask {α : Type} {x : Acting α} (h : b.Resembles b') (hx : Reads x) :
    (result x b').1 = (result x b).1 ∧ (result x b).2.Resembles (result x b').2 := by
  obtain ⟨⟨definitions, rfl⟩, hstuck⟩ := h
  obtain ⟨cache, store, hafter, hhistory⟩ := hx.keeps b
  rw [hx.blind b definitions]
  refine ⟨rfl, ⟨definitions, rfl⟩, ?_⟩
  rw [hafter]
  rcases hstuck with hsame | hstuck
  · exact .inl hsame
  · refine .inr fun now schema hcompiled => ?_
    have hlast : store.lastHash? = b.store.lastHash? := by
      unfold Store.lastHash? Store.last?
      rw [hhistory]
    have hrefuses := hstuck now schema hcompiled
    unfold Refuses at hrefuses ⊢
    rw [hlast]
    exact hrefuses

end Resembles

/-- An attempt to compile that fails and changes nothing but the definitions, to some that do not
compile, or else takes place alike on both of two builders. -/
def Unseen (x : Acting CompiledSchema) (b b' : Builder) : Prop :=
  (∃ e, (result x b).1 = .error e) ∧ (result x b).2.Resembles b' ∨
    (∃ schema, (result x b).1 = .ok schema) ∧ result x b' = result x b

section

variable {b b' : Builder}

theorem unseen_compile (h : b.Resembles b') (now : Instant) : Unseen (compile now) b b' := by
  rcases compile_cases b now with ⟨schema, hcompiled, hfree, hcompile⟩ | ⟨-, e, hcompile⟩
  · have hstuck : ¬b.Stuck := fun hstuck => hfree (hstuck now schema hcompiled)
    obtain rfl := h.eq_of_not_stuck hstuck
    exact .inr ⟨⟨schema, congrArg Prod.fst hcompile⟩, rfl⟩
  · refine .inl ⟨⟨e, congrArg Prod.fst hcompile⟩, ?_⟩
    rw [hcompile]
    exact h

/-- Whatever the definitions were before, it is the new ones that are compiled. -/
theorem unseen_setDefinitions (h : b.Resembles b') (definitions : Definitions) (now : Instant) :
    Unseen (setDefinitions definitions now) b b' := by
  obtain ⟨before, hb'⟩ := h.same
  have hsame : { b' with definitions := definitions } = { b with definitions := definitions } := by
    rw [hb']
  unfold Unseen
  rw [setDefinitions_eq, setDefinitions_eq, hsame]
  rcases compile_cases { b with definitions := definitions } now with
    ⟨schema, -, -, hcompile⟩ | ⟨hstuck, e, hcompile⟩
  · exact .inr ⟨⟨schema, congrArg Prod.fst hcompile⟩, rfl⟩
  · refine .inl ⟨⟨e, congrArg Prod.fst hcompile⟩, ?_⟩
    rw [hcompile]
    exact ⟨⟨before, hb'⟩, .inr hstuck⟩

theorem unseen_reload (h : b.Resembles b') (files : FileTree) (now : Instant) :
    Unseen (reload files now) b b' := by
  have hload : b'.loaded? files = b.loaded? files := by
    obtain ⟨before, hb'⟩ := h.same
    rw [hb']
    rfl
  rcases reload_cases b now files with ⟨definitions, hloaded, hreload⟩ | ⟨hnone, e, hreload⟩
  · rcases reload_cases b' now files with ⟨other, hother, hreload'⟩ | ⟨hnone, -⟩
    · obtain rfl : definitions = other :=
        Option.some.inj (hloaded.symm.trans (hload.symm.trans hother))
      unfold Unseen
      rw [hreload, hreload']
      exact unseen_setDefinitions h definitions now
    · rw [hload, hloaded] at hnone
      cases hnone
  · refine .inl ⟨⟨e, congrArg Prod.fst hreload⟩, ?_⟩
    rw [hreload]
    exact h

/-- A step is a compilation that fails and is not seen, or it is answered alike by both of two
builders. -/
theorem turn_cases (h : b.Resembles b') (t : Turn) :
    (Answered.mk t (result t.action b).1).failed = true ∧ (result t.action b).2.Resembles b' ∨
      (Answered.mk t (result t.action b).1).failed = false ∧
        (result t.action b').1 = (result t.action b).1 ∧
        (result t.action b).2.Resembles (result t.action b').2 := by
  have hcompiles : ∀ {x : Acting CompiledSchema}, Unseen x b b' →
      (!(result x b).1.isOk) = true ∧ (result x b).2.Resembles b' ∨
        (!(result x b).1.isOk) = false ∧ (result x b').1 = (result x b).1 ∧
          (result x b).2.Resembles (result x b').2 := by
    intro x hx
    rcases hx with ⟨⟨e, hfails⟩, hafter⟩ | ⟨⟨schema, hok⟩, hsame⟩
    · exact .inl ⟨by rw [hfails]; rfl, hafter⟩
    · exact .inr ⟨by rw [hok]; rfl, congrArg Prod.fst hsame, hsame ▸ Resembles.refl _⟩
  cases t with
  | compile now => exact hcompiles (unseen_compile h now)
  | setDefinitions definitions now => exact hcompiles (unseen_setDefinitions h definitions now)
  | reload files now => exact hcompiles (unseen_reload h files now)
  | ask q =>
    obtain ⟨hsame, hafter⟩ := h.ask (Reads.question q)
    exact .inr ⟨rfl, hsame, hafter⟩

end

/-- A session whose failed compilations are left out is answered as before, on every builder that
resembles the one it was for. -/
theorem answers_resembling : ∀ (turns : List Turn) {b b' : Builder}, b.Resembles b' →
    let kept := (b.answers turns).filter fun a => !a.failed
    b'.answers (kept.map (·.turn)) = kept ∧
      (b.after turns).Resembles (b'.after (kept.map (·.turn))) := by
  intro turns
  induction turns with
  | nil => exact fun h => ⟨rfl, h⟩
  | cons t rest ih =>
    intro b b' h
    dsimp only
    rw [answers]
    rcases turn_cases h t with ⟨hfailed, hafter⟩ | ⟨hkept, hsame, hafter⟩
    · rw [List.filter_cons_of_neg (by rw [hfailed]; exact Bool.false_ne_true)]
      exact ih hafter
    · obtain ⟨hanswers, hlast⟩ := ih hafter
      rw [List.filter_cons_of_pos (by rw [hkept]; rfl), List.map_cons, answers, hanswers, hsame]
      exact ⟨rfl, hlast⟩

end Builder

/-- A session without the compilations that fail in it is answered as the whole session, and leaves
the same schema, cache and store; only the definitions may be others. Loading the definitions again
leaves those it loads, and those there were if it loads none. -/
theorem failed_compilations_unseen (b : Builder) (turns : List Turn) :
    let kept := (b.answers turns).filter fun a => !a.failed
    b.answers (kept.map (·.turn)) = kept ∧
      (∃ definitions,
        b.after (kept.map (·.turn)) = { b.after turns with definitions := definitions }) ∧
      ∀ files now, (result (reload files now) b).2.definitions =
        (b.loaded? files).getD b.definitions := by
  obtain ⟨hanswers, hafter⟩ := answers_resembling turns (Resembles.refl b)
  refine ⟨hanswers, hafter.same, fun files now => ?_⟩
  rcases reload_cases b now files with ⟨definitions, hloaded, hreload⟩ | ⟨hnone, e, hreload⟩
  · rw [hreload, hloaded, setDefinitions_eq]
    rcases compile_cases { b with definitions := definitions } now with
      ⟨schema, -, -, hcompile⟩ | ⟨-, e, hcompile⟩
    · rw [hcompile]
      rfl
    · rw [hcompile]
      rfl
  · rw [hreload, hnone]
    rfl

end PageBlocks
