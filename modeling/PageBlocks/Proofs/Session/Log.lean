import PageBlocks.Proofs.Entries
import PageBlocks.Proofs.Render.Trace
import PageBlocks.Schema.Encode

/-!
# The log of a data directory

The log holds what was done with render caches over all sessions of one data
directory, each event stamped with the hash of the schema that was published at
the time. It is the measure of what may be given out: `Known` renderings were
all kept under one hash, and a log is `Fresh` if its hits give out nothing else.

> `Fresh.append_served`: a rendering on known entries keeps the log fresh, and
> what it leaves behind is known again.
>
> `Store.Tied.recorded`, `Store.Tied.replaced`: so is what is stored, through
> every change of a store.
-/

namespace PageBlocks

/-- An event, and the hash of the schema that was published at the time. -/
structure Stamped where
  hash : Option String
  event : CacheEvent
deriving DecidableEq, Repr

/-- Renderings that were all kept under a hash. Without a hash there are none. -/
def Known (log : List Stamped) (hash : Option String) (entries : Dict CacheEntry) : Prop :=
  ∀ key entry, entries.get? key = some entry → hash.isSome ∧ ⟨hash, .kept key entry⟩ ∈ log

/-- Every hit gives out what was kept before, under the same key and the same hash. -/
def Fresh (log : List Stamped) : Prop :=
  ∀ before after hash key entry, log = before ++ ⟨hash, .hit key entry⟩ :: after →
    hash.isSome ∧ ⟨hash, .kept key entry⟩ ∈ before

section

variable {log log' : List Stamped} {hash : Option String} {entries : Dict CacheEntry}

theorem known_empty : Known log hash .empty := Dict.all_empty

theorem Known.mono (h : Known log hash entries) (hlog : log ⊆ log') : Known log' hash entries := by
  intro key entry hget
  obtain ⟨hhash, hkept⟩ := h key entry hget
  exact ⟨hhash, hlog hkept⟩

/-- What is known without a hash is nothing. -/
theorem Known.of_none (h : Known log none entries) : Known log hash entries := by
  intro key entry hget
  have hnone := (h key entry hget).1
  cases hnone

/-- What has been kept under a hash is known with the rest. -/
theorem Known.insert {key : String} {entry : CacheEntry} (h : Known log hash entries)
    (hhash : hash.isSome) (hkept : ⟨hash, .kept key entry⟩ ∈ log) :
    Known log hash (entries.insert key entry) :=
  Dict.All.insert h ⟨hhash, hkept⟩

/-- Known renderings are known together. -/
theorem Known.foldl_insert {pairs : List (String × CacheEntry)} (h : Known log hash entries)
    (hall : ∀ e ∈ pairs, hash.isSome ∧ ⟨hash, .kept e.1 e.2⟩ ∈ log) :
    Known log hash (pairs.foldl (fun entries e => entries.insert e.1 e.2) entries) :=
  Dict.All.foldl_insert h hall

theorem fresh_nil : Fresh [] := by
  intro before after hash key entry h
  cases before <;> cases h

/-- An event behind a fresh log, which must be fresh if it is a hit. -/
theorem Fresh.concat {event : Stamped} (h : Fresh log)
    (hevent : ∀ hash key entry, event = ⟨hash, .hit key entry⟩ →
      hash.isSome ∧ ⟨hash, .kept key entry⟩ ∈ log) : Fresh (log ++ [event]) := by
  intro before after hash key entry hlog
  -- The hit is the new event, or it stands in the log before it.
  rcases List.eq_nil_or_concat after with rfl | ⟨init, last, rfl⟩
  · obtain ⟨rfl, heq⟩ := List.append_inj' hlog rfl
    exact hevent hash key entry (List.singleton_inj.mp heq)
  · have hlog' : log ++ [event] = (before ++ ⟨hash, .hit key entry⟩ :: init) ++ [last] := by
      rw [hlog, List.concat_eq_append, List.append_assoc, List.cons_append]
    obtain ⟨rfl, -⟩ := List.append_inj' hlog' rfl
    exact h before init hash key entry rfl

/-- Events that serve from known entries go behind a fresh log. -/
theorem Fresh.append_served {events : List CacheEvent} (hserved : Served entries events)
    (hlog : Fresh log) (hhash : hash.isSome) (hknown : Known log hash entries) :
    Fresh (log ++ events.map (Stamped.mk hash)) ∧
      Known (log ++ events.map (Stamped.mk hash)) hash (replay entries events) := by
  induction hserved generalizing log with
  | nil =>
    rw [List.map_nil, List.append_nil]
    exact ⟨hlog, hknown⟩
  | @hit entries key entry events found _ ih =>
    have hstep : Fresh (log ++ [⟨hash, .hit key entry⟩]) := by
      refine hlog.concat fun hash' key' entry' heq => ?_
      cases heq
      exact hknown key entry found
    have hrest := ih hstep (hknown.mono (List.subset_append_left ..))
    rw [List.append_assoc] at hrest
    exact hrest
  | @kept entries key entry events _ ih =>
    have hstep : Fresh (log ++ [⟨hash, .kept key entry⟩]) :=
      hlog.concat fun hash' key' entry' heq => by cases heq
    have hknown' : Known (log ++ [⟨hash, .kept key entry⟩]) hash (entries.insert key entry) :=
      (hknown.mono (List.subset_append_left ..)).insert hhash
        (List.mem_append_right _ (List.mem_cons_self ..))
    have hrest := ih hstep hknown'
    rw [List.append_assoc] at hrest
    exact hrest

end

/-! ## Stores -/

namespace Store

/-- The hash of the schema recorded last. -/
def lastHash? (store : Store) : Option String := store.last?.map (·.hash)

/-- A store whose records are of schemas, and whose renderings were kept under the hash of the
last of them. -/
structure Tied (log : List Stamped) (store : Store) : Prop where
  history : ∀ r ∈ store.tables.history, ∃ schema : CompiledSchema,
    r.hash = schema.sourceHash ∧ r.schema = schema.toValue.compact
  renderings : Known log store.lastHash? store.tables.renderings

variable {log log' : List Stamped} {store : Store}

theorem tied_empty : Tied log .empty where
  history _ hr := absurd hr List.not_mem_nil
  renderings := known_empty

theorem Tied.mono (h : store.Tied log) (hlog : log ⊆ log') : store.Tied log' where
  history := h.history
  renderings := h.renderings.mono hlog

theorem Tied.clear (h : store.Tied log) : store.clear.Tied log where
  history := h.history
  renderings := known_empty

/-- A store in which a schema is recorded last. -/
def recorded (store : Store) (schema : CompiledSchema) (now : Instant) : Store :=
  if store.lastHash? = some schema.sourceHash then store
  else (store.record schema.sourceHash schema.toValue.compact now).clear

theorem lastHash?_recorded (store : Store) (schema : CompiledSchema) (now : Instant) :
    (store.recorded schema now).lastHash? = some schema.sourceHash := by
  unfold recorded
  split
  next h => exact h
  next =>
    show (List.getLast? (_ ++ [_])).map _ = _
    rw [List.getLast?_concat]
    rfl

theorem Tied.recorded (h : store.Tied log) (schema : CompiledSchema) (now : Instant) :
    (store.recorded schema now).Tied log := by
  unfold Store.recorded
  split
  next => exact h
  next =>
    refine ⟨fun r hr => ?_, known_empty⟩
    rcases List.mem_append.mp hr with hr | hr
    · exact h.history r hr
    · obtain rfl := List.mem_singleton.mp hr
      exact ⟨schema, rfl, rfl⟩

/-- Renderings put into a store one by one. -/
theorem foldl_put (pairs : List (String × CacheEntry)) (store : Store) :
    pairs.foldl (fun s e => s.put e.1 e.2) store =
      { store with tables := { store.tables with
          renderings := pairs.foldl (fun d e => d.insert e.1 e.2) store.tables.renderings } } := by
  induction pairs generalizing store with
  | nil => rfl
  | cons e pairs ih =>
    rw [List.foldl_cons, ih]
    rfl

/-- A store whose renderings are replaced holds the new ones alone. -/
theorem replace_entries {after : Store} {d : Dict CacheEntry}
    (h : store.replace d.entries = .ok after) :
    after = { store with tables := { store.tables with renderings := d } } := by
  obtain ⟨tables, saved⟩ := store
  cases saved with
  | some before => cases h
  | none =>
    have hput := foldl_put d.entries (clear { tables := tables, saved := some tables })
    rw [show (clear { tables := tables, saved := some tables }).tables.renderings = .empty from rfl,
      Dict.foldl_insert_entries] at hput
    have hafter : commit (d.entries.foldl (fun s e => s.put e.1 e.2)
        (clear { tables := tables, saved := some tables })) = .ok after := h
    rw [hput] at hafter
    cases hafter
    rfl

theorem Tied.replaced {after : Store} {d : Dict CacheEntry} (h : store.Tied log)
    (hknown : Known log store.lastHash? d) (hafter : store.replace d.entries = .ok after) :
    after.Tied log ∧ after.lastHash? = store.lastHash? := by
  rw [replace_entries hafter]
  exact ⟨⟨h.history, hknown⟩, rfl⟩

/-- Renderings that can be read are those that are stored. -/
theorem renderings_entries {stored : List (String × CacheEntry)}
    (h : store.renderings = .ok stored) : stored = store.tables.renderings.entries := by
  unfold Store.renderings at h
  split at h
  next => cases h
  next => exact (Except.ok.inj h).symm

/-- The renderings of a store are known under the hash recorded last. -/
theorem Tied.known_renderings (h : store.Tied log) {stored : List (String × CacheEntry)}
    (hstored : store.renderings = .ok stored) :
    ∀ e ∈ stored, store.lastHash?.isSome ∧ ⟨store.lastHash?, .kept e.1 e.2⟩ ∈ log := by
  rw [renderings_entries hstored]
  exact fun e he => h.renderings e.1 e.2 (Dict.mem_entries_iff.mp he)

end Store

end PageBlocks
