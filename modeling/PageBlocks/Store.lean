import PageBlocks.Error
import PageBlocks.Instant
import PageBlocks.Dict
import PageBlocks.Datum

/-!
# The system store

What outlives a session: the history of published schemas, and renderings that
were saved. Both tables change together inside a transaction, which is taken
back as a whole or kept as a whole. Transactions do not nest.
-/

namespace PageBlocks

/-- A stored rendering. -/
structure CacheEntry where
  output : String
  storedAt : Instant
deriving DecidableEq, Repr, Inhabited

namespace CacheEntry

def toValue (e : CacheEntry) : Value :=
  .ofMembers [("output", .string e.output), ("stored_at", .string e.storedAt.zulu)]

def ofDatum? (d : Datum) : Option CacheEntry := do
  let r ← Record.of? ["output", "stored_at"] false d
  return {
    output := ← r.need? "output" Datum.text?
    storedAt := ← r.need? "stored_at" fun d => (Datum.text? d).bind Instant.read? }

end CacheEntry

/-- A schema in the history. -/
structure SchemaRecord where
  hash : String
  /-- The text of the recorded schema. -/
  schema : String
  recordedAt : Instant
deriving DecidableEq, Repr, Inhabited

/-- When a schema was recorded, to the second. -/
def SchemaRecord.recordedText (r : SchemaRecord) : String :=
  String.ofList
    ((Instant.civil { r.recordedAt with nano := 0 }).map fun c => if c = 'T' then ' ' else c)

structure Tables where
  /-- Recorded schemas, oldest first. -/
  history : List SchemaRecord := []
  renderings : Dict CacheEntry := .empty
deriving DecidableEq, Inhabited

structure Store where
  tables : Tables := {}
  /-- The tables as they were when the open transaction began. -/
  saved : Option Tables := none
deriving DecidableEq, Inhabited

namespace Store

def empty : Store := {}

/-! ## History -/

/-- Appends a schema to the history. -/
def record (store : Store) (hash schema : String) (now : Instant) : Store :=
  { store with tables := { store.tables with
      history := store.tables.history ++ [⟨hash, schema, now⟩] } }

/-- The schema recorded last. -/
def last? (store : Store) : Option SchemaRecord := store.tables.history.getLast?

/-- The number of recorded schemas, which is also the id of the last. -/
def count (store : Store) : Nat := store.tables.history.length

/-! ## Renderings -/

/-- Puts a rendering under a key. -/
def put (store : Store) (key : String) (entry : CacheEntry) : Store :=
  { store with tables := { store.tables with
      renderings := store.tables.renderings.insert key entry } }

/-- Drops all renderings. -/
def clear (store : Store) : Store :=
  { store with tables := { store.tables with renderings := .empty } }

/-- The renderings by key. It fails for the first one whose time cannot be read back. -/
def renderings (store : Store) : Except Error (List (String × CacheEntry)) :=
  match store.tables.renderings.entries.find? fun e => !e.2.storedAt.hasPlainYear with
  | some (key, _) => .error (.badTimestamp key)
  | none => .ok store.tables.renderings.entries

/-! ## Transactions -/

def begin (store : Store) : Except Error Store :=
  match store.saved with
  | some _ => .error (.storage .nestedBegin)
  | none => .ok { store with saved := some store.tables }

/-- Keeps what the transaction changed. -/
def commit (store : Store) : Except Error Store :=
  match store.saved with
  | some _ => .ok { store with saved := none }
  | none => .error (.storage .nothingToCommit)

/-- Takes back what the transaction changed. -/
def rollback (store : Store) : Except Error Store :=
  match store.saved with
  | some tables => .ok { tables := tables, saved := none }
  | none => .error (.storage .nothingToRollBack)

/-- Replaces all renderings in a transaction; the last of several under one key stays. -/
def replace (store : Store) (entries : List (String × CacheEntry)) : Except Error Store := do
  let started ← store.begin
  (entries.foldl (fun s entry => s.put entry.1 entry.2) started.clear).commit

end Store

end PageBlocks
