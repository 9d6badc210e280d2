import PageBlocks.Store
import PageBlocks.Value.Reader
import PageBlocks.Value.Writer

/-!
# Stores as text

How a store is written to a file between two runs: its tables as one value. A
transaction that is open is not written.
-/

namespace PageBlocks

namespace SchemaRecord

def toValue (r : SchemaRecord) : Value :=
  .ofMembers [("hash", .string r.hash), ("schema", .string r.schema),
    ("recorded_at", .string r.recordedAt.zulu)]

def ofDatum? (d : Datum) : Option SchemaRecord := do
  let r ← Record.of? ["hash", "schema", "recorded_at"] true d
  return {
    hash := ← r.need? "hash" Datum.text?
    schema := ← r.need? "schema" Datum.text?
    recordedAt := ← r.need? "recorded_at" fun d => (Datum.text? d).bind Instant.read? }

end SchemaRecord

namespace Store

def toValue (store : Store) : Value :=
  .ofMembers [
    ("history", .array (store.tables.history.map SchemaRecord.toValue)),
    ("renderings", .ofDict (store.tables.renderings.map fun _ e => e.toValue))]

def ofDatum? (d : Datum) : Option Store := do
  let r ← Record.of? ["history", "renderings"] true d
  return { tables := {
    history := ← r.need? "history" (Datum.list? SchemaRecord.ofDatum?)
    renderings := ← r.need? "renderings" (Datum.dict? CacheEntry.ofDatum?) } }

/-- The text of a store file. -/
def text (store : Store) : String := store.toValue.compact

/-- The store that a text holds. -/
def ofText? (text : String) : Option Store :=
  (JsonText.read? text).bind fun v => ofDatum? (.ofValue v)

end Store

end PageBlocks
