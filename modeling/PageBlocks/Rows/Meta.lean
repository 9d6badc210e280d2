import PageBlocks.Datum
import PageBlocks.Definitions.Encode
import PageBlocks.Entity

/-!
# The envelope of a block

Every rehydrated block carries an envelope: the variant it is of, where it sits,
and the stored form of every value that reading changed. The place of a nested
block is spelled out by the blocks and positions around it, and is what
renderings are cached under.
-/

namespace PageBlocks

/-- Key of a stored row under which it names its variant, by block or by id. -/
def variantTag : String := "acf_fc_layout"

/-- Key of a rehydrated block under which it carries its envelope. -/
def metaKey : String := "_meta"

/-- A stored value beside what it was read as. -/
structure StoredValue where
  raw : Value
  value : Value
deriving Repr, Inhabited

/-- The envelope of a rehydrated block. -/
structure BlockMeta where
  layout : String
  block : String
  /-- Id of the variant. -/
  key : String
  /-- The variant as the stored row names it. -/
  tag : String := ""
  /-- Position in the collection around the block. -/
  index : Nat
  /-- The layout for a top-level block, else the path of the collection around it. -/
  parent : String
  /-- The stored form of the values that reading changed, by path of the field. -/
  stored : Dict StoredValue := .empty
deriving Inhabited

namespace StoredValue

def toValue (s : StoredValue) : Value := .ofMembers [("raw", s.raw), ("value", s.value)]

def ofDatum? (d : Datum) : Option StoredValue := do
  let r ← Record.of? ["raw", "value"] false d
  return { raw := ← r.need? "raw" Datum.toValue?, value := ← r.need? "value" Datum.toValue? }

end StoredValue

/-- The path of a field, behind its group if it is in one. -/
def fieldPath (group : Option FieldGroup) (trail : String) : String :=
  match group with
  | some g => g.name ++ "." ++ trail
  | none => trail

/-- The trail of a row in a repeater. -/
def rowTrail (trail : String) (position : Nat) : String := trail ++ "." ++ toString position

/-- The trail of a sub-field. -/
def subTrail (trail name : String) : String := trail ++ "." ++ name

namespace BlockMeta

/-- The path of the collection in a field of the block. -/
def collectionPath (m : BlockMeta) (trail : String) : String :=
  m.parent ++ "/" ++ toString m.index ++ ":" ++ m.block ++ "/" ++ trail

/-- The variant as it is written back. -/
def storedTag (m : BlockMeta) : String := if m.tag = "" then m.block else m.tag

/-- Stored forms are left out where there are none. -/
def toValue (m : BlockMeta) : Value :=
  .ofMembers ([
    ("layout", .string m.layout), ("block", .string m.block), ("key", .string m.key),
    ("tag", .string m.tag), ("index", .int m.index), ("parent", .string m.parent)] ++
    if m.stored.isEmpty then []
    else [("stored", .ofDict (m.stored.map fun _ s => s.toValue))])

def memberNames : List String := ["layout", "block", "key", "tag", "index", "parent", "stored"]

def ofDatum? (d : Datum) : Option BlockMeta := do
  let r ← Record.of? memberNames false d
  return {
    layout := ← r.need? "layout" Datum.text?
    block := ← r.need? "block" Datum.text?
    key := ← r.need? "key" Datum.text?
    tag := ← r.orElse? "tag" Datum.text? ""
    index := ← r.need? "index" (Datum.count? 18446744073709551616)
    parent := ← r.need? "parent" Datum.text?
    stored := ← r.orElse? "stored" (Datum.dict? StoredValue.ofDatum?) .empty }

/-- The envelope among the members of a block. -/
def ofMembers? (members : List (String × Value)) : Option BlockMeta :=
  (Entries.get? metaKey members).bind fun v => ofDatum? (.ofValue v)

/-- The envelope of a rehydrated block. -/
def ofData? (data : Value) : Option BlockMeta := data.members?.bind ofMembers?

end BlockMeta

end PageBlocks
