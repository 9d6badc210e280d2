import PageBlocks.Rows.Meta
import PageBlocks.Rows.Normalise
import PageBlocks.Schema.Index
import PageBlocks.Notice

/-!
# Rehydrating rows

Stored rows map ids to raw values. Rehydration reads them by the index alone: a
block becomes an object of its field groups, with its envelope; nested
collections, repeater rows and groups are read the same way. What the index
does not know as a part of the row at hand is passed through.

Three walks go over a row in step: `value` reads it, `records` collects the
stored forms of what reading changed, up to the next collection, and `notices`
says what was passed through.
-/

namespace PageBlocks

namespace Rehydrate

/-- Where a value of a block goes. -/
inductive Placement where
  /-- Into the block itself. -/
  | plain (key : String) (value : Value)
  /-- Into one of its groups. -/
  | grouped (group : FieldGroup) (name : String) (value : Value)
deriving Inhabited

/-- Puts a value in its place. A group whose name is taken by something other than an object
cannot hold it. -/
def Placement.put (data : List (String × Value)) : Placement → List (String × Value)
  | .plain key value => Entries.insert key value data
  | .grouped group name value =>
    match Entries.get? group.name data with
    | none => Entries.insert group.name (.object [(name, value)]) data
    | some (.object fields) =>
      Entries.insert group.name (.object (Entries.insert name value fields)) data
    | some _ => data

/-- Places the value of a field. -/
def Placement.ofField (group : Option FieldGroup) (name : String) (value : Value) : Placement :=
  match group with
  | some g => .grouped g name value
  | none => .plain name value

/-- What a member of a block row is. -/
inductive Member where
  /-- The name of the variant. -/
  | tag
  /-- No field of the variant. -/
  | foreign
  /-- The marker that opens a group. -/
  | tab (group : Option FieldGroup)
  | field (entry : IndexEntry)

/-- What a member of a row of a variant is, by its key. -/
def member (index : FlatIndex) (key id : String) : Member :=
  if id = variantTag then .tag
  else
    match index.childEntry? key id with
    | none => .foreign
    | some entry => if entry.isTab then .tab entry.group else .field entry

/-- Reports an id that the index knows in another place. -/
def foreignNotices (index : FlatIndex) (parent id : String) : List Notice :=
  if (index.lookup id).isSome then [.foreignField id parent] else []

/-- The name of the variant in a row, and the variant of a collection that it stands for. -/
def variant? (index : FlatIndex) (collection : String) (row : List (String × Value)) :
    Option (String × IndexEntry) := do
  let tag ← (Entries.get? variantTag row).bind Value.string?
  let entry ← index.resolveVariant collection tag
  return (tag, entry)

/-- The envelope of a block at a position of a collection. -/
def metaAt (layout parent : String) (position : Nat) (tag : String) (entry : IndexEntry) :
    BlockMeta :=
  { layout := layout, block := entry.name, key := entry.key, tag := tag, index := position
    parent := parent }

section Records

variable (index : FlatIndex) (resolver : Resolver) (group : Option FieldGroup)

mutual
/-- The stored forms of the values under a field that reading changes. -/
def records (trail : String) (entry : IndexEntry) : Value → List (String × StoredValue)
  | .array items =>
    match entry.node.shape with
    | .rows => rowRecords trail entry 0 items
    | .leaf kind => leafRecords trail kind (.array items)
    | _ => []
  | .object members =>
    match entry.node.shape with
    | .fields => fieldRecords trail entry members
    | .leaf kind => leafRecords trail kind (.object members)
    | _ => []
  | raw =>
    match entry.node.shape with
    | .leaf kind => leafRecords trail kind raw
    | _ => []

/-- The stored forms in the rows of a repeater. -/
def rowRecords (trail : String) (entry : IndexEntry) (position : Nat) :
    List Value → List (String × StoredValue)
  | [] => []
  | .object members :: rest =>
    fieldRecords (rowTrail trail position) entry members ++
      rowRecords trail entry (position + 1) rest
  | _ :: rest => rowRecords trail entry (position + 1) rest

/-- The stored forms in an object of sub-fields. -/
def fieldRecords (trail : String) (parent : IndexEntry) :
    List (String × Value) → List (String × StoredValue)
  | [] => []
  | (id, raw) :: rest =>
    (match index.childEntry? parent.key id with
      | some entry => records (subTrail trail entry.name) entry raw
      | none => []) ++ fieldRecords trail parent rest

/-- The stored form of a value that reading changes. -/
def leafRecords (trail : String) (kind : FieldKind) (raw : Value) : List (String × StoredValue) :=
  let value := normalise resolver kind raw
  if raw == value then [] else [(fieldPath group trail, ⟨raw, value⟩)]
end

end Records

/-- The stored forms in a row of a variant. -/
def blockRecords (index : FlatIndex) (resolver : Resolver) (key : String)
    (opened : Option FieldGroup) : List (String × Value) → List (String × StoredValue)
  | [] => []
  | (id, raw) :: rest =>
    match member index key id with
    | .tag | .foreign => blockRecords index resolver key opened rest
    | .tab group => blockRecords index resolver key group rest
    | .field entry =>
      records index resolver (entry.group <|> opened) entry.name entry raw ++
        blockRecords index resolver key opened rest

/-- The block of the values in their places, with its envelope. -/
def assemble (m : BlockMeta) (placements : List Placement) : Value :=
  .object (Entries.insert metaKey m.toValue (placements.foldl Placement.put []))

section Values

variable (index : FlatIndex) (resolver : Resolver)

mutual
/-- Reads the value of a field in a block. -/
def value (m : BlockMeta) (trail : String) (entry : IndexEntry) : Value → Value
  | .array items =>
    match entry.node.shape with
    | .collection => .array (variantRows m.layout (m.collectionPath trail) entry.key 0 items)
    | .rows => .array (rows m trail entry 0 items)
    | .leaf kind => normalise resolver kind (.array items)
    | _ => .array items
  | .object members =>
    match entry.node.shape with
    | .fields => .object (Entries.ofList (fields m trail entry members))
    | .leaf kind => normalise resolver kind (.object members)
    | _ => .object members
  | raw =>
    match entry.node.shape with
    | .leaf kind => normalise resolver kind raw
    | _ => raw

/-- Reads the rows of a repeater. -/
def rows (m : BlockMeta) (trail : String) (entry : IndexEntry) (position : Nat) :
    List Value → List Value
  | [] => []
  | .object members :: rest =>
    .object (Entries.ofList (fields m (rowTrail trail position) entry members)) ::
      rows m trail entry (position + 1) rest
  | row :: rest => row :: rows m trail entry (position + 1) rest

/-- Reads an object of sub-fields: ids become names. -/
def fields (m : BlockMeta) (trail : String) (parent : IndexEntry) :
    List (String × Value) → List (String × Value)
  | [] => []
  | (id, raw) :: rest =>
    (match index.childEntry? parent.key id with
      | some entry => (entry.name, value m (subTrail trail entry.name) entry raw)
      | none => (id, raw)) :: fields m trail parent rest

/-- Reads the rows of a collection. -/
def variantRows (layout parent collection : String) (position : Nat) : List Value → List Value
  | [] => []
  | row :: rest =>
    variantRow layout parent collection position row ::
      variantRows layout parent collection (position + 1) rest

/-- Reads a row of a collection. One that names no variant of it stays as it is. -/
def variantRow (layout parent collection : String) (position : Nat) : Value → Value
  | .object members =>
    match variant? index collection members with
    | some (tag, entry) =>
      let m := metaAt layout parent position tag entry
      assemble { m with stored := .ofList (blockRecords index resolver m.key none members) }
        (placements m none members)
    | none => .object members
  | v => v

/-- Reads a row of a variant: every field in its group, which is that of the field or else the
one a tab has opened. -/
def placements (m : BlockMeta) (opened : Option FieldGroup) :
    List (String × Value) → List Placement
  | [] => []
  | (id, raw) :: rest =>
    match member index m.key id with
    | .tag => placements m opened rest
    -- Passed through beside the groups, under its own key.
    | .foreign => .plain id raw :: placements m opened rest
    | .tab group => placements m group rest
    | .field entry =>
      .ofField (entry.group <|> opened) entry.name (value m entry.name entry raw) ::
        placements m opened rest
end

/-- Reads one row of a block with a given envelope. -/
def row (m : BlockMeta) (members : List (String × Value)) : Value :=
  assemble { m with stored := .ofList (blockRecords index resolver m.key none members) }
    (placements index resolver m none members)

/-- Reads the rows of a layout. The rows of a layout that is not indexed stay as they are. -/
def layout (name : String) (stored : List Value) : List Value :=
  match index.layoutKey name with
  | some collection => variantRows index resolver name name collection 0 stored
  | none => stored

end Values

section Notices

variable (index : FlatIndex)

mutual
/-- What is reported of a value. -/
def notices (entry : IndexEntry) : Value → List Notice
  | .array items =>
    match entry.node.shape with
    | .collection => variantNotices entry.key items
    | .rows => rowNotices entry items
    | _ => []
  | .object members =>
    match entry.node.shape with
    | .fields => fieldNotices entry members
    | _ => []
  | _ => []

def rowNotices (entry : IndexEntry) : List Value → List Notice
  | [] => []
  | .object members :: rest => fieldNotices entry members ++ rowNotices entry rest
  | _ :: rest => rowNotices entry rest

def fieldNotices (parent : IndexEntry) : List (String × Value) → List Notice
  | [] => []
  | (id, raw) :: rest =>
    (match index.childEntry? parent.key id with
      | some entry => notices entry raw
      | none => foreignNotices index parent.key id) ++ fieldNotices parent rest

def variantNotices (collection : String) : List Value → List Notice
  | [] => []
  | row :: rest => variantNotice collection row ++ variantNotices collection rest

def variantNotice (collection : String) : Value → List Notice
  | .object members =>
    match variant? index collection members with
    | some (_, entry) => blockNotices entry.key members
    | none => [.unknownVariant collection]
  | _ => [.unknownVariant collection]

def blockNotices (key : String) : List (String × Value) → List Notice
  | [] => []
  | (id, raw) :: rest =>
    (match member index key id with
      | .tag | .tab _ => []
      | .foreign => foreignNotices index key id
      | .field entry => notices entry raw) ++ blockNotices key rest
end

/-- What is reported of the rows of a layout. -/
def layoutNotices (name : String) (stored : List Value) : List Notice :=
  match index.layoutKey name with
  | some collection => variantNotices index collection stored
  | none => [.layoutNotIndexed name]

end Notices

end Rehydrate

/-- Reads one row of a block with a given envelope. -/
def rehydrateRow (index : FlatIndex) (resolver : Resolver) (m : BlockMeta)
    (row : List (String × Value)) : Noted Value :=
  ⟨Rehydrate.row index resolver m row, Rehydrate.blockNotices index m.key row⟩

/-- Reads the rows of a layout. -/
def rehydrateLayout (index : FlatIndex) (resolver : Resolver) (layout : String)
    (rows : List Value) : Noted (List Value) :=
  ⟨Rehydrate.layout index resolver layout rows, Rehydrate.layoutNotices index layout rows⟩

end PageBlocks
