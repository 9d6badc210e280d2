import PageBlocks.Rows.Meta
import PageBlocks.Schema.Index
import PageBlocks.Notice

/-!
# Flattening blocks

The way back from rehydrated blocks to stored rows. Names become ids again by
the envelope's variant; a value that is still what reading made of it gets its
stored form back. A field of a group that the index does not know is dropped,
any other unknown name is kept. What has no envelope stays as it is.
-/

namespace PageBlocks

namespace Flatten

/-- The storage form of a value: the recorded one if the value was not edited; a switch else is
stored as a number. -/
def leaf (stored : Dict StoredValue) (path : String) (node : NodeType) (value : Value) : Value :=
  match (stored.get? path).filter fun s => s.value == value with
  | some s => s.raw
  | none =>
    match node, value with
    | .field .trueFalse, .bool b => .int (if b then 1 else 0)
    | _, value => value

section

variable (index : FlatIndex)

mutual
/-- Writes a value of a field back. -/
def value (stored : Dict StoredValue) (group : Option FieldGroup) (trail : String)
    (entry : IndexEntry) : Value → Value
  | .array items =>
    match entry.node.shape with
    | .collection => .array (blocks items)
    | .rows => .array (rows stored group trail entry 0 items)
    | .fields => .array items
    | _ => leaf stored (fieldPath group trail) entry.node (.array items)
  | .object members =>
    match entry.node.shape with
    | .collection | .rows => .object members
    | .fields => .object (Entries.ofList (fields stored group trail entry members))
    | _ => leaf stored (fieldPath group trail) entry.node (.object members)
  | v =>
    match entry.node.shape with
    | .collection | .rows | .fields => v
    | _ => leaf stored (fieldPath group trail) entry.node v

/-- Writes the rows of a repeater back. -/
def rows (stored : Dict StoredValue) (group : Option FieldGroup) (trail : String)
    (entry : IndexEntry) (position : Nat) : List Value → List Value
  | [] => []
  | .object members :: rest =>
    .object (Entries.ofList (fields stored group (rowTrail trail position) entry members)) ::
      rows stored group trail entry (position + 1) rest
  | row :: rest => row :: rows stored group trail entry (position + 1) rest

/-- Writes an object of sub-fields back: names become ids. -/
def fields (stored : Dict StoredValue) (group : Option FieldGroup) (trail : String)
    (parent : IndexEntry) : List (String × Value) → List (String × Value)
  | [] => []
  | (name, v) :: rest =>
    (match index.child? parent.key parent.group name with
      | some entry => (entry.key, value stored group (subTrail trail name) entry v)
      | none => (name, v)) :: fields stored group trail parent rest

/-- Writes the blocks of a collection back. -/
def blocks : List Value → List Value
  | [] => []
  | data :: rest => block data :: blocks rest

/-- Writes one block back. -/
def block : Value → Value
  | .object members =>
    match BlockMeta.ofMembers? members with
    | some m =>
      .object (Entries.ofList ((variantTag, .string m.storedTag) :: blockMembers m members))
    | none => .object members
  | v => v

/-- Writes the members of a block back: its groups and whatever stands beside them. -/
def blockMembers (m : BlockMeta) : List (String × Value) → List (String × Value)
  | [] => []
  | (name, .object inner) :: rest =>
    (if name = metaKey then []
      else
        match FieldGroup.ofName? name with
        | some group => groupMembers m group inner
        | none =>
          match index.child? m.key none name with
          | some entry => [(entry.key, value m.stored none name entry (.object inner))]
          | none => [(name, .object inner)]) ++ blockMembers m rest
  | (name, v) :: rest =>
    (if name = metaKey then []
      else
        match index.child? m.key none name with
        | some entry => [(entry.key, value m.stored none name entry v)]
        | none => [(name, v)]) ++ blockMembers m rest

/-- Writes the fields of a group back. -/
def groupMembers (m : BlockMeta) (group : FieldGroup) :
    List (String × Value) → List (String × Value)
  | [] => []
  | (name, v) :: rest =>
    (match index.child? m.key (some group) name with
      | some entry => [(entry.key, value m.stored (some group) name entry v)]
      | none => []) ++ groupMembers m group rest
end

/-- Reports the fields of a group that are dropped. -/
def unknownNotices (m : BlockMeta) (group : FieldGroup) (name : String) : List Notice :=
  match index.child? m.key (some group) name with
  | some _ => []
  | none => [.noSuchField group.name name m.block]

mutual
/-- What is reported of a value. -/
def notices (entry : IndexEntry) : Value → List Notice
  | .array items =>
    match entry.node.shape with
    | .collection => blocksNotices items
    | .rows => rowNotices entry items
    | _ => []
  | .object members =>
    match entry.node.shape with
    | .fields => fieldNotices entry members
    | _ => []
  | _ => []

def rowNotices (entry : IndexEntry) : List Value → List Notice
  | [] => []
  | .object members :: rest => fieldNotices entry members ++ rowNotices entry rest
  | _ :: rest => rowNotices entry rest

def fieldNotices (parent : IndexEntry) : List (String × Value) → List Notice
  | [] => []
  | (name, v) :: rest =>
    (match index.child? parent.key parent.group name with
      | some entry => notices entry v
      | none => []) ++ fieldNotices parent rest

def blocksNotices : List Value → List Notice
  | [] => []
  | data :: rest => blockNotices data ++ blocksNotices rest

def blockNotices : Value → List Notice
  | .object members =>
    match BlockMeta.ofMembers? members with
    | some m => memberNotices m members
    | none => []
  | _ => []

def memberNotices (m : BlockMeta) : List (String × Value) → List Notice
  | [] => []
  | (name, .object inner) :: rest =>
    (if name = metaKey then []
      else
        match FieldGroup.ofName? name with
        | some group => groupNotices m group inner
        | none =>
          match index.child? m.key none name with
          | some entry => notices entry (.object inner)
          | none => []) ++ memberNotices m rest
  | (name, v) :: rest =>
    (if name = metaKey then []
      else
        match index.child? m.key none name with
        | some entry => notices entry v
        | none => []) ++ memberNotices m rest

def groupNotices (m : BlockMeta) (group : FieldGroup) : List (String × Value) → List Notice
  | [] => []
  | (name, v) :: rest =>
    (match index.child? m.key (some group) name with
      | some entry => notices entry v
      | none => unknownNotices index m group name) ++ groupNotices m group rest
end

end

end Flatten

/-- Writes one block back. -/
def flattenBlock (index : FlatIndex) (data : Value) : Noted Value :=
  ⟨Flatten.block index data, Flatten.blockNotices index data⟩

/-- Writes the blocks of a layout back. -/
def flattenLayout (index : FlatIndex) (blocks : List Value) : Noted (List Value) :=
  ⟨Flatten.blocks index blocks, Flatten.blocksNotices index blocks⟩

end PageBlocks
