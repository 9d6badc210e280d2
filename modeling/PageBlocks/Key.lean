import PageBlocks.Text.Digest

/-!
# Node ids

Every compiled node is addressed by the ordered path of names that leads to it,
and its id is derived from that path alone: a fixed lead that tells the kind of
node, and the first 32 hexadecimal digits of the SHA-256 digest of a domain
tag, a zero byte, and the names joined by `:`. Ids are stored next to content,
so the derivation is part of the storage format (`keyScheme`).
-/

namespace PageBlocks

/-- Version of the derivation of ids. -/
def keyScheme : Nat := 1

/-- What an id stands for. -/
inductive KeyKind where
  | group
  | field
  | block
deriving DecidableEq, Repr

namespace KeyKind

def all : List KeyKind := [.group, .field, .block]

def name : KeyKind → String
  | .group => "group"
  | .field => "field"
  | .block => "block"

def ofName? (s : String) : Option KeyKind := all.find? fun k => k.name == s

/-- How ids of a kind begin. -/
def lead (k : KeyKind) : String := k.name ++ "_"

end KeyKind

/-- An ordered list of names. -/
structure KeyPath where
  segments : List String
deriving DecidableEq, Repr, Inhabited

namespace KeyPath

def empty : KeyPath := ⟨[]⟩

/-- A path of one name. -/
def root (segment : String) : KeyPath := ⟨[segment]⟩

/-- The path with one more name at its end. -/
def child (path : KeyPath) (segment : String) : KeyPath := ⟨path.segments ++ [segment]⟩

/-- The names joined by `:`, which no valid name contains. -/
def joined (path : KeyPath) : String := String.intercalate ":" path.segments

end KeyPath

/-- Digits of the digest that an id keeps. -/
def keyDigits : Nat := 32

/-- What is hashed for a path. -/
def keyPreimage (path : KeyPath) : String := "blockpress:key:v1\x00" ++ path.joined

/-- The digits of an id. -/
def keyDigest (text : String) : String :=
  String.ofList ((Digest.hex (Digest.sha256 text.toUTF8.data.toList)).take keyDigits)

/-- The id of the node at a path. -/
def KeyPath.encode (path : KeyPath) (kind : KeyKind) : String :=
  kind.lead ++ keyDigest (keyPreimage path)

/-- The id of the node with a name under a path. -/
def deriveKey (kind : KeyKind) (parent : KeyPath) (name : String) : String :=
  (parent.child name).encode kind

end PageBlocks
