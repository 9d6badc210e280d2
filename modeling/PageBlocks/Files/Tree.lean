import PageBlocks.Store
import PageBlocks.Files.Path

/-!
# File trees

Files and directories, with the place where relative paths start. A path is
walked piece by piece, and each piece but the last must lead to a directory: so
`a/..` leads nowhere when there is no `a`, and `a/` leads nowhere when `a` is a
file. Every directory above a file is in the tree too, and stays when its last
file is removed; the topmost directory always exists.
-/

namespace PageBlocks

/-- What stands at a place. -/
inductive FileNode where
  | directory
  | text (content : String)
  /-- A file that holds a system store, which is no text. -/
  | store (content : Store)
  /-- Any other file that holds no text. -/
  | unreadable
deriving DecidableEq, Inhabited

/-- The names on the way from the topmost directory. -/
abbrev Place := List String

/-- Files and directories by their place. -/
structure FileTree where
  nodes : Dict FileNode := .empty
  /-- Where relative paths start. -/
  here : Place := []
deriving DecidableEq, Inhabited

namespace FileTree

/-- The key of a place. -/
def keyOf (place : Place) : String := String.intercalate "/" place

/-- What stands at a place. -/
def nodeAt? (tree : FileTree) (place : Place) : Option FileNode :=
  if place.isEmpty then some .directory else tree.nodes.get? (keyOf place)

/-- Puts a node at a place, with the directories above it. -/
def putAt (tree : FileTree) (place : Place) (node : FileNode) : FileTree :=
  let above := (List.range place.length).tail.map fun n =>
    (keyOf (place.take n), FileNode.directory)
  { tree with
    nodes := (above ++ [(keyOf place, node)]).foldl (fun nodes n => nodes.insert n.1 n.2)
      tree.nodes }

/-- A tree of the directories on the way to a place, where relative paths start. -/
def startingAt (place : Place) : FileTree :=
  if place.isEmpty then {} else putAt { here := place } place .directory

/-! ## Walking -/

/-- Whether a piece of a path can be the name of a file. -/
def isName (piece : String) : Bool :=
  piece.utf8ByteSize ≤ 255 && !piece.toList.contains (Char.ofNat 0)

/-- Where a piece of a path leads from a place, which must be a directory. -/
def step? (tree : FileTree) (place : Place) (piece : String) : Option Place :=
  if tree.nodeAt? place ≠ some .directory then none
  else if piece = "" ∨ piece = "." then some place
  else if piece = ".." then some place.dropLast
  else if isName piece then some (place ++ [piece])
  else none

/-- Where a path starts. -/
def startOf (tree : FileTree) (path : String) : Place :=
  if path.startsWith "/" then [] else tree.here

/-- The place that a path leads to, whether anything stands there or not. -/
def place? (tree : FileTree) (path : String) : Option Place :=
  if path = "" then none else (Path.pieces path).foldlM tree.step? (tree.startOf path)

/-- What a path leads to. -/
def node? (tree : FileTree) (path : String) : Option FileNode :=
  (tree.place? path).bind tree.nodeAt?

def exists? (tree : FileTree) (path : String) : Bool := (tree.node? path).isSome

def isDirectory (tree : FileTree) (path : String) : Bool := tree.node? path == some .directory

def isFile (tree : FileTree) (path : String) : Bool :=
  match tree.node? path with
  | some .directory | none => false
  | some _ => true

/-- The text of a file. -/
def read (tree : FileTree) (path : String) : Except Error String :=
  match tree.node? path with
  | some (.text content) => .ok content
  | _ => .error .unreadable

/-- Names of what stands directly below a place, ascending. -/
def namesAt (tree : FileTree) (place : Place) : List String :=
  (tree.nodes.keys.filterMap fun key =>
    let parts := Path.pieces key
    if parts.length = place.length + 1 ∧ parts.take place.length = place then parts.getLast?
    else none).mergeSort fun a b => decide (a ≤ b)

/-- Names in a directory, ascending. -/
def names (tree : FileTree) (path : String) : List String :=
  ((tree.place? path).map tree.namesAt).getD []

/-- A bound on the depth of the tree. -/
def height (tree : FileTree) : Nat :=
  tree.nodes.keys.foldl (fun most key => max most (Path.pieces key).length) 0

/-! ## Changing -/

/-- Puts a file where a path leads, unless a directory stands there. -/
def put (tree : FileTree) (path : String) (node : FileNode) : Except Error FileTree :=
  match tree.place? path with
  | none => .error .unreadable
  | some place =>
    if tree.nodeAt? place = some .directory then .error .unreadable
    else .ok (tree.putAt place node)

/-- Makes directories of pieces of a path that are missing, from a place on. What was made stays
when a file is in the way. -/
def makeFrom (tree : FileTree) (place : Place) : List String → FileTree × Except Error Unit
  | [] => (tree, .ok ())
  | piece :: rest =>
    match tree.step? place piece with
    | none => (tree, .error .unreadable)
    | some place =>
      match tree.nodeAt? place with
      | none => (tree.putAt place .directory).makeFrom place rest
      | some .directory => tree.makeFrom place rest
      | some _ => (tree, .error .unreadable)

/-- Makes a directory and those above it, as the path is written. -/
def makeDirectories (tree : FileTree) (path : String) : FileTree × Except Error Unit :=
  if path = "" then (tree, .ok ()) else tree.makeFrom (tree.startOf path) (Path.pieces path)

/-- Writes a text file, and makes the directories above it. These stay when the file cannot be
written. -/
def write (tree : FileTree) (path content : String) : FileTree × Except Error Unit :=
  match tree.makeDirectories (Path.parent path) with
  | (tree, .error error) => (tree, .error error)
  | (tree, .ok ()) =>
    match tree.put path (.text content) with
    | .ok tree => (tree, .ok ())
    | .error error => (tree, .error error)

/-- Removes a file. -/
def remove (tree : FileTree) (path : String) : Except Error FileTree :=
  match tree.place? path with
  | none => .error .unreadable
  | some place =>
    match tree.nodeAt? place with
    | none | some .directory => .error .unreadable
    | some _ => .ok { tree with nodes := tree.nodes.erase (keyOf place) }

end FileTree

end PageBlocks
