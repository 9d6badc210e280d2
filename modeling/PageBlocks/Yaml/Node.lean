import PageBlocks.Yaml.Token

/-!
# Nodes

The tree of a YAML document. An anchor gives its node a number, the count of
different anchor names before it; an alias refers to a node by number. A name
that is given again, and what comes after it, can therefore share a number, and
then the last of the nodes with it is meant.
-/

namespace PageBlocks.Yaml

inductive Node where
  | alias (number : Nat)
  | scalar (anchor : Option Nat) (tag : Option String) (style : ScalarStyle) (text : String)
  | sequence (anchor : Option Nat) (tag : Option String) (items : List Node)
  | mapping (anchor : Option Nat) (tag : Option String) (members : List (Node × Node))
deriving Inhabited

/-- What stands where a node is left out. -/
def Node.missing : Node := .scalar none none .plain ""

mutual
/-- The number of aliases and scalars in a node, and of beginnings and ends of collections. -/
def Node.size : Node → Nat
  | .alias _ | .scalar .. => 1
  | .sequence _ _ items => 2 + sizeOfItems items
  | .mapping _ _ members => 2 + sizeOfMembers members

def sizeOfItems : List Node → Nat
  | [] => 0
  | item :: rest => item.size + sizeOfItems rest

def sizeOfMembers : List (Node × Node) → Nat
  | [] => 0
  | (key, value) :: rest => key.size + value.size + sizeOfMembers rest
end

/-- A document, with its nodes by number in the order they begin. -/
structure Document where
  root : Node
  anchored : List (Nat × Node)
deriving Inhabited

/-- Reading what a document holds, with a number of aliases that may still be followed. -/
abbrev Reading := StateT Nat Option

namespace Compose

/-- What is known on the way through the tokens. -/
structure State where
  tokens : List Token
  /-- What the handles of tags stand for. -/
  handles : List (String × String)
  /-- Numbers of the anchor names so far. -/
  anchors : List (String × Nat) := []

abbrev Step := StateT State Option

def peek : Step Token := do
  match (← get).tokens with
  | t :: _ => return t
  | [] => failure

def pass : Step Unit := modify fun s => { s with tokens := s.tokens.tail }

/-- Passes a token that must stand here. -/
def expect (t : Token) : Step Unit := do
  if (← peek) = t then pass else failure

/-- The number of a new anchor. -/
def number (name : String) : Step Nat := do
  let s ← get
  let n := s.anchors.length
  set { s with anchors := (name, n) :: s.anchors.filter fun a => a.1 ≠ name }
  return n

/-- The tag that a handle and a suffix make. -/
def tagOf (handle suffix : String) : Step String := do
  if handle = "" then return suffix
  else
    match (← get).handles.lookup handle with
    | some lead => return lead ++ suffix
    | none => failure

def anchor? : Step (Option Nat) := do
  match ← peek with
  | .anchor name => do
    pass
    return some (← number name)
  | _ => return none

def tag? : Step (Option String) := do
  match ← peek with
  | .tag handle suffix => do
    pass
    return some (← tagOf handle suffix)
  | _ => return none

/-- An anchor and a tag, in either order. -/
def properties : Step (Option Nat × Option String) := do
  match ← anchor? with
  | some n => return (some n, ← tag?)
  | none => do
    let tag ← tag?
    if tag.isSome then return (← anchor?, tag) else return (none, none)

/-- Where a node may stand. -/
inductive Place where
  /-- Inside brackets. -/
  | flow
  | block
  /-- Where a sequence need not be indented. -/
  | member
deriving DecidableEq

/-- Whether a token cannot begin the node of a block mapping. -/
def endsMember (t : Token) : Bool := t == .key || t == .value || t == .blockEnd

mutual
/-- A node. -/
def node (fuel : Nat) (place : Place) : Step Node :=
  match fuel with
  | 0 => failure
  | fuel + 1 => do
    match ← peek with
    | .alias name => do
      pass
      match (← get).anchors.lookup name with
      | some n => return .alias n
      | none => failure
    | _ => do
      let (anchor, tag) ← properties
      match ← peek with
      | .scalar style text => do
        pass
        return .scalar anchor tag style text
      | .flowSequence => do
        pass
        return .sequence anchor tag (← flowItems fuel true)
      | .flowMapping => do
        pass
        return .mapping anchor tag (← flowMembers fuel true)
      | t =>
        if t = .blockEntry ∧ place = .member then
          return .sequence anchor tag (← looseItems fuel)
        else if t = .blockSequence ∧ place ≠ .flow then do
          pass
          return .sequence anchor tag (← blockItems fuel)
        else if t = .blockMapping ∧ place ≠ .flow then do
          pass
          return .mapping anchor tag (← blockMembers fuel)
        else if anchor.isSome ∨ tag.isSome then return .scalar anchor tag .plain ""
        else failure

/-- Items of an indented sequence. -/
def blockItems (fuel : Nat) : Step (List Node) :=
  match fuel with
  | 0 => failure
  | fuel + 1 => do
    match ← peek with
    | .blockEntry => do
      pass
      let t ← peek
      let item ←
        if t = .blockEntry ∨ t = .blockEnd then pure Node.missing else node fuel .block
      return item :: (← blockItems fuel)
    | .blockEnd => do
      pass
      return []
    | _ => failure

/-- Items of a sequence that is indented no further than its key. -/
def looseItems (fuel : Nat) : Step (List Node) :=
  match fuel with
  | 0 => failure
  | fuel + 1 => do
    match ← peek with
    | .blockEntry => do
      pass
      let t ← peek
      let item ←
        if t = .blockEntry ∨ endsMember t then pure Node.missing else node fuel .block
      return item :: (← looseItems fuel)
    | _ => return []

/-- Members of a block mapping. -/
def blockMembers (fuel : Nat) : Step (List (Node × Node)) :=
  match fuel with
  | 0 => failure
  | fuel + 1 => do
    match ← peek with
    | .key => do
      pass
      let key ← if endsMember (← peek) then pure Node.missing else node fuel .member
      let value ← blockValue fuel
      return (key, value) :: (← blockMembers fuel)
    | .blockEnd => do
      pass
      return []
    | _ => failure

/-- The value of a member of a block mapping. -/
def blockValue (fuel : Nat) : Step Node :=
  match fuel with
  | 0 => failure
  | fuel + 1 => do
    match ← peek with
    | .value => do
      pass
      if endsMember (← peek) then return Node.missing else node fuel .member
    | _ => return Node.missing

/-- Items between brackets. A key among them is a mapping of one member. -/
def flowItems (fuel : Nat) (first : Bool) : Step (List Node) :=
  match fuel with
  | 0 => failure
  | fuel + 1 => do
    if (← peek) = .flowSequenceEnd then do
      pass
      return []
    else do
      if !first then expect .flowEntry
      match ← peek with
      | .flowSequenceEnd => do
        pass
        return []
      | .key => do
        pass
        let t ← peek
        let key ←
          if t = .value ∨ t = .flowEntry ∨ t = .flowSequenceEnd then do
            -- No key: the token that shows it is used up as well.
            pass
            pure Node.missing
          else node fuel .flow
        let value ← flowValue fuel .flowSequenceEnd
        return .mapping none none [(key, value)] :: (← flowItems fuel false)
      | _ => do
        let item ← node fuel .flow
        return item :: (← flowItems fuel false)

/-- Members between braces. -/
def flowMembers (fuel : Nat) (first : Bool) : Step (List (Node × Node)) :=
  match fuel with
  | 0 => failure
  | fuel + 1 => do
    if (← peek) = .flowMappingEnd then do
      pass
      return []
    else do
      if !first then expect .flowEntry
      match ← peek with
      | .flowMappingEnd => do
        pass
        return []
      | .key => do
        pass
        let t ← peek
        let key ←
          if t = .value ∨ t = .flowEntry ∨ t = .flowMappingEnd then pure Node.missing
          else node fuel .flow
        let value ← flowValue fuel .flowMappingEnd
        return (key, value) :: (← flowMembers fuel false)
      | _ => do
        let key ← node fuel .flow
        return (key, Node.missing) :: (← flowMembers fuel false)

/-- The value behind a key inside brackets that a token closes. -/
def flowValue (fuel : Nat) (closing : Token) : Step Node :=
  match fuel with
  | 0 => failure
  | fuel + 1 => do
    match ← peek with
    | .value => do
      pass
      let t ← peek
      if t = .flowEntry ∨ t = closing then return Node.missing else node fuel .flow
    | _ => return Node.missing
end

/-! ## Documents -/

/-- The handles that need no definition. -/
def standardHandles : List (String × String) := [("!", "!"), ("!!", "tag:yaml.org,2002:")]

/-- Directives before a document: at most one version, and no handle twice. -/
def directives? : List Token → (version : Bool) → (handles : List (String × String)) →
    Option (List (String × String) × List Token)
  | .version major minor :: rest, version, handles =>
    if version ∨ major ≠ 1 ∨ (minor ≠ 1 ∧ minor ≠ 2) then none else directives? rest true handles
  | .handleDefinition handle lead :: rest, version, handles =>
    if (handles.lookup handle).isSome then none
    else directives? rest version (handles ++ [(handle, lead)])
  | tokens, _, handles => some (handles, tokens)

/-- Whether a token stands where a document has no contents. -/
def endsDocument : Token → Bool
  | .version .. | .handleDefinition .. | .documentStart | .documentEnd | .streamEnd => true
  | _ => false

/-- Whether nothing but ends of documents follow. -/
def isLast (tokens : List Token) : Bool :=
  tokens.dropWhile (· == .documentEnd) == [.streamEnd]

mutual
/-- Nodes with a number, in the order they begin. -/
def anchored : Node → List (Nat × Node)
  | .alias _ => []
  | .scalar anchor tag style text =>
    (anchor.map fun n => (n, .scalar anchor tag style text)).toList
  | .sequence anchor tag items =>
    (anchor.map fun n => (n, .sequence anchor tag items)).toList ++ anchoredItems items
  | .mapping anchor tag members =>
    (anchor.map fun n => (n, .mapping anchor tag members)).toList ++ anchoredMembers members

def anchoredItems : List Node → List (Nat × Node)
  | [] => []
  | item :: rest => anchored item ++ anchoredItems rest

def anchoredMembers : List (Node × Node) → List (Nat × Node)
  | [] => []
  | (key, value) :: rest => anchored key ++ anchored value ++ anchoredMembers rest
end

end Compose

namespace Document

open Compose in
/-- The document of some tokens, or nothing where there is none. Outside stands nothing for
tokens that are not one document. -/
def ofTokens? (tokens : List Token) : Option (Option Document) :=
  match tokens with
  | [.streamEnd] => some none
  | first :: _ => do
    let (handles, body) ← directives? tokens false []
    let explicit := body.head? == some .documentStart
    if !explicit ∧ endsDocument first then none
    let body := if explicit then body.tail else body
    let all := handles ++ standardHandles.filter fun h => (handles.lookup h.1).isNone
    let (root, rest) ←
      if explicit ∧ body.head?.all endsDocument then some (Node.missing, body)
      else do
        let (root, s) ← (node (4 * tokens.length + 4) .block).run { tokens := body, handles := all }
        some (root, s.tokens)
    if isLast rest then return some { root := root, anchored := Compose.anchored root } else none
  | [] => none

/-- The document that a text holds. -/
def read? (text : String) : Option (Option Document) := (tokens? text).bind ofTokens?

/-- How many aliases may be followed while a document is read, each as often as it is met. -/
def aliasLimit (d : Document) : Nat := 100 * d.root.size

/-- The node that is meant by one, which is another only for an alias. -/
def follow (d : Document) : Node → Reading Node
  | .alias n => do
    match ← get with
    | 0 => failure
    | left + 1 =>
      set left
      ((d.anchored.reverse.find? fun a => a.1 == n).map (·.2) : Option Node)
  | node => return node

end Document

end PageBlocks.Yaml
