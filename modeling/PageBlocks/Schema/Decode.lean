import PageBlocks.Schema.Basic
import PageBlocks.Datum

/-!
# Compiled schemas from data

Reading of recorded schemas and of single parts of them. A field is only ever
an object, since whatever it does not know is kept as an option; every other
record may also be an array. Fields and variants hold one another, so they are
read to a depth that the depth of the datum bounds.
-/

namespace PageBlocks

open Datum

namespace Datum

mutual
/-- How many arrays and objects enclose the innermost datum. -/
def depth : Datum → Nat
  | .array items => depthItems items + 1
  | .object members => depthMembers members + 1
  | _ => 0

def depthItems : List Datum → Nat
  | [] => 0
  | d :: ds => max (depth d) (depthItems ds)

def depthMembers : List (Datum × Datum) → Nat
  | [] => 0
  | (_, d) :: ms => max (depth d) (depthMembers ms)
end

end Datum

def Wrapper.ofDatum? (d : Datum) : Option Wrapper := do
  let r ← Record.of? ["width", "class", "id"] false d
  return {
    width := ← r.orElse? "width" text? ""
    cssClass := ← r.orElse? "class" text? ""
    id := ← r.orElse? "id" text? "" }

namespace FieldNode

/-- Names of the members that are no options. -/
def memberNames : List String :=
  ["key", "label", "name", "type", "instructions", "required", "conditional_logic", "wrapper",
    "sub_fields", "layouts"]

/-- Whether a member is an option. -/
def isOption (member : Datum × Datum) : Bool :=
  match member.1 with
  | .string k => !memberNames.contains k
  | _ => true

end FieldNode

mutual
/-- A field, to a depth. -/
def FieldNode.read? : Nat → Datum → Option FieldNode
  | depth + 1, .object members => do
    let own := members.filter fun m => !FieldNode.isOption m
    let r ← Record.of? FieldNode.memberNames false (.object own)
    return ⟨
      ← r.need? "key" text?, ← r.need? "label" text?, ← r.need? "name" text?,
      ← r.need? "type" (choice? FieldKind.ofName?),
      ← r.orElse? "instructions" text? "",
      ← r.orElse? "required" (count? 256) 0,
      ← r.orElse? "conditional_logic" ConditionalLogic.ofDatum? .always,
      ← r.orElse? "wrapper" Wrapper.ofDatum? {},
      .ofList (← toMembers? (members.filter FieldNode.isOption)),
      ← r.orElse? "sub_fields" (list? (FieldNode.read? depth)) [],
      ← r.orElse? "layouts"
        (fun d => (dict? (BlockNode.read? depth) d).map fun variants => variants.entries) []⟩
  | _, _ => none

/-- A block variant, to a depth. -/
def BlockNode.read? : Nat → Datum → Option BlockNode
  | depth + 1, d => do
    let r ← Record.of? ["key", "name", "label", "display", "sub_fields", "min", "max"] false d
    return ⟨
      ← r.need? "key" text?, ← r.need? "name" text?, ← r.need? "label" text?,
      ← r.need? "display" text?,
      ← r.need? "sub_fields" (list? (FieldNode.read? depth)),
      ← r.orElse? "min" text? "", ← r.orElse? "max" text? ""⟩
  | 0, _ => none
end

def FieldNode.ofDatum? (d : Datum) : Option FieldNode := FieldNode.read? d.depth d

def BlockNode.ofDatum? (d : Datum) : Option BlockNode := BlockNode.read? d.depth d

def LocationRule.ofDatum? (d : Datum) : Option LocationRule := do
  let r ← Record.of? ["param", "operator", "value"] false d
  return {
    param := ← r.need? "param" text?
    operator := ← r.need? "operator" text?
    value := ← r.need? "value" text? }

namespace FieldGroupNode

/-- A number of 32 bits with a sign. -/
def order? : Datum → Option Int
  | .int n => if -2147483648 ≤ n ∧ n < 2147483648 then some n else none
  | _ => none

def memberNames : List String :=
  ["key", "title", "description", "fields", "location", "menu_order", "position", "style",
    "label_placement", "instruction_placement", "hide_on_screen", "active"]

def ofDatum? (d : Datum) : Option FieldGroupNode := do
  let r ← Record.of? memberNames false d
  return {
    key := ← r.need? "key" text?
    title := ← r.need? "title" text?
    description := ← r.need? "description" text?
    fields := ← r.need? "fields" (list? FieldNode.ofDatum?)
    location := ← r.need? "location" (list? (list? LocationRule.ofDatum?))
    menuOrder := ← r.need? "menu_order" order?
    position := ← r.need? "position" text?
    style := ← r.need? "style" text?
    labelPlacement := ← r.need? "label_placement" text?
    instructionPlacement := ← r.need? "instruction_placement" text?
    hideOnScreen := ← r.need? "hide_on_screen" text?
    active := ← r.need? "active" (count? 256) }

end FieldGroupNode

def EntityRef.ofDatum? (d : Datum) : Option EntityRef := do
  let r ← Record.of? ["type", "name"] false d
  return {
    type := ← r.need? "type" (choice? EntityType.ofName?)
    name := ← r.need? "name" text? }

def FieldGroup.ofDatum? (d : Datum) : Option FieldGroup := choice? FieldGroup.ofName? d

namespace NodeType

/-- The type of node under its name, where the kind of field may be left out for nodes that have
none. -/
def ofParts? (name : String) (kind : Option Datum) : Option NodeType :=
  if name = "field" then
    kind.bind fun d => (choice? FieldKind.ofName? d).map .field
  else
    let plain : Option NodeType :=
      if name = "layout" then some .layout else if name = "block" then some .block else none
    match kind with
    | none | some .null => plain
    | some _ => none

/-- A record of a name and a kind of field. As an array it must hold both, the name as a text. -/
def ofDatum? : Datum → Option NodeType
  | .array [node, kind] => do ofParts? (← text? node) (some kind)
  | .array _ => none
  | d => do
    let r ← Record.of? ["node", "type"] false d
    ofParts? (← r.need? "node" (choice? some)) (Entries.get? "type" r.present)

end NodeType

namespace IndexEntry

def memberNames : List String :=
  ["key", "name", "entity", "field_group", "node", "parent", "layout", "is_block_boundary",
    "return_format"]

def ofDatum? (d : Datum) : Option IndexEntry := do
  let r ← Record.of? memberNames false d
  return {
    key := ← r.need? "key" text?
    name := ← r.need? "name" text?
    entity := ← r.need? "entity" EntityRef.ofDatum?
    group := ← r.nullable? "field_group" FieldGroup.ofDatum?
    node := ← r.need? "node" NodeType.ofDatum?
    parent := ← r.nullable? "parent" text?
    layout := ← r.nullable? "layout" text?
    isBoundary := ← r.need? "is_block_boundary" flag?
    returnFormat := ← r.nullable? "return_format" text? }

end IndexEntry

def FlatIndex.ofDatum? (d : Datum) : Option FlatIndex := do
  let r ← Record.of? ["entries", "children", "layouts", "controls"] false d
  return {
    entries := ← r.need? "entries" (dict? IndexEntry.ofDatum?)
    children := ← r.need? "children" (dict? (dict? text?))
    layouts := ← r.need? "layouts" (dict? text?)
    controls := ← r.orElse? "controls" (dict? text?) .empty }

namespace CompiledSchema

def ofDatum? (d : Datum) : Option CompiledSchema := do
  let r ← Record.of? ["group", "flatmap", "source_hash", "key_scheme", "compiled_at"] false d
  return {
    group := ← r.need? "group" FieldGroupNode.ofDatum?
    index := ← r.need? "flatmap" FlatIndex.ofDatum?
    sourceHash := ← r.need? "source_hash" text?
    keyScheme := ← r.need? "key_scheme" (count? 4294967296)
    compiledAt := ← r.need? "compiled_at" fun d => (text? d).bind Instant.read? }

/-- The schema that a value encodes. -/
def ofValue? (v : Value) : Option CompiledSchema := ofDatum? (.ofValue v)

end CompiledSchema

end PageBlocks
