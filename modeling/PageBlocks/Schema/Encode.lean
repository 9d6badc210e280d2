import PageBlocks.Schema.Basic
import PageBlocks.Definitions.Encode

/-!
# Compiled schemas as values

Members ascend by key throughout. The options of a field stand between its own
members; sub-fields and variants are left out where there are none.
-/

namespace PageBlocks

def Wrapper.toValue (w : Wrapper) : Value :=
  .ofMembers [("width", .string w.width), ("class", .string w.cssClass), ("id", .string w.id)]

mutual
def FieldNode.toValue : FieldNode → Value
  | ⟨key, label, name, kind, instructions, required, logic, wrapper, options, subFields,
      layouts⟩ =>
    .ofMembers ([
      ("key", .string key), ("label", .string label), ("name", .string name),
      ("type", .string kind.name), ("instructions", .string instructions),
      ("required", .int required), ("conditional_logic", logic.toValue),
      ("wrapper", wrapper.toValue)] ++ options.entries ++
      (match subFields with
        | [] => []
        | fields => [("sub_fields", .array (FieldNode.toValues fields))]) ++
      (match layouts with
        | [] => []
        | variants => [("layouts", .object (BlockNode.toMembers variants))]))

def FieldNode.toValues : List FieldNode → List Value
  | [] => []
  | node :: rest => node.toValue :: FieldNode.toValues rest

def BlockNode.toValue : BlockNode → Value
  | ⟨key, name, label, display, subFields, min, max⟩ =>
    .ofMembers [
      ("key", .string key), ("name", .string name), ("label", .string label),
      ("display", .string display), ("sub_fields", .array (FieldNode.toValues subFields)),
      ("min", .string min), ("max", .string max)]

def BlockNode.toMembers : List (String × BlockNode) → List (String × Value)
  | [] => []
  | (id, node) :: rest => (id, node.toValue) :: BlockNode.toMembers rest
end

def LocationRule.toValue (r : LocationRule) : Value :=
  .ofMembers [
    ("param", .string r.param), ("operator", .string r.operator), ("value", .string r.value)]

def FieldGroupNode.toValue (g : FieldGroupNode) : Value :=
  .ofMembers [
    ("key", .string g.key), ("title", .string g.title), ("description", .string g.description),
    ("fields", .array (FieldNode.toValues g.fields)),
    ("location", .array (g.location.map fun rules => .array (rules.map LocationRule.toValue))),
    ("menu_order", .int g.menuOrder), ("position", .string g.position), ("style", .string g.style),
    ("label_placement", .string g.labelPlacement),
    ("instruction_placement", .string g.instructionPlacement),
    ("hide_on_screen", .string g.hideOnScreen), ("active", .int g.active)]

def EntityRef.toValue (e : EntityRef) : Value :=
  .ofMembers [("type", .string e.type.name), ("name", .string e.name)]

/-- The kind of node, with the kind of field under a member of its own. -/
def NodeType.toValue : NodeType → Value
  | .layout => .ofMembers [("node", .string "layout")]
  | .block => .ofMembers [("node", .string "block")]
  | .field kind => .ofMembers [("node", .string "field"), ("type", .string kind.name)]

def IndexEntry.toValue (e : IndexEntry) : Value :=
  .ofMembers [
    ("key", .string e.key), ("name", .string e.name), ("entity", e.entity.toValue),
    ("field_group", .ofText? (e.group.map FieldGroup.name)), ("node", e.node.toValue),
    ("parent", .ofText? e.parent), ("layout", .ofText? e.layout),
    ("is_block_boundary", .bool e.isBoundary), ("return_format", .ofText? e.returnFormat)]

def FlatIndex.toValue (index : FlatIndex) : Value :=
  .ofMembers [
    ("entries", .ofDict (index.entries.map fun _ e => e.toValue)),
    ("children", .ofDict (index.children.map fun _ slots =>
      .ofDict (slots.map fun _ key => .string key))),
    ("layouts", .ofDict (index.layouts.map fun _ key => .string key)),
    ("controls", .ofDict (index.controls.map fun _ key => .string key))]

def CompiledSchema.toValue (s : CompiledSchema) : Value :=
  .ofMembers [
    ("group", s.group.toValue), ("flatmap", s.index.toValue),
    ("source_hash", .string s.sourceHash), ("key_scheme", .int s.keyScheme),
    ("compiled_at", .string s.compiledAt.zulu)]

end PageBlocks
