import PageBlocks.Schema.FieldKind
import PageBlocks.Schema.Logic
import PageBlocks.Definitions.Basic
import PageBlocks.Value.Writer
import PageBlocks.Text.Quoted
import PageBlocks.Notice

/-!
# Compiled nodes

The tree that the storage of custom fields takes: a field group of fields,
where a collection of blocks holds one variant per block it offers, under the
variant's own id. A field carries the options of its kind, overridden by what
its declaration gives; names that the tree itself uses are never options.
-/

namespace PageBlocks

/-- Layout of a field in the editor. -/
structure Wrapper where
  width : String := ""
  cssClass : String := ""
  id : String := ""
deriving DecidableEq, Repr, Inhabited

mutual
/-- A compiled field. -/
structure FieldNode where
  key : String
  label : String
  name : String
  kind : FieldKind
  instructions : String
  /-- Zero or one in compiled trees, any byte in stored ones. -/
  required : Nat
  logic : ConditionalLogic
  wrapper : Wrapper
  options : Dict Value
  /-- Row template of group and repeater fields. -/
  subFields : List FieldNode
  /-- Block variants of a collection by their ids, which ascend. -/
  layouts : List (String × BlockNode)

/-- A block variant in a collection. -/
structure BlockNode where
  key : String
  name : String
  label : String
  display : String
  subFields : List FieldNode
  min : String
  max : String
end

instance : Inhabited FieldNode := ⟨⟨"", "", "", .text, "", 0, {}, {}, .empty, [], []⟩⟩
instance : Inhabited BlockNode := ⟨⟨"", "", "", "", [], "", ""⟩⟩

/-- A test of the content item that a field group may be attached to. -/
structure LocationRule where
  param : String
  operator : String
  value : String
deriving DecidableEq, Repr, Inhabited

/-- The root of a compiled tree, attached to content items. -/
structure FieldGroupNode where
  key : String
  title : String
  description : String
  fields : List FieldNode
  location : List (List LocationRule)
  menuOrder : Int := 0
  position : String := "acf_after_title"
  style : String := "seamless"
  labelPlacement : String := "top"
  instructionPlacement : String := "label"
  hideOnScreen : String := ""
  active : Nat := 1
deriving Inhabited

/-- A field group for content items of some types. -/
def FieldGroupNode.ofPostTypes (key title description : String) (fields : List FieldNode)
    (postTypes : List String) : FieldGroupNode :=
  { key := key
    title := title
    description := description
    fields := fields
    location := postTypes.map fun type => [⟨"post_type", "==", type⟩] }

namespace Wrapper

/-- What a value is called in a refusal. -/
def describe : Value → String
  | .null => "null"
  | .bool b => "boolean `" ++ (if b then "true" else "false") ++ "`"
  | .int n => "integer `" ++ toString n ++ "`"
  | .float x => "floating point `" ++ (Value.float x).compact ++ "`"
  | .string s => "string " ++ quotedText s
  | .array _ => "sequence"
  | .object _ => "map"

/-- Refuses a value where a text must stand. -/
def text (v : Value) : Except String String :=
  match v with
  | .string s => .ok s
  | v => .error ("invalid type: " ++ describe v ++ ", expected a string")

/-- A record by field names in key order, or by position; the error says why it is none. -/
def ofValue : Value → Except String Wrapper
  | .object members => do
    let field (name : String) : Except String String :=
      match Entries.get? name members with
      | some v => text v
      | none => .ok ""
    let cssClass ← field "class"
    let id ← field "id"
    let width ← field "width"
    return ⟨width, cssClass, id⟩
  | .array items => do
    let texts ← (items.take 3).mapM text
    if 3 < items.length then
      .error ("invalid length " ++ toString items.length ++ ", expected fewer elements in array")
    else
      return ⟨(texts[0]?).getD "", (texts[1]?).getD "", (texts[2]?).getD ""⟩
  | v => .error ("invalid type: " ++ describe v ++ ", expected struct Wrapper")

end Wrapper

namespace FieldNode

/-- Names that the tree itself uses. -/
def reservedNames : List String :=
  ["key", "label", "name", "type", "instructions", "required", "conditional_logic", "sub_fields",
    "layouts"]

/-- A field with the options of its kind. -/
def plain (kind : FieldKind) (key name label : String) : FieldNode :=
  ⟨key, label, name, kind, "", 0, .always, {}, kind.defaultOptions, [], []⟩

/-- Options that a declaration gives to its field, on top of those of the kind. -/
def declaredOptions (attributes : FieldAttributes) : List (String × Value) :=
  attributes.options.entries.filter fun option =>
    option.1 ≠ "wrapper" && !reservedNames.contains option.1

/-- The options of a declared field. -/
def optionsOf (kind : FieldKind) (attributes : FieldAttributes) : Dict Value :=
  let given := (declaredOptions attributes).foldl
    (fun options option => options.insert option.1 option.2) kind.defaultOptions
  match attributes.defaultValue with
  | some value => given.insert "default_value" value
  | none => given

/-- The wrapper of a declared field; one that cannot be read is as if it were not given. -/
def wrapperOf (attributes : FieldAttributes) : Wrapper :=
  match attributes.options.get? "wrapper" with
  | some value => (Wrapper.ofValue value).toOption.getD {}
  | none => {}

/-- The field of a declaration, without its logic and what it holds. -/
def ofAttributes (kind : FieldKind) (key name : String) (attributes : FieldAttributes) :
    FieldNode :=
  ⟨key, attributes.label.getD name, name, kind, attributes.instructions.getD "",
    if attributes.required then 1 else 0, .always, wrapperOf attributes, optionsOf kind attributes,
    [], []⟩

/-- What is reported about the options of a declaration, in their order. -/
def optionNotices (name : String) (attributes : FieldAttributes) : List Notice :=
  attributes.options.entries.filterMap fun option =>
    if option.1 = "wrapper" then
      match Wrapper.ofValue option.2 with
      | .ok _ => none
      | .error reason => some (.badWrapper name reason)
    else if reservedNames.contains option.1 then some (.reservedOption option.1 name)
    else none

/-- An option that is a text. -/
def optionText? (node : FieldNode) (option : String) : Option String :=
  (node.options.get? option).bind Value.string?

end FieldNode

end PageBlocks
