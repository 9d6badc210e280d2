import PageBlocks.Yaml.Scalar
import PageBlocks.Definitions.Decode
import PageBlocks.Text.Blank

/-!
# Definitions from YAML

Where the type of a part is known, a node is read as that type: any scalar is a
text, and a node left out is an empty record, list or dictionary. Slots,
filters and whatever is inside them have several forms, so their nodes are
turned into data first. Collections may be nested `depthLimit` deep, and all
aliases that are followed, also those inside of what others stand for, must not
be more than the limit of the document, so that a short text holds little.
-/

namespace PageBlocks.Yaml

/-- How deep collections may be nested. -/
def depthLimit : Nat := 128

section

variable (d : Document)

/-- A scalar left out. -/
def isMissing : Node → Bool
  | .scalar _ _ .plain "" => true
  | _ => false

def text? (node : Node) : Reading String := do
  match ← d.follow node with
  | .scalar _ _ _ text => return text
  | _ => failure

/-- A plain truth value, or a literal block that is tagged as one. -/
def flag? (node : Node) : Reading Bool := do
  match ← d.follow node with
  | .scalar _ tag style text =>
    if style = .plain ∨ (style = .literal ∧ tag = some (standardTag "bool")) then flagText? text
    else failure
  | _ => failure

/-- Whether a node that is no alias stands for nothing; outside stands nothing for one that is
tagged as null but is not. -/
def isNull? : Node → Option Bool
  | .scalar _ tag .plain text =>
    match tag with
    | none => some (text == "" || isNullText text)
    | some tag =>
      if tag = standardTag "null" then if isNullText text then some true else none
      else some false
  | _ => some false

def option? {α : Type} (read : Node → Reading α) (node : Node) : Reading (Option α) := do
  let node ← d.follow node
  if ← isNull? node then return none else return some (← read node)

def list? {α : Type} (read : Node → Reading α) (node : Node) : Reading (List α) := do
  match ← d.follow node with
  | .sequence _ _ items => items.mapM read
  | node => if isMissing node then return [] else failure

/-- The members of a mapping, whose keys must be scalars. -/
def members? (node : Node) : Reading (List (String × Node)) := do
  match ← d.follow node with
  | .mapping _ _ members => members.mapM fun (key, value) => do return (← text? d key, value)
  | node => if isMissing node then return [] else failure

def dict? {α : Type} (read : Node → Reading α) (node : Node) : Reading (Dict α) := do
  let pairs ← (← members? d node).mapM fun (key, value) => do return (key, ← read value)
  return .ofList pairs

/-- The fields of a record among the members of a mapping. No field may be given twice. -/
def record? (names : List String) (node : Node) : Reading (List (String × Node)) := do
  let known := (← members? d node).filter fun m => names.contains m.1
  if (known.map (·.1)).Nodup then return known else failure

/-- A field of a record that may be left out. -/
def field? {α : Type} (fields : List (String × Node)) (name : String) (read : Node → Reading α)
    (default : α) : Reading α :=
  match fields.lookup name with
  | some node => read node
  | none => return default

def settings? (node : Node) : Reading Settings := do
  let r ← record? d Settings.fieldNames node
  let base : Settings := {}
  return {
    name := ← field? r "name" (text? d) base.name
    label := ← field? r "label" (text? d) base.label
    description := ← field? r "description" (text? d) base.description
    postTypes := ← field? r "post_types" (list? d (text? d)) base.postTypes
    useCache := ← field? r "use_cache" (flag? d) base.useCache
    cacheMarkers := ← field? r "cache_markers" (flag? d) base.cacheMarkers
    bustParam := ← field? r "bust_param" (text? d) base.bustParam
    coreFields := ← field? r "core_fields" (flag? d) base.coreFields }

/-- A filter, with so many collections around it. -/
def filter? (around : Nat) (node : Node) : Reading NameFilter := do
  NameFilter.ofDatum? (← d.datum? (depthLimit - around) node)

/-- A slot, with so many collections around it. -/
def slot? (around : Nat) (node : Node) : Reading FieldSlot := do
  FieldSlot.ofDatum? (← d.datum? (depthLimit - around) node)

/-- A kind of parent that given rules leave out is not allowed. -/
def rules? (node : Node) : Reading CompatibilityRules := do
  let r ← record? d ["block", "layout"] node
  let filter (name : String) : Reading NameFilter := do
    return (← field? r name (option? d (filter? d 4)) none).getD .nothing
  return { block := ← filter "block", layout := ← filter "layout" }

/-- A kind by its name, or as a tag of the author's own on nothing. -/
def kind? (node : Node) : Reading BlockKind := do
  match ← d.follow node with
  | .scalar _ (some tag) style text =>
    if tag.startsWith "!" then
      if style = .plain ∧ (text = "" ∨ isNullText text) then
        BlockKind.ofName? (if tag = "!" then tag else String.ofList (tag.toList.drop 1))
      else failure
    else BlockKind.ofName? text
  | .scalar _ none _ text => BlockKind.ofName? text
  | _ => failure

def block? (node : Node) : Reading BlockDefinition := do
  let r ← record? d BlockDefinition.fieldNames node
  return {
    label := ← field? r "label" (option? d (text? d)) none
    description := ← field? r "description" (text? d) ""
    kind := ← field? r "kind" (kind? d) .basic
    display := ← field? r "display" (text? d) "block"
    content := ← field? r "content" (list? d (slot? d 4)) []
    customise := ← field? r "customise" (list? d (slot? d 4)) []
    configure := ← field? r "configure" (list? d (slot? d 4)) []
    blocks := ← field? r "blocks" (filter? d 3) .any
    rules := ← field? r "rules" (rules? d) {} }

def layout? (node : Node) : Reading LayoutDefinition := do
  let r ← record? d LayoutDefinition.fieldNames node
  return {
    label := ← field? r "label" (option? d (text? d)) none
    description := ← field? r "description" (text? d) ""
    instructions := ← field? r "instructions" (text? d) ""
    blocks := ← field? r "blocks" (filter? d 3) .any
    buttonLabel := ← field? r "button_label" (text? d) "Add Block" }

def definitions? (node : Node) : Reading Definitions := do
  let r ← record? d Definitions.fieldNames node
  return {
    settings := ← field? r "settings" (settings? d) {}
    includes := ← field? r "include" (list? d (text? d)) []
    blocks := ← field? r "blocks" (dict? d (block? d)) .empty
    layouts := ← field? r "layouts" (dict? d (layout? d)) .empty }

end

end Yaml

/-- The definitions in a YAML text. A text without any content holds the default ones. -/
def Definitions.ofYaml? (text : String) : Option Definitions :=
  if trimBlank text = "" then some {}
  else
    match Yaml.Document.read? text with
    | none => none
    | some none => some {}
    | some (some d) => ((Yaml.definitions? d d.root).run d.aliasLimit).map (·.1)

end PageBlocks
