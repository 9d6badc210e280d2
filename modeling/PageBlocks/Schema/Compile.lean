import PageBlocks.Schema.Basic
import PageBlocks.Schema.Condition
import PageBlocks.Schema.Emission

/-!
# Compiling a registry

A registry becomes a field group: a switch, a select of layouts, and for every
layout a collection of block variants. Ids come from paths of names:

    group      <builder>
    controls   <builder>:settings:enabled and <builder>:settings:layout
    layout     <builder>:layouts:<layout>
    variant    <collection>:<block>
    field      <variant>:<group>:<field>, then one more name for each sub-field
    tab        <variant>:tabs:<group>

A block is never offered inside itself. A chain of nested variants therefore
holds every block at most once, and `variants` is defined by the number of
blocks that a chain can still take in. What is inside a variant is defined for
any way to fill its collections.
-/

namespace PageBlocks

/-- Where a compilation stands. -/
structure Site where
  /-- The layout that owns everything below. -/
  layout : Option Entity := none
  /-- The entity whose collection is filled. -/
  parent : Option Entity := none
  /-- Names of the blocks around the collection. -/
  enclosing : List String := []

namespace Site

/-- At the top level of a layout. -/
def inLayout (layout : Entity) : Site := { layout := some layout, parent := some layout }

/-- Inside a block. -/
def nested (site : Site) (block : Entity) : Site :=
  { site with parent := some block, enclosing := site.enclosing ++ [block.name] }

def layoutName (site : Site) : Option String := site.layout.map (·.name)

end Site

/-- The first name that stands in a list for the second time. -/
def firstRepeated? (seen : List String) : List String → Option String
  | [] => none
  | name :: rest => if seen.contains name then some name else firstRepeated? (name :: seen) rest

/-- Fails when fields of one list share a name. -/
def checkUnique (entity group : String) (names : List String) : Except Error Unit :=
  match firstRepeated? [] names with
  | some name => .error (.duplicateFieldName entity group name)
  | none => .ok ()

namespace Compile

/-- Fills a collection, given where it stands, the blocks it is to offer, its path and its id. -/
abbrev Filling := Site → NameFilter → KeyPath → String → Compilation (List (String × BlockNode))

/-- The index entry of a field. -/
def fieldEntry (node : FieldNode) (entity : EntityRef) (group : Option FieldGroup)
    (parent layout : Option String) : IndexEntry :=
  { key := node.key
    name := node.name
    entity := entity
    group := group
    node := .field node.kind
    parent := parent
    layout := layout
    isBoundary := false
    returnFormat := node.optionText? "return_format" }

/-! ## Fields -/

section Field

variable (fill : Filling) (site : Site) (owner : Entity) (group : FieldGroup)

mutual
/-- Compiles a field under the path and the id of what holds it. -/
def field (siblings : List Sibling) (path : KeyPath) (parent : String) :
    Field → Compilation FieldNode
  | ⟨name, attributes, subFields⟩ => do
    let kind ←
      match FieldKind.ofName? attributes.type with
      | some kind => pure kind
      | none => throw (.unknownFieldType owner.name name attributes.type)
    let own := path.child name
    let key := own.encode .field
    Compilation.noteAll (FieldNode.optionNotices name attributes)
    let logic ← ExceptT.mk (pure (Condition.resolve owner.name name siblings group
      attributes.condition))
    let layouts ←
      if kind.isBlockCollection then fill site (attributes.blocks.getD owner.children) own key
      else pure []
    let rows ←
      if kind.hasSubFields then do
        ExceptT.mk (pure (checkUnique owner.name (group.name ++ "." ++ name)
          (subFields.map (·.name))))
        fields (Sibling.ofFields group own subFields) own key subFields
      else pure []
    let node : FieldNode :=
      { FieldNode.ofAttributes kind key name attributes with
        logic := logic, subFields := rows, layouts := layouts }
    Compilation.register
      (fieldEntry node owner.ref (some group) (some parent) site.layoutName)
    return node

/-- Compiles fields in order. -/
def fields (siblings : List Sibling) (path : KeyPath) (parent : String) :
    List Field → Compilation (List FieldNode)
  | [] => return []
  | f :: rest => do
    let node ← field siblings path parent f
    return node :: (← fields siblings path parent rest)
end

end Field

/-! ## Blocks -/

/-- Fields that every block's configure group ends with. -/
def coreFields : List Field :=
  [⟨"element_id",
      { label := some "Element ID", type := "text",
        instructions := some "Give this block a unique ID on the page" }, []⟩,
    ⟨"element_class",
      { label := some "Element Class", type := "text",
        instructions := some "Add extra CSS classes to this block" }, []⟩]

def hasType (kind : FieldKind) (f : Field) : Bool := f.attributes.type == kind.name

/-- The row template of a repeating block, with a collection in it. -/
def withCollection (row : Field) : Field :=
  if row.subFields.any (hasType .flexibleContent) then row
  else
    { row with
      subFields := .simple "content" "Content" FieldKind.flexibleContent.name :: row.subFields }

/-- Changes the first item that satisfies a test. -/
def modifyFirst {α : Type} (p : α → Bool) (f : α → α) : List α → List α
  | [] => []
  | a :: rest => if p a then f a :: rest else a :: modifyFirst p f rest

/-- The content fields with the collection that the kind of block calls for. -/
def content (block : Entity) : List Field :=
  let given := block.fields.content
  match block.kind with
  | .block .container =>
    if given.any (hasType .flexibleContent) then given
    else .simple "blocks" "Blocks" FieldKind.flexibleContent.name :: given
  | .block .repeating =>
    if given.any (hasType .repeater) then modifyFirst (hasType .repeater) withCollection given
    else withCollection (.simple "items" "Items" FieldKind.repeater.name) :: given
  | _ => given

/-- The kind of field that holds the nested blocks of a kind of block. -/
def holderKind? : EntityKind → Option FieldKind
  | .block .container => some .flexibleContent
  | .block .repeating => some .repeater
  | _ => none

/-- The list with the item at a position moved to the front. -/
def toFront {α : Type} (items : List α) (position : Nat) : List α :=
  match items[position]? with
  | some item => item :: items.eraseIdx position
  | none => items

/-- What stands for the content fields, with the one for the field that holds nested blocks
first. -/
def pinned {α : Type} (block : Entity) (fields : List Field) (nodes : List α) : List α :=
  match holderKind? block.kind with
  | none => nodes
  | some kind =>
    match fields.findIdx? (hasType kind) with
    | some position => toFront nodes position
    | none => nodes

/-- The fields of a block's groups, as they are compiled. -/
def groups (settings : Settings) (block : Entity) : List (FieldGroup × List Field) :=
  [(.content, content block), (.customise, block.fields.customise),
    (.configure, block.fields.configure ++ if settings.coreFields then coreFields else [])]

/-- Names that the fields of a group take up in the editor. -/
def takenNames (group : FieldGroup) (fields : List Field) : List String :=
  fields.map (·.name) ++
    if group ≠ .content ∧ !fields.isEmpty then [group.tabName] else []

/-- The marker that opens a group in the editor. -/
def tab (site : Site) (block : Entity) (group : FieldGroup) (path : KeyPath) (parent : String) :
    Compilation FieldNode := do
  let key := ((path.child "tabs").child group.name).encode .field
  let node := FieldNode.plain .tab key group.tabName group.label
  Compilation.register (fieldEntry node block.ref (some group) (some parent) site.layoutName)
  return node

/-- The nodes of one group, behind its tab. -/
def groupNodes (fill : Filling) (site : Site) (block : Entity) (path : KeyPath) (key : String)
    (siblings : List Sibling) (group : FieldGroup) (members : List Field) :
    Compilation (List FieldNode) := do
  if members.isEmpty then return []
  let path' := path.child group.name
  if group = .content then
    -- Entries are registered as declared; only the finished nodes change places.
    return pinned block members (← fields fill site block group siblings path' key members)
  else do
    let marker ← tab site block group path key
    return marker :: (← fields fill site block group siblings path' key members)

/-- Compiles a block as a variant at a path. -/
def block (settings : Settings) (fill : Filling) (site : Site) (collection : Option String)
    (path : KeyPath) (b : Entity) : Compilation BlockNode := do
  let key := path.encode .block
  let inner := site.nested b
  let members := groups settings b
  members.forM fun (group, fields) =>
    ExceptT.mk (pure (checkUnique b.name group.name (takenNames group fields)))
  let siblings := members.flatMap fun (group, fields) =>
    Sibling.ofFields group (path.child group.name) fields
  let nodes ← members.mapM fun (group, fields) =>
    groupNodes fill inner b path key siblings group fields
  Compilation.register {
    key := key
    name := b.name
    entity := b.ref
    group := none
    node := .block
    parent := collection
    layout := site.layoutName
    isBoundary := true
    returnFormat := none }
  return ⟨key, b.name, b.label, b.display, nodes.flatten, "", ""⟩

/-! ## Collections -/

/-- Why a candidate is not offered in a collection of a parent, if it is not. -/
def refusal? (parent : Entity) (enclosing : List String) (candidate : Entity) : Option Notice :=
  if !candidate.fitsIn parent then some (.notOffered candidate.name parent.name)
  else if enclosing.contains candidate.name then
    some (.alreadyEncloses candidate.name parent.name)
  else none

/-- The variant of one candidate, or nothing for one that is not offered. -/
def variant (make : Site → Option String → KeyPath → Entity → Compilation BlockNode) (site : Site)
    (parent : Entity) (path : KeyPath) (key : String) (candidate : Entity) :
    Compilation (List (String × BlockNode)) :=
  match refusal? parent site.enclosing candidate with
  | some notice => do
    Compilation.noteAll [notice]
    return []
  | none => do
    let node ← make site (some key) (path.child candidate.name) candidate
    return [(node.key, node)]

/-- Compiles the variants of a collection, given a way to compile a block. -/
def offered (registry : Registry)
    (make : Site → Option String → KeyPath → Entity → Compilation BlockNode) : Filling :=
  fun site filter path key =>
    match site.layout, site.parent with
    | some _, some parent => do
      Compilation.noteAll ((registry.unknownNames filter).map .skippedChild)
      let found ← (registry.candidates filter).mapM (variant make site parent path key)
      return Entries.ofList found.flatten
    | _, _ => throw (.missingLayoutContext path.joined)

/-- Compiles the variants of a collection around which at most a number of blocks are still to
come. -/
def variants (registry : Registry) : Nat → Filling
  | 0 => offered registry fun _ _ _ _ => throw .nestingLimit
  | count + 1 => offered registry (block registry.settings (variants registry count))

/-- Fills any collection of a registry. -/
def fill (registry : Registry) : Filling := variants registry registry.blocks.size

/-! ## Layouts and the field group -/

/-- The name of the collection field of a layout. -/
def layoutSlug (registry : Registry) (layout : Entity) : String :=
  registry.settings.name ++ "_" ++ layout.name

/-- Compiles a layout under a path. -/
def layout (registry : Registry) (parent : KeyPath) (l : Entity) : Compilation FieldNode := do
  let path := parent.child l.name
  let key := path.encode .field
  let slug := layoutSlug registry l
  let variants ← fill registry (.inLayout l) l.children path key
  Compilation.register {
    key := key
    name := slug
    entity := l.ref
    group := none
    node := .layout
    parent := none
    layout := some l.name
    isBoundary := true
    returnFormat := none }
  return {
    FieldNode.plain .flexibleContent key slug l.label with
    instructions := l.instructions
    options := FieldKind.flexibleContent.defaultOptions.insert "button_label"
      (.string l.buttonLabel)
    layouts := variants }

/-- What an entity compiles to. -/
inductive Node where
  /-- The collection field of a layout. -/
  | layout (node : FieldNode)
  | block (node : BlockNode)

/-- Compiles one entity whose own path lies under a path. -/
def entity (registry : Registry) (site : Site) (parent : KeyPath) (e : Entity) :
    Compilation Node :=
  match e.kind with
  | .layout => do return .layout (← layout registry parent e)
  | .block _ => do
    return .block
      (← block registry.settings (fill registry) site none (parent.child e.name) e)

/-- The path of the builder's own fields and layouts. -/
def root (registry : Registry) : KeyPath := .root registry.settings.name

def enabledKey (registry : Registry) : String :=
  (((root registry).child "settings").child "enabled").encode .field

def selectKey (registry : Registry) : String :=
  (((root registry).child "settings").child "layout").encode .field

/-- The field that switches the builder on for an item. -/
def enabledField (registry : Registry) : FieldNode :=
  { FieldNode.plain .trueFalse (enabledKey registry) (registry.settings.name ++ "_enabled")
      ("Use " ++ registry.settings.label) with
    instructions := registry.settings.description
    options := FieldKind.trueFalse.defaultOptions.insert "ui" (.int 1) }

/-- The choices of the layout select: the labels of the layouts by the names of their fields. -/
def choices (registry : Registry) : Dict Value :=
  .ofList (registry.layouts.values.map fun l => (layoutSlug registry l, .string l.label))

/-- The field that selects the layout of an item, by default the first. -/
def selectField (registry : Registry) : FieldNode :=
  { FieldNode.plain .select (selectKey registry) (registry.settings.name ++ "_layout") "Layout" with
    logic := .whenEquals (enabledKey registry) "1"
    options :=
      (FieldKind.select.defaultOptions.insert "choices" (.ofDict (choices registry))).insert
        "default_value" (.string ((choices registry).keys.head?.getD "")) }

/-- A layout's field in the group, shown when the layout is selected. -/
def selected (registry : Registry) (node : FieldNode) : FieldNode :=
  { node with
    logic := (ConditionalLogic.whenEquals (enabledKey registry) "1").andEquals
      (selectKey registry) node.name }

/-- Compiles the field group of a registry. -/
def fieldGroup (registry : Registry) : Compilation FieldGroupNode := do
  let settings := registry.settings
  let builder : EntityRef := { type := .builder, name := settings.name }
  Compilation.register (fieldEntry (enabledField registry) builder none none none)
  let layouts ← registry.layouts.values.mapM (layout registry ((root registry).child "layouts"))
  Compilation.register (fieldEntry (selectField registry) builder none none none)
  return .ofPostTypes ((root registry).encode .group) settings.label settings.description
    (enabledField registry :: selectField registry :: layouts.map (selected registry))
    settings.postTypes

end Compile

/-- Compiles a registry at some time. -/
def compile (registry : Registry) (now : Instant) : Attempt CompiledSchema := do
  let outcome := (Compile.fieldGroup registry).runOn .empty
  Attempt.noteAll outcome.notices
  match outcome.result with
  | .error error => throw error
  | .ok group =>
    return {
      group := group
      index := outcome.index
      sourceHash := registry.sourceHash
      keyScheme := keyScheme
      compiledAt := now }

end PageBlocks
