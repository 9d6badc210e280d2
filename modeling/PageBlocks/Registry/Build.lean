import PageBlocks.Registry.Entity
import PageBlocks.Definitions.Encode
import PageBlocks.Name
import PageBlocks.Notice

/-!
# Building the registry

Registering definitions resolves every reference to a generator, names every
field, and rejects a parent that explicitly lists a child whose own rules
forbid that parent. A reference that no generator has the name of is left out
with a warning.

The expansion of a reference may bring further references in its sub-fields.
Resolution is therefore split: `Resolve` walks declarations as they are
written, given a way to expand a reference, and `expand` ties the knot for
chains of references up to a length. `buildWithin` is the registry for any
generators, transliteration and length, and `build` takes them as one.
-/

namespace PageBlocks

/-- What definitions are registered with. -/
structure Resources where
  generators : Generators
  /-- The texts that names are made of where a field has a label alone. -/
  letters : Transliteration
  /-- Longest chain of references, each in the expansion of the one before. -/
  limit : Nat

namespace Resources

/-- No generators, and labels in ASCII. -/
def empty : Resources := { generators := .empty, letters := .ofTable [], limit := 0 }

/-- The presets for backgrounds, which refer to no others. -/
def builtin : Resources := { empty with generators := .builtin, limit := 1 }

end Resources

namespace Resolve

variable (letters : Transliteration)

/-- The name of a declared field: its own, else the one made from its label. -/
def nameOf (d : FieldDeclaration) : String :=
  match d.name, d.attributes.label with
  | some name, _ => name
  | none, some label => nameFromLabel letters label
  | none, none => ""

variable (entity : String) (expandRef : GeneratorRef → Attempt (List Field))

mutual
/-- Names a declaration and resolves its sub-fields. -/
def declaration : FieldDeclaration → Attempt Field
  | ⟨name, attributes, subFields⟩ => do
    let name := nameOf letters ⟨name, attributes, subFields⟩
    if isValidName name then
      return ⟨name, attributes, ← slots subFields⟩
    else throw (.invalidName (entity ++ "." ++ name))

/-- Resolves slots in order. -/
def slots : List FieldSlot → Attempt (List Field)
  | [] => return []
  | slot :: rest => do
    let here ← single slot
    return here ++ (← slots rest)

/-- The fields of one slot. -/
def single : FieldSlot → Attempt (List Field)
  | .literal d => do return [← declaration d]
  | .generated ref => expandRef ref
end

/-- Resolves declarations in order. -/
def declarations (ds : List FieldDeclaration) : Attempt (List Field) :=
  ds.mapM (declaration letters entity expandRef)

end Resolve

/-- The fields that a reference stands for, by chains of at most `limit` references. -/
def expand (generators : Generators) (letters : Transliteration) (entity : String) :
    Nat → GeneratorRef → Attempt (List Field)
  | limit, ref =>
    match generators.resolve? ref with
    | none => do
      Attempt.note (.unknownGenerator ref.generator entity)
      return []
    | some ds =>
      match limit with
      | 0 => throw .expansionLimit
      | limit + 1 =>
        Resolve.declarations letters entity (expand generators letters entity limit) ds

/-- The resolved fields of the slots of a block. -/
def resolveSlots (generators : Generators) (letters : Transliteration) (limit : Nat)
    (entity : String) (slots : List FieldSlot) : Attempt (List Field) :=
  Resolve.slots letters entity (expand generators letters entity limit) slots

/-- A label, or the name with blanks for underscores and a capital to begin with. -/
def labelOrTitle (label : Option String) (name : String) : String :=
  label.getD <|
    match name.toList.map fun c => if c = '_' then ' ' else c with
    | [] => ""
    | c :: cs => String.ofList (c.toUpper :: cs)

namespace Entity

/-- The entity of a block definition, by chains of at most `limit` references. -/
def ofBlock (generators : Generators) (letters : Transliteration) (limit : Nat)
    (name : String) (d : BlockDefinition) : Attempt Entity := do
  if !isValidName name then throw (.invalidName name)
  let resolve := resolveSlots generators letters limit name
  let content ← resolve d.content
  let customise ← resolve d.customise
  let configure ← resolve d.configure
  return {
    name := name
    label := labelOrTitle d.label name
    description := d.description
    instructions := ""
    kind := .block d.kind
    display := d.display
    buttonLabel := ""
    fields := { content := content, customise := customise, configure := configure }
    children := d.blocks
    rules := d.rules }

/-- The entity of a layout definition. -/
def ofLayout (name : String) (d : LayoutDefinition) : Attempt Entity := do
  if !isValidName name then throw (.invalidName name)
  return {
    name := name
    label := labelOrTitle d.label name
    description := d.description
    instructions := d.instructions
    kind := .layout
    display := "block"
    buttonLabel := d.buttonLabel
    fields := {}
    children := d.blocks
    rules := {} }

end Entity

namespace Registry

/-- The first child that a parent lists although the child's rules forbid it. -/
def misfit? (blocks : Dict Entity) (parent : Entity) : Option Error :=
  match parent.children with
  | .only names =>
    names.findSome? fun name =>
      match blocks.get? name with
      | some child =>
        if child.fitsIn parent then none
        else some (.incompatibleNesting child.name parent.name)
      | none => none
  | _ => none

/-- Builds entities in name order. -/
def entities {α : Type} (make : String → α → Attempt Entity) (definitions : Dict α) :
    Attempt (Dict Entity) := do
  return .ofList (← definitions.entries.mapM fun (name, d) => do return (name, ← make name d))

/-- Builds the registry of definitions, by chains of at most `limit` references. -/
def buildWithin (definitions : Definitions) (generators : Generators)
    (letters : Transliteration) (limit : Nat) : Attempt Registry := do
  if !isValidName definitions.settings.name then throw (.invalidName definitions.settings.name)
  let blocks ← entities (Entity.ofBlock generators letters limit) definitions.blocks
  let layouts ← entities Entity.ofLayout definitions.layouts
  -- Only lists are checked: other filters offer what fits, and nothing else.
  match (layouts.values ++ blocks.values).findSome? (misfit? blocks) with
  | some error => throw error
  | none =>
    return {
      settings := definitions.settings
      blocks := blocks
      layouts := layouts
      sourceHash := definitions.hash }

/-- Builds the registry of definitions. -/
def build (definitions : Definitions) (resources : Resources) : Attempt Registry :=
  buildWithin definitions resources.generators resources.letters resources.limit

end Registry

end PageBlocks
