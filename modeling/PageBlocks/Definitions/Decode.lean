import PageBlocks.Definitions.Basic
import PageBlocks.Datum

/-!
# Definitions from data

Reading of definitions, with all their shorthand forms. Where a form admits
several readings, the first that fits is taken: a slot is a reference before it
is a declaration, a filter one name before a list before exceptions, a
condition one rule before a list of clauses.
-/

namespace PageBlocks

open Datum

namespace Settings

/-- Names of the fields, in order. -/
def fieldNames : List String :=
  ["name", "label", "description", "post_types", "use_cache", "cache_markers", "bust_param",
    "core_fields"]

def ofDatum? (d : Datum) : Option Settings := do
  let r ← Record.of? fieldNames false d
  let base : Settings := {}
  return {
    name := ← r.orElse? "name" text? base.name
    label := ← r.orElse? "label" text? base.label
    description := ← r.orElse? "description" text? base.description
    postTypes := ← r.orElse? "post_types" (list? text?) base.postTypes
    useCache := ← r.orElse? "use_cache" flag? base.useCache
    cacheMarkers := ← r.orElse? "cache_markers" flag? base.cacheMarkers
    bustParam := ← r.orElse? "bust_param" text? base.bustParam
    coreFields := ← r.orElse? "core_fields" flag? base.coreFields }

end Settings

namespace NameFilter

/-- The filter of a sole word: a star or `any` for every name, `none` for no name, else that one
name. -/
def ofWord (s : String) : NameFilter :=
  if s = "*" ∨ s = "any" then .any else if s = "none" then .nothing else .only [s]

/-- A record of exceptions; it has no form as an array. -/
def exceptions? : Datum → Option NameFilter
  | .object members => do
    let r ← Record.of? ["except"] false (.object members)
    return .except (← r.need? "except" (list? text?))
  | _ => none

def ofDatum? (d : Datum) : Option NameFilter :=
  (text? d).map ofWord <|> (list? text? d).map .only <|> exceptions? d

end NameFilter

/-- A kind of parent that given rules leave out is not allowed. -/
def CompatibilityRules.ofDatum? (d : Datum) : Option CompatibilityRules := do
  let r ← Record.of? ["block", "layout"] false d
  let filter (name : String) : Option NameFilter := do
    return (← r.orElse? name (option? NameFilter.ofDatum?) none).getD .nothing
  return { block := ← filter "block", layout := ← filter "layout" }

/-- References know no further fields. -/
def GeneratorRef.ofDatum? (d : Datum) : Option GeneratorRef := do
  let r ← Record.of? ["generate", "args"] true d
  return {
    generator := ← r.need? "generate" text?
    args := ← r.orElse? "args" (list? toValue?) [] }

def ConditionRule.ofDatum? (d : Datum) : Option ConditionRule := do
  let r ← Record.of? ["field", "operator", "value"] false d
  return {
    field := ← r.need? "field" text?
    operator := ← r.orElse? "operator" text? "=="
    value := ← r.need? "value" toValue? }

def Condition.ofDatum? (d : Datum) : Option Condition :=
  (ConditionRule.ofDatum? d).map .rule <|>
    (list? (list? ConditionRule.ofDatum?) d).map .anyOf

namespace FieldDeclaration

/-- Names of the fields that are no options. -/
def fieldNames : List String :=
  ["name", "label", "type", "instructions", "required", "default_value", "conditional",
    "sub_fields", "blocks"]

/-- A member whose key is none of the declaration's own fields. -/
def isOption (member : Datum × Datum) : Bool :=
  match member.1 with
  | .string k => !fieldNames.contains k
  | _ => true

/-- The attributes in the members of an object. -/
def attributes? (members : List (Datum × Datum)) : Option FieldAttributes := do
  let own := members.filter fun m => !isOption m
  let r ← Record.of? fieldNames false (.object own)
  return {
    label := ← r.orElse? "label" (option? text?) none
    type := ← r.need? "type" text?
    instructions := ← r.orElse? "instructions" (option? text?) none
    required := ← r.orElse? "required" flag? false
    defaultValue := ← r.orElse? "default_value" (option? toValue?) none
    condition := ← r.orElse? "conditional" (option? Condition.ofDatum?) none
    blocks := ← r.orElse? "blocks" (option? NameFilter.ofDatum?) none
    options := .ofList (← toMembers? (members.filter isOption)) }

/-- The name in the members of an object. -/
def name? (members : List (Datum × Datum)) : Option (Option String) := do
  let r ← Record.of? fieldNames false (.object (members.filter fun m => !isOption m))
  r.orElse? "name" (option? text?) none

/-- Whether a member is the list of sub-fields. -/
def isSubFields (member : Datum × Datum) : Bool :=
  match member.1 with
  | .string k => k == "sub_fields"
  | _ => false

end FieldDeclaration

mutual
/-- A declaration is only ever an object. -/
def FieldDeclaration.ofDatum? : Datum → Option FieldDeclaration
  | .object members => do
    let attributes ← FieldDeclaration.attributes? members
    let name ← FieldDeclaration.name? members
    return ⟨name, attributes, ← FieldSlot.subFields? members⟩
  | _ => none

/-- The slots under the sub-fields of an object, none where it has no such member. -/
def FieldSlot.subFields? : List (Datum × Datum) → Option (List FieldSlot)
  | [] => some []
  | (key, .array items) :: rest =>
    if FieldDeclaration.isSubFields (key, .array items) then FieldSlot.ofItems? items
    else FieldSlot.subFields? rest
  | member :: rest =>
    if FieldDeclaration.isSubFields member then none else FieldSlot.subFields? rest

/-- A slot: a reference if it can be one, else a declaration. -/
def FieldSlot.ofDatum? : Datum → Option FieldSlot
  | .object members =>
    (GeneratorRef.ofDatum? (.object members)).map .generated <|>
      (do
        let attributes ← FieldDeclaration.attributes? members
        let name ← FieldDeclaration.name? members
        return .literal ⟨name, attributes, ← FieldSlot.subFields? members⟩)
  | d => (GeneratorRef.ofDatum? d).map .generated

def FieldSlot.ofItems? : List Datum → Option (List FieldSlot)
  | [] => some []
  | d :: ds => do return (← FieldSlot.ofDatum? d) :: (← FieldSlot.ofItems? ds)
end

/-- The slots of a field group. -/
def FieldSlot.list? : Datum → Option (List FieldSlot)
  | .array items => FieldSlot.ofItems? items
  | _ => none

namespace BlockDefinition

def fieldNames : List String :=
  ["label", "description", "kind", "display", "content", "customise", "configure", "blocks",
    "rules"]

def ofDatum? (d : Datum) : Option BlockDefinition := do
  let r ← Record.of? fieldNames false d
  return {
    label := ← r.orElse? "label" (option? text?) none
    description := ← r.orElse? "description" text? ""
    kind := ← r.orElse? "kind" (choice? BlockKind.ofName?) .basic
    display := ← r.orElse? "display" text? "block"
    content := ← r.orElse? "content" FieldSlot.list? []
    customise := ← r.orElse? "customise" FieldSlot.list? []
    configure := ← r.orElse? "configure" FieldSlot.list? []
    blocks := ← r.orElse? "blocks" NameFilter.ofDatum? .any
    rules := ← r.orElse? "rules" CompatibilityRules.ofDatum? {} }

end BlockDefinition

namespace LayoutDefinition

def fieldNames : List String := ["label", "description", "instructions", "blocks", "button_label"]

def ofDatum? (d : Datum) : Option LayoutDefinition := do
  let r ← Record.of? fieldNames false d
  return {
    label := ← r.orElse? "label" (option? text?) none
    description := ← r.orElse? "description" text? ""
    instructions := ← r.orElse? "instructions" text? ""
    blocks := ← r.orElse? "blocks" NameFilter.ofDatum? .any
    buttonLabel := ← r.orElse? "button_label" text? "Add Block" }

end LayoutDefinition

namespace Definitions

def fieldNames : List String := ["settings", "include", "blocks", "layouts"]

def ofDatum? (d : Datum) : Option Definitions := do
  let r ← Record.of? fieldNames false d
  return {
    settings := ← r.orElse? "settings" Settings.ofDatum? {}
    includes := ← r.orElse? "include" (list? text?) []
    blocks := ← r.orElse? "blocks" (dict? BlockDefinition.ofDatum?) .empty
    layouts := ← r.orElse? "layouts" (dict? LayoutDefinition.ofDatum?) .empty }

/-- The definitions that a value encodes. -/
def ofValue? (v : Value) : Option Definitions := ofDatum? (.ofValue v)

end Definitions

end PageBlocks
