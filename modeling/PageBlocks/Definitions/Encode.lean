import PageBlocks.Definitions.Basic
import PageBlocks.Value.Writer
import PageBlocks.Text.Digest

/-!
# Definitions as values

Every record is encoded in full, with the fields in the order they are
declared and the options of a field, sorted, behind its own entries. The
definition hash is taken over the compact text of this form; `Value.sorted`
gives the form in which members ascend by key.
-/

namespace PageBlocks

namespace Value

mutual
/-- The value with the members of every object in key order. -/
def sorted : Value → Value
  | .array items => .array (sortedItems items)
  | .object members => .object (Entries.ofList (sortedMembers members))
  | v => v

def sortedItems : List Value → List Value
  | [] => []
  | v :: vs => sorted v :: sortedItems vs

def sortedMembers : List (String × Value) → List (String × Value)
  | [] => []
  | (k, v) :: ms => (k, sorted v) :: sortedMembers ms
end

/-- A value or null. -/
def orNull {α : Type} (write : α → Value) : Option α → Value
  | some a => write a
  | none => .null

end Value

namespace Settings

def toValue (s : Settings) : Value :=
  .object [
    ("name", .string s.name), ("label", .string s.label), ("description", .string s.description),
    ("post_types", .ofTexts s.postTypes), ("use_cache", .bool s.useCache),
    ("cache_markers", .bool s.cacheMarkers), ("bust_param", .string s.bustParam),
    ("core_fields", .bool s.coreFields)]

end Settings

namespace NameFilter

/-- A star, a list of names, or a record of exceptions. -/
def toValue : NameFilter → Value
  | .any => .string "*"
  | .only names => .ofTexts names
  | .except names => .object [("except", .ofTexts names)]

end NameFilter

def CompatibilityRules.toValue (r : CompatibilityRules) : Value :=
  .object [("block", r.block.toValue), ("layout", r.layout.toValue)]

def GeneratorRef.toValue (r : GeneratorRef) : Value :=
  .object [("generate", .string r.generator), ("args", .array r.args)]

def ConditionRule.toValue (r : ConditionRule) : Value :=
  .object [("field", .string r.field), ("operator", .string r.operator), ("value", r.value)]

def Condition.toValue : Condition → Value
  | .rule r => r.toValue
  | .anyOf clauses =>
    .array (clauses.map fun clause => .array (clause.map ConditionRule.toValue))

mutual
def FieldDeclaration.toValue : FieldDeclaration → Value
  | ⟨name, a, subFields⟩ =>
    .object ([
      ("name", .ofText? name), ("label", .ofText? a.label), ("type", .string a.type),
      ("instructions", .ofText? a.instructions), ("required", .bool a.required),
      ("default_value", .orNull id a.defaultValue),
      ("conditional", .orNull Condition.toValue a.condition),
      ("sub_fields", .array (FieldSlot.toValues subFields)),
      ("blocks", .orNull NameFilter.toValue a.blocks)] ++ a.options.entries)

def FieldSlot.toValue : FieldSlot → Value
  | .generated ref => ref.toValue
  | .literal declaration => declaration.toValue

def FieldSlot.toValues : List FieldSlot → List Value
  | [] => []
  | slot :: rest => slot.toValue :: FieldSlot.toValues rest
end

def BlockDefinition.toValue (b : BlockDefinition) : Value :=
  .object [
    ("label", .ofText? b.label), ("description", .string b.description),
    ("kind", .string b.kind.name), ("display", .string b.display),
    ("content", .array (FieldSlot.toValues b.content)),
    ("customise", .array (FieldSlot.toValues b.customise)),
    ("configure", .array (FieldSlot.toValues b.configure)),
    ("blocks", b.blocks.toValue), ("rules", b.rules.toValue)]

def LayoutDefinition.toValue (l : LayoutDefinition) : Value :=
  .object [
    ("label", .ofText? l.label), ("description", .string l.description),
    ("instructions", .string l.instructions), ("blocks", l.blocks.toValue),
    ("button_label", .string l.buttonLabel)]

namespace Definitions

def toValue (d : Definitions) : Value :=
  .object [
    ("settings", d.settings.toValue), ("include", .ofTexts d.includes),
    ("blocks", .ofDict (d.blocks.map fun _ b => b.toValue)),
    ("layouts", .ofDict (d.layouts.map fun _ l => l.toValue))]

/-- The text that the hash is taken over. -/
def canonicalText (d : Definitions) : String := d.toValue.compact

/-- The hash that tells whether definitions have changed. -/
def hash (d : Definitions) : String := Digest.ofText d.canonicalText

end Definitions

end PageBlocks
