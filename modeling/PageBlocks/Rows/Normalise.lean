import PageBlocks.Value
import PageBlocks.Schema.FieldKind
import PageBlocks.Number.Text
import PageBlocks.Text.Blank

/-!
# Reading stored values

Storage keeps most values as texts. Reading turns a value into the native form
of its field kind, and references into what they refer to as far as the host
can tell. A value that does not have the form of its kind stays as it is.
-/

namespace PageBlocks

/-- How a host expands references; nothing keeps a reference as it is. -/
structure Resolver where
  /-- An image or a file. -/
  attachment : Value → Option Value
  /-- Another content item. -/
  contentItem : Value → Option Value

/-- Keeps every reference. -/
def Resolver.none : Resolver := { attachment := fun _ => .none, contentItem := fun _ => .none }

/-- Whether a switch with a stored value is on. -/
def truthy : Value → Bool
  | .bool b => b
  | .int n => n != 0
  | .float x => !x.isZero
  | .string s => trimBlank s == "1" || trimBlank s == "true"
  | _ => false

/-- A value that is no reference. -/
def isBlankValue : Value → Bool
  | .null => true
  | .string s => s == ""
  | _ => false

/-- The number that a text holds. A blank text is null, any other text stays. -/
def numberOf (s : String) : Value :=
  let text := trimChars s.toList
  if text.isEmpty then .null
  else
    match NumberText.signedInt? text with
    | some n => .int n
    | none =>
      match NumberText.decimal? text with
      | some x => .float x
      | none => .string s

/-- Expands one reference. -/
def expandWith (resolve : Value → Option Value) (raw : Value) : Value :=
  if isBlankValue raw then raw else (resolve raw).getD raw

/-- The native form of a stored value of a field kind. -/
def normalise (resolver : Resolver) (kind : FieldKind) (raw : Value) : Value :=
  match kind, raw with
  | .trueFalse, raw => .bool (truthy raw)
  | .number, .string s | .range, .string s => numberOf s
  | .image, raw | .file, raw => expandWith resolver.attachment raw
  | .gallery, .array items => .array (items.map (expandWith resolver.attachment))
  | .postObject, .array items | .pageLink, .array items | .relationship, .array items =>
    .array (items.map (expandWith resolver.contentItem))
  | .postObject, raw | .pageLink, raw | .relationship, raw => expandWith resolver.contentItem raw
  | _, raw => raw

end PageBlocks
