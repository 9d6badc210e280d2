import PageBlocks.Value

/-!
# Field kinds

The kinds of fields that the storage of custom fields understands, with the
options that every field of a kind carries before its declaration overrides
them. Names of kinds and options are part of that storage format.
-/

namespace PageBlocks

inductive FieldKind where
  | text
  | textarea
  | number
  | range
  | email
  | url
  | password
  | wysiwyg
  | oembed
  | image
  | file
  | gallery
  | link
  | postObject
  | pageLink
  | relationship
  | taxonomy
  | user
  | select
  | checkbox
  | radioButton
  | trueFalse
  | googleMap
  | datePicker
  | dateTimePicker
  | timePicker
  | colorPicker
  | message
  | tab
  | group
  | repeater
  | flexibleContent
  | clone
deriving DecidableEq, Repr, Inhabited

namespace FieldKind

/-- Every kind. -/
def all : List FieldKind :=
  [.text, .textarea, .number, .range, .email, .url, .password, .wysiwyg, .oembed, .image, .file,
    .gallery, .link, .postObject, .pageLink, .relationship, .taxonomy, .user, .select, .checkbox,
    .radioButton, .trueFalse, .googleMap, .datePicker, .dateTimePicker, .timePicker, .colorPicker,
    .message, .tab, .group, .repeater, .flexibleContent, .clone]

/-- The name of a kind in definitions and compiled nodes. -/
def name : FieldKind → String
  | .text => "text"
  | .textarea => "textarea"
  | .number => "number"
  | .range => "range"
  | .email => "email"
  | .url => "url"
  | .password => "password"
  | .wysiwyg => "wysiwyg"
  | .oembed => "oembed"
  | .image => "image"
  | .file => "file"
  | .gallery => "gallery"
  | .link => "link"
  | .postObject => "post_object"
  | .pageLink => "page_link"
  | .relationship => "relationship"
  | .taxonomy => "taxonomy"
  | .user => "user"
  | .select => "select"
  | .checkbox => "checkbox"
  | .radioButton => "radio_button"
  | .trueFalse => "true_false"
  | .googleMap => "google_map"
  | .datePicker => "date_picker"
  | .dateTimePicker => "date_time_picker"
  | .timePicker => "time_picker"
  | .colorPicker => "color_picker"
  | .message => "message"
  | .tab => "tab"
  | .group => "group"
  | .repeater => "repeater"
  | .flexibleContent => "flexible_content"
  | .clone => "clone"

def ofName? (s : String) : Option FieldKind := all.find? fun k => k.name == s

/-- What is told of a name that no kind has. -/
def unknownText (name : String) : String := "unknown field type '" ++ name ++ "'"

/-- Holds a list of block variants. -/
def isBlockCollection (k : FieldKind) : Bool := k == .flexibleContent

/-- Holds a row template of sub-fields. -/
def hasSubFields (k : FieldKind) : Bool := k == .group || k == .repeater

/-- Options whose default is the empty text. -/
def blankOptions (names : List String) : List (String × Value) :=
  names.map fun option => (option, .string "")

/-- Options that every field of a kind carries. -/
def defaultOptions (k : FieldKind) : Dict Value :=
  .ofList <|
    match k with
    | .text => blankOptions ["default_value", "placeholder", "prepend", "append", "maxlength"]
    | .textarea => blankOptions ["default_value", "placeholder", "maxlength", "rows", "new_lines"]
    | .number => blankOptions ["default_value", "placeholder", "prepend", "append", "min", "max",
        "step"]
    | .range => blankOptions ["default_value", "min", "max", "step", "prepend", "append"]
    | .email => blankOptions ["default_value", "placeholder", "prepend", "append"]
    | .url => blankOptions ["default_value", "placeholder"]
    | .password => blankOptions ["placeholder", "prepend", "append"]
    | .wysiwyg => [
        ("default_value", .string ""), ("tabs", .string "all"), ("toolbar", .string "full"),
        ("media_upload", .int 1), ("delay", .int 0)]
    | .oembed => blankOptions ["width", "height"]
    | .image => blankOptions ["min_width", "min_height", "min_size", "max_width", "max_height",
        "max_size", "mime_types"] ++ [
        ("return_format", .string "array"), ("preview_size", .string "thumbnail"),
        ("library", .string "all")]
    | .file => blankOptions ["min_size", "max_size", "mime_types"] ++ [
        ("return_format", .string "array"), ("library", .string "all")]
    | .gallery => blankOptions ["min", "max", "min_width", "min_height", "min_size", "max_width",
        "max_height", "max_size", "mime_types"] ++ [
        ("insert", .string "append"), ("library", .string "all")]
    | .link => [
        ("return_format", .string "array")]
    | .postObject => [
        ("post_type", .array []), ("taxonomy", .array []), ("allow_null", .int 0),
        ("multiple", .int 0), ("return_format", .string "object"), ("ui", .int 1)]
    | .pageLink => [
        ("post_type", .array []), ("taxonomy", .array []), ("allow_null", .int 0),
        ("allow_archives", .int 1), ("multiple", .int 0)]
    | .relationship => blankOptions ["elements", "min", "max"] ++ [
        ("post_type", .array []), ("taxonomy", .array []),
        ("filters", .ofTexts ["search", "post_type", "taxonomy"]),
        ("return_format", .string "object")]
    | .taxonomy => [
        ("taxonomy", .string "category"), ("field_type", .string "checkbox"),
        ("allow_null", .int 0), ("add_term", .int 1), ("save_terms", .int 0),
        ("load_terms", .int 0), ("return_format", .string "id"), ("multiple", .int 0)]
    | .user => [
        ("role", .string ""), ("allow_null", .int 0), ("multiple", .int 0)]
    | .select => [
        ("choices", .object []), ("default_value", .array []), ("allow_null", .int 0),
        ("multiple", .int 0), ("ui", .int 0), ("ajax", .int 0),
        ("return_format", .string "value"), ("placeholder", .string "")]
    | .checkbox => [
        ("choices", .object []), ("default_value", .array []), ("allow_custom", .int 0),
        ("save_custom", .int 0), ("layout", .string "vertical"), ("toggle", .int 0),
        ("return_format", .string "value")]
    | .radioButton => [
        ("choices", .object []), ("allow_null", .int 0), ("other_choice", .int 0),
        ("save_other_choice", .int 0), ("default_value", .string ""),
        ("layout", .string "vertical"), ("return_format", .string "value")]
    | .trueFalse => blankOptions ["message", "ui_on_text", "ui_off_text"] ++ [
        ("default_value", .int 0), ("ui", .int 0)]
    | .googleMap => blankOptions ["center_lat", "center_lng", "zoom", "height"]
    | .datePicker => [
        ("display_format", .string "d/m/Y"), ("return_format", .string "d/m/Y"),
        ("first_day", .int 1)]
    | .dateTimePicker => [
        ("display_format", .string "d/m/Y g:i a"), ("return_format", .string "d/m/Y g:i a"),
        ("first_day", .int 1)]
    | .timePicker => [
        ("display_format", .string "g:i a"), ("return_format", .string "g:i a")]
    | .colorPicker => blankOptions ["default_value"]
    | .message => [
        ("message", .string ""), ("new_lines", .string "wpautop"), ("esc_html", .int 0)]
    | .tab => [
        ("placement", .string "top"), ("endpoint", .int 0)]
    | .group => [
        ("layout", .string "block")]
    | .repeater => [
        ("collapsed", .string ""), ("min", .int 0), ("max", .int 0), ("layout", .string "block"),
        ("button_label", .string "Add Item")]
    | .flexibleContent => [
        ("button_label", .string "Add Block"), ("min", .string ""), ("max", .string "")]
    | .clone => [
        ("clone", .array []), ("display", .string "seamless"), ("layout", .string "block"),
        ("prefix_label", .int 0), ("prefix_name", .int 0)]

end FieldKind

end PageBlocks
