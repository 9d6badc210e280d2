import PageBlocks.Definitions.Basic

/-!
# Field generators

Named presets of fields. A generator makes declarations from the arguments of a
reference to it; the declarations may hold further references in their
sub-fields.
-/

namespace PageBlocks

/-- Makes declarations from arguments. -/
abbrev Generator := List Value → List FieldDeclaration

/-- Generators by name. -/
abbrev Generators := Dict Generator

namespace FieldDeclaration

/-- A field with a name, a label and a type. -/
def simple (name label type : String) : FieldDeclaration :=
  ⟨some name, { label := some label, type := type }, []⟩

def withOption (d : FieldDeclaration) (key : String) (value : Value) : FieldDeclaration :=
  { d with attributes := { d.attributes with options := d.attributes.options.insert key value } }

def withDefault (d : FieldDeclaration) (value : Value) : FieldDeclaration :=
  { d with attributes := { d.attributes with defaultValue := some value } }

end FieldDeclaration

namespace Generator

/-- A field whose name and label the first two arguments may replace. -/
def preset (name label type : String) (args : List Value) : FieldDeclaration :=
  .simple (((args[0]?).bind Value.string?).getD name) (((args[1]?).bind Value.string?).getD label)
    type

def choices (pairs : List (String × String)) : Value :=
  .ofMembers (pairs.map fun (key, label) => (key, .string label))

def backgroundColor (args : List Value) : FieldDeclaration :=
  preset "bg_color" "Background Color" "color_picker" args

def backgroundImage (args : List Value) : FieldDeclaration :=
  ((preset "bg_image" "Background Image" "image" args).withOption "return_format"
    (.string "array")).withOption "preview_size" (.string "thumbnail")

def backgroundRepeat (args : List Value) : FieldDeclaration :=
  ((preset "bg_repeat" "Background Repeat" "select" args).withOption "choices"
    (choices [("no-repeat", "No Repeat"), ("repeat-x", "Repeat Horizontally"),
      ("repeat-y", "Repeat Vertically"), ("repeat", "Repeat")])).withDefault (.string "no-repeat")

def backgroundSize (args : List Value) : FieldDeclaration :=
  ((preset "bg_size" "Background Size" "select" args).withOption "choices"
    (choices [("none", "None"), ("cover", "Cover"), ("contain", "Contain")])).withDefault
      (.string "cover")

def backgroundPosition (args : List Value) : FieldDeclaration :=
  ((preset "bg_position" "Background Position" "select" args).withOption "choices"
    (choices [("tl", "Top Left"), ("t", "Top"), ("tr", "Top Right"), ("l", "Left"),
      ("center", "Center"), ("bl", "Bottom Left"), ("b", "Bottom"),
      ("br", "Bottom Right")])).withDefault (.string "center")

/-- All background fields, which take no arguments together. -/
def background : Generator := fun _ =>
  [backgroundColor [], backgroundImage [], backgroundRepeat [], backgroundSize [],
    backgroundPosition []]

end Generator

namespace Generators

open Generator

/-- The presets for backgrounds. -/
def builtin : Generators :=
  .ofList [
    ("bg_color", fun args => [backgroundColor args]),
    ("bg_image", fun args => [backgroundImage args]),
    ("bg_repeat", fun args => [backgroundRepeat args]),
    ("bg_size", fun args => [backgroundSize args]),
    ("bg_position", fun args => [backgroundPosition args]),
    ("background", background)]

/-- The declarations that a reference stands for, or nothing where no generator has its name. -/
def resolve? (generators : Generators) (ref : GeneratorRef) : Option (List FieldDeclaration) :=
  (Dict.get? generators ref.generator).map fun generator => generator ref.args

end Generators

end PageBlocks
