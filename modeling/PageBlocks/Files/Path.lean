/-!
# Paths

Paths are texts with components between slashes. Empty components mean nothing,
and neither does `.` unless a relative path begins with it; two paths are the
same when the components that mean something agree.
-/

namespace PageBlocks

/-- The texts between the places where a character stands. -/
def textsBetween (separator : Char) (s : String) : List String :=
  (s.toList.splitOn separator).map String.ofList

namespace Path

/-- The texts between slashes. -/
def pieces (path : String) : List String := textsBetween '/' path

/-- The components that mean something. An absolute path begins with a slash. -/
def components (path : String) : List String :=
  match pieces path with
  | first :: rest =>
    let others := rest.filter fun c => c ≠ "" ∧ c ≠ "."
    if first = "" then if rest.isEmpty then [] else "/" :: others else first :: others
  | [] => []

/-- Whether two texts are one path. -/
def same (a b : String) : Bool := components a == components b

/-- The path of something below a path. -/
def join (base name : String) : String :=
  if name.startsWith "/" then name
  else if base = "" ∨ base.endsWith "/" then base ++ name
  else base ++ "/" ++ name

/-- Drops what means nothing at the end of some pieces in reverse. The first piece of all means
something. -/
def trimmed : List String → List String
  | [] => []
  | [first] => [first]
  | piece :: rest => if piece = "" ∨ piece = "." then trimmed rest else piece :: rest

/-- The directory of a path, as it is written. -/
def parent (path : String) : String :=
  String.intercalate "/" (trimmed (trimmed (pieces path).reverse).tail).reverse

/-- The last component, unless it leads upwards. -/
def fileName? (path : String) : Option String :=
  (components path).getLast?.filter fun c => c ≠ ".." ∧ c ≠ "." ∧ c ≠ "/"

/-- The place of a kind of component among the others: the root comes first, then where a path
starts from, then the directory above, and names last. -/
def rank (component : String) : Nat :=
  if component = "/" then 0 else if component = "." then 1 else if component = ".." then 2 else 3

/-- What a component is compared by: its kind, and then its characters. -/
def ordinal (component : String) : List Nat :=
  rank component :: component.toList.map Char.toNat

/-- Paths compare by components; what is below a path comes after it. -/
def before (a b : String) : Bool :=
  decide ((components a).map ordinal < (components b).map ordinal)

end Path

/-- Whether a path names a definition file: a YAML file that is neither hidden nor a backup. A
name that begins with its only point has no extension. -/
def isDefinitionFile (path : String) : Bool :=
  match Path.fileName? path with
  | none => false
  | some name =>
    !name.startsWith "." && !name.endsWith "~" &&
      match (textsBetween '.' name).reverse with
      | extension :: _ :: _ => extension == "yaml" || extension == "yml"
      | _ => false

end PageBlocks
