import PageBlocks.Files.Tree
import PageBlocks.Files.Pattern

/-!
# Files that match a pattern

A pattern of paths is matched component by component. A component that stands
for one name only is looked up as it is.
-/

namespace PageBlocks

namespace Glob

open Pattern

/-- The directory that relative paths start from. -/
def isHere (path : String) : Bool := Path.components path == ["."]

/-- The path of an entry of a directory. -/
def entry (directory name : String) : String :=
  if isHere directory then name else Path.join directory name

/-- Whether a name that is looked up as it is leads on from a path. -/
def leadsOn (tree : FileTree) (directory name : String) : Bool :=
  if name = "." ∨ name = ".." then tree.isDirectory directory
  else entry directory name ≠ "" ∧ tree.exists? (entry directory name)

mutual
/-- Paths below a directory that the components match. -/
def below (tree : FileTree) : Nat → List (List Token) → String → List String
  | fuel + 1, ts :: rest, directory =>
    match literal? ts with
    | some name =>
      if leadsOn tree directory name then onward tree fuel rest (entry directory name) else []
    | none =>
      if tree.isDirectory directory then
        let children := (tree.names directory).flatMap fun name =>
          visit tree fuel (ts :: rest) (entry directory name)
        let special := if ts.head? = some (Token.char '.') then
            [".", ".."].filter fun name => matchesName ts name.toList
          else []
        children ++ special.flatMap fun name => onward tree fuel rest (Path.join directory name)
      else []
  | _, _, _ => []

/-- A path that all components up to here have matched. -/
def onward (tree : FileTree) : Nat → List (List Token) → String → List String
  | _, [], path => [path]
  | fuel + 1, rest, path => below tree fuel rest path
  | 0, _, _ => []

/-- An entry of a directory against the components that are left. -/
def visit (tree : FileTree) : Nat → List (List Token) → String → List String
  | fuel + 1, ts :: rest, path =>
    if isRecursive ts then
      let rest := rest.dropWhile isRecursive
      let deeper := if tree.isDirectory path then below tree fuel (ts :: rest) path else []
      match rest with
      | [] => deeper ++ if tree.isDirectory path then [path] else []
      | next :: after => deeper ++ named tree fuel next after path
    else named tree fuel ts rest path
  | _, _, _ => []

/-- An entry whose name a component must match. -/
def named (tree : FileTree) : Nat → List Token → List (List Token) → String → List String
  | fuel + 1, ts, rest, path =>
    match Path.fileName? path with
    | some name => if matchesName ts name.toList then onward tree fuel rest path else []
    | none => []
  | 0, _, _, _ => []
end

/-- The components of a pattern; a slash at its end leaves none behind it. -/
def componentTexts (pattern : String) : List String :=
  let texts := Path.pieces pattern
  if texts.getLast? = some "" then texts.dropLast else texts

/-- The files that a pattern matches. -/
def files (tree : FileTree) (pattern : String) : Except Fault (List String) := do
  let _ ← tokens pattern
  let absolute := pattern.startsWith "/"
  let relative := if absolute then String.ofList (pattern.toList.drop 1) else pattern
  let components ← (componentTexts relative).mapM tokens
  let fuel := 4 * (components.length + 1) * (tree.height + 2)
  let found := below tree fuel components (if absolute then "/" else ".")
  let found := if pattern.endsWith "/" then [] else found.filter tree.isFile
  return found.mergeSort fun a b => !Path.before b a

end Glob

end PageBlocks
