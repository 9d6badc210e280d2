import PageBlocks.Yaml.Definitions
import PageBlocks.Files.Glob
import PageBlocks.Notice

/-!
# Loading definitions

A data directory has one definition file at its root, whose patterns name
further ones. Those contribute blocks and layouts only. Every file is loaded
once, at its first position when the patterns are taken in order and the files
of each pattern by path; of several definitions with one name the last loaded
wins. Any file that cannot be read fails the whole load.
-/

namespace PageBlocks

namespace Definitions

/-- The definitions in a file. -/
def ofFile (files : FileTree) (path : String) : Except Error Definitions := do
  match ofYaml? (← files.read path) with
  | some d => return d
  | none => throw .badYaml

/-- Adds paths that are not in a list yet. -/
def addPaths (paths found : List String) : List String :=
  found.foldl (fun paths path =>
    if paths.any (Path.same path) then paths else paths ++ [path]) paths

/-- Files that patterns match below a directory, each once. -/
def includedPaths (files : FileTree) (base : String) :
    (patterns : List String) → (paths : List String) → Attempt (List String)
  | [], paths => return paths
  | pattern :: rest, paths =>
    match Glob.files files (base ++ "/" ++ pattern) with
    | .error fault => throw (.badIncludePattern pattern fault)
    | .ok found => do
      -- A pattern without matches is no failure.
      if found.isEmpty then Attempt.note (.patternUnmatched pattern)
      includedPaths files base rest (addPaths paths found)

/-- Entries of one dictionary put into another. -/
def overlay {α : Type} (base top : Dict α) : Dict α :=
  top.entries.foldl (fun all entry => all.insert entry.1 entry.2) base

/-- The definitions with blocks and layouts of a file on top. -/
def merge (d file : Definitions) : Definitions :=
  { d with blocks := overlay d.blocks file.blocks, layouts := overlay d.layouts file.layouts }

/-- What is reported of merging a file. -/
def mergeNotices (d file : Definitions) (path : String) : List Notice :=
  (if file.includes.isEmpty then [] else [Notice.nestedIncludes path]) ++
    ((file.blocks.keys.filter d.blocks.contains).map fun name => .blockRedefined name path) ++
    ((file.layouts.keys.filter d.layouts.contains).map fun name => .layoutRedefined name path)

/-- Merges files in order. -/
def mergeFiles (files : FileTree) : Definitions → List String → Attempt Definitions
  | d, [] => return d
  | d, path :: rest => do
    let file ← ExceptT.mk (pure (ofFile files path))
    Attempt.noteAll (mergeNotices d file path)
    mergeFiles files (d.merge file) rest

/-- The definitions of a definition file and of the files it includes. -/
def load (files : FileTree) (path : String) : Attempt Definitions := do
  let d ← ExceptT.mk (pure (ofFile files path))
  let paths ← includedPaths files (Path.parent path) d.includes []
  mergeFiles files d (paths.filter fun p => !Path.same p path)

end Definitions

end PageBlocks
