import PageBlocks.Builder
import PageBlocks.Yaml.Writer
import PageBlocks.Command.Invocation

/-!
# Running commands

A command works on files and prints values. It may print and fail all the same:
a lint shows its report before it fails.
-/

namespace PageBlocks

/-- Why a command fails. -/
inductive CommandError where
  | failed (error : Error)
  | unknownId (id : String)
  | itemNoObject
  | lintErrors (count : Nat)
  | inputUnreadable (path : String)
  | outputUnwritable (path : String)
deriving DecidableEq, Repr, Inhabited

/-- The text shown for an error. -/
def CommandError.message : CommandError → String
  | .failed error => error.message
  | .unknownId id => "Unknown node id: " ++ id
  | .itemNoObject => "Item input must be a JSON object"
  | .lintErrors count => toString count ++ " validation error(s)"
  | .inputUnreadable path => "Failed to read input file '" ++ path ++ "':"
  | .outputUnwritable path => "Failed to write '" ++ path ++ "':"

/-- What a command has to do with: files, and what it printed. -/
structure CommandState where
  files : FileTree
  printed : String := ""

/-- A running command; what it changed and printed stays when it fails. -/
abbrev Running := ExceptT CommandError (StateT CommandState Noted)

/-- A value as it is printed. -/
def OutputFormat.write (v : Value) : OutputFormat → String
  | .json => v.indented "" ++ "\n"
  | .yaml => Yaml.write v

namespace Running

variable {α : Type}

def files : Running FileTree := do return (← ExceptT.lift get).files

def setFiles (files : FileTree) : Running Unit :=
  ExceptT.lift (modify fun s => { s with files := files })

def print (format : OutputFormat) (v : Value) : Running Unit :=
  ExceptT.lift (modify fun s => { s with printed := s.printed ++ format.write v })

def ofNoted (x : Noted α) : Running α := ExceptT.lift (StateT.lift x)

/-- A result that the library gives. -/
def ofExcept : Except Error α → Running α
  | .ok a => return a
  | .error error => throw (.failed error)

/-- Opens a data directory and does something with its builder. -/
def opened (resources : Resources) (root : String) (now : Instant) (action : Acting α) :
    Running α := do
  let start ← ofNoted (Builder.ofDirectory (← files) root resources now)
  setFiles start.files
  let builder ← ofExcept start.result
  let (result, after) ← ofNoted (action.run.run builder)
  setFiles (after.keepStore (← files))
  ofExcept result

/-- The value in an input file or in the standard input. -/
def input (standardInput : String) (path : Option String) : Running Value := do
  let text ←
    match path with
    | none => pure standardInput
    | some path =>
      match (← files).read path with
      | .ok text => pure text
      | .error _ => throw (.inputUnreadable path)
  match JsonText.read? text with
  | some v => return v
  | none => throw (.failed .badJson)

/-- The list of rows in an input. -/
def inputRows (standardInput : String) (path : Option String) : Running (List Value) := do
  match (← input standardInput path).items? with
  | some items => return items
  | none => throw (.failed .badJson)

end Running

namespace Command

open Running

variable (resources : Resources) (standardInput root : String) (format : OutputFormat)
  (now : Instant)

/-- Compiles a data directory, and prints the field group or writes it to a file. -/
def runCompile (output : Option String) : Running Unit := do
  let schema ← opened resources root now (Builder.compile now)
  let group := schema.group.toValue
  match output with
  | none => print format group
  | some path =>
    match (← files).put path (.text (group.indented "")) with
    | .error _ => throw (.outputUnwritable path)
    | .ok files => do
      setFiles files
      print format (.ofMembers [
        ("ok", .bool true), ("source_hash", .string schema.sourceHash),
        ("nodes", .int schema.index.size), ("output", .string path)])

/-- Lints definitions as they are, whether they compile or not. -/
def runValidate : Running Unit := do
  let loaded ← ofNoted (Definitions.load (← files) (Builder.configPath root)).outcome
  let report ← ofNoted (PageBlocks.lint (← ofExcept loaded) resources)
  print format report.toValue
  if !report.isValid then throw (.lintErrors report.errors.length)

/-- The rehydrated blocks of the item in an input, with its layout. -/
def runItem (path : Option String) : Running Unit := do
  match (← input standardInput path).members? with
  | none => throw .itemNoObject
  | some row =>
    match ← opened resources root now (Builder.rehydrateItem .none row) with
    | none => print format (.ofMembers [("enabled", .bool false)])
    | some (layout, blocks) =>
      print format (.ofMembers [("layout", .string layout), ("blocks", .array blocks)])

/-- Runs a command. Inputs are read before the data directory is opened. -/
def run : Command → Running Unit
  | .compile output => runCompile resources root format now output
  | .flatmap => do
    let schema ← opened resources root now Builder.schema
    print format (.array (schema.index.listing.map IndexEntry.toValue))
  | .lookup id => do
    match ← opened resources root now (Builder.lookup id) with
    | some entry => print format entry.toValue
    | none => throw (.unknownId id)
  | .rehydrate layout path => do
    let rows ← inputRows standardInput path
    print format (.array (← opened resources root now (Builder.rehydrateLayout .none layout rows)))
  | .item path => runItem resources standardInput root format now path
  | .flatten path => do
    let blocks ← inputRows standardInput path
    print format (.array (← opened resources root now (Builder.flattenLayout blocks)))
  | .validate => runValidate resources root format
  | .status => do print format (← opened resources root now Builder.status)
  | .watch => do let _ ← opened resources root now Builder.requireRoot
  | .clearCache => do
    let removed ← opened resources root now Builder.clearCache
    print format (.ofMembers [("ok", .bool true), ("removed", .int removed)])

end Command

end PageBlocks
