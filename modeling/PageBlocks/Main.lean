import PageBlocks.Store.Text
import PageBlocks.Command.Resources
import PageBlocks.Command.Usage
import PageBlocks.Command.Watch

/-!
# The program

Reads the data directory and the standard input, runs the command, and writes
back what it changed. All decisions are taken by `Invocation.ofWords`,
`Command.run` and `Watch.recompile`; nothing is decided here.
-/

namespace PageBlocks.Program

/-- Directories that are entered below the data directory. -/
def depthLimit : Nat := 64

/-- The node for a file. -/
def fileNode (path : String) : IO FileNode := do
  try
    let text ← IO.FS.readFile path
    if (Path.pieces path).getLast? = some storeFile then
      return ((Store.ofText? text).map FileNode.store).getD (.text text)
    return .text text
  catch _ => return .unreadable

/-- A tree in which relative paths start at the current directory. -/
def emptyTree : IO FileTree := do
  return .startingAt ((Path.pieces (← IO.currentDir).toString).filter (· ≠ ""))

/-- Adds what stands at a path to a tree, to a depth. -/
def mount (path : String) : (depth : Nat) → FileTree → IO FileTree
  | depth, tree => do
    let place := (← IO.currentDir) / path
    if !(← place.pathExists) then return tree
    if !(← place.isDir) then
      let (tree, _) := tree.makeDirectories (Path.parent path)
      return (tree.put path (← fileNode path)).toOption.getD tree
    let (tree, _) := tree.makeDirectories path
    match depth with
    | 0 => return tree
    | depth + 1 => do
      let mut tree := tree
      for entry in ← place.readDir do
        tree ← mount (Path.join path entry.fileName) depth tree
      return tree

/-- The time now: that of a file just made. -/
def now : IO Instant := do
  let (_, path) ← IO.FS.createTempFile
  let time := (← path.metadata).modified
  IO.FS.removeFile path
  return .ofSeconds time.sec time.nsec.toNat

/-- The rest of the standard input. -/
partial def standardInput (input : IO.FS.Stream) (read : String) : IO String := do
  let line ← input.getLine
  if line.isEmpty then return read else standardInput input (read ++ line)

/-- Files outside the data directory that a command reads or writes. -/
def files : Command → List String
  | .compile output => output.toList
  | .rehydrate _ input | .item input | .flatten input => input.toList
  | _ => []

/-- Whether a command reads the standard input. -/
def readsInput : Command → Bool
  | .rehydrate _ none | .item none | .flatten none => true
  | _ => false

/-- Writes the files that differ from how they were. -/
def writeBack (before after : FileTree) : IO Unit := do
  for (key, node) in after.nodes.entries do
    if before.nodes.get? key ≠ some node then
      match node with
      | .text content => IO.FS.writeFile ("/" ++ key) content
      | .store store => IO.FS.writeFile ("/" ++ key) store.text
      | .directory | .unreadable => pure ()

/-- Shows warnings. -/
def warn (notices : List Notice) : IO Unit := do
  for notice in notices do
    if notice.severity == .warning then IO.eprintln notice.line

/-- Recompiles whenever definition files have changed. -/
partial def watch (root : String) (format : OutputFormat) (builder : Builder) (seen : FileTree) :
    IO Unit := do
  IO.sleep 100
  let tree ← mount root depthLimit (← emptyTree)
  match Watch.changed seen tree with
  | [] => watch root format builder tree
  | paths =>
    let ⟨(builder, report), notices⟩ := Watch.recompile builder tree paths (← now)
    warn notices
    IO.print (format.write report)
    writeBack tree (builder.keepStore tree)
    watch root format builder tree

/-- Opens a builder and watches its directory. -/
def startWatching (root : String) (format : OutputFormat) : IO Unit := do
  let tree ← mount root depthLimit (← emptyTree)
  let ⟨opened, _⟩ := Builder.ofDirectory tree root resources (← now)
  match opened.result with
  | .ok builder => watch root format builder tree
  | .error _ => return

/-- Runs a command on the file system. -/
def run (root : String) (format : OutputFormat) (command : Command) : IO UInt32 := do
  let mut tree ← mount root depthLimit (← emptyTree)
  for path in files command do
    tree ← mount (Path.parent path) 0 (← mount path 0 tree)
  let input ← if readsInput command then standardInput (← IO.getStdin) "" else pure ""
  let ⟨(result, after), notices⟩ :=
    (command.run resources input root format (← now)).run.run { files := tree }
  warn notices
  IO.print after.printed
  writeBack tree after.files
  match result with
  | .ok () =>
    if command = .watch then startWatching root format
    return 0
  | .error error =>
    IO.eprintln ("ERROR:" ++ error.message)
    return 1

end PageBlocks.Program

open PageBlocks in
def main (words : List String) : IO UInt32 := do
  match Invocation.ofWords words with
  | .run root format command => Program.run root format command
  | .help about =>
    IO.print (Usage.help about)
    return 0
  | .version =>
    IO.print Usage.version
    return 0
  | .misuse =>
    IO.eprint Usage.hint
    return 2
