import PageBlocks.Command.Run

/-!
# Watching a data directory

What happens when definition files of a watched data directory have changed: the
definitions are loaded and compiled again, and the outcome is printed.
-/

namespace PageBlocks

namespace Watch

/-- Paths of the definition files that differ between two states of the files. -/
def changed (before after : FileTree) : List String :=
  (before.nodes.keys ++ after.nodes.keys.filter fun path => !before.nodes.contains path).filter
    fun path => isDefinitionFile path && before.nodes.get? path ≠ after.nodes.get? path

/-- What is printed of a recompilation. -/
def report (paths : List String) : Except Error CompiledSchema → Value
  | .ok schema => .ofMembers [
      ("ok", .bool true), ("changed", .ofTexts paths), ("source_hash", .string schema.sourceHash)]
  | .error error => .ofMembers [
      ("ok", .bool false), ("changed", .ofTexts paths), ("error", .string error.message)]

/-- The builder after a recompilation, and what is printed of it. -/
def recompile (builder : Builder) (files : FileTree) (paths : List String) (now : Instant) :
    Noted (Builder × Value) := do
  let (result, after) ← (Builder.reload files now).run.run (builder.seeFiles files)
  return (after, report paths result)

end Watch

end PageBlocks
