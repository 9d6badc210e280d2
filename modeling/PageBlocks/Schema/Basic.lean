import PageBlocks.Schema.Node
import PageBlocks.Schema.Index
import PageBlocks.Instant

/-!
# Compiled schemas

What one successful compilation gives, and what is recorded of it: the tree,
its index, and the hash of the definitions both were compiled from.
-/

namespace PageBlocks

structure CompiledSchema where
  group : FieldGroupNode
  index : FlatIndex
  /-- Hash of the definitions. -/
  sourceHash : String
  /-- Version of the derivation of ids. -/
  keyScheme : Nat
  compiledAt : Instant
deriving Inhabited

end PageBlocks
