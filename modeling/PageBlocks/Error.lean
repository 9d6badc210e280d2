import PageBlocks.Entity
import PageBlocks.Files.Pattern

/-!
# Errors

What can go wrong, by cause. The wording is in `Error.message` alone. Causes
that lie in a format or in the file system (`unreadable`, `badYaml`, `badJson`)
carry no detail.
-/

namespace PageBlocks

/-- Definition file at the root of a data directory. -/
def configFile : String := "blockpress.yaml"

/-- Why a system store cannot be used. -/
inductive StoreFault where
  /-- A file in its place holds something else. -/
  | notAStore
  /-- There cannot be a file in its place. -/
  | unopened (path : String)
  /-- The file was taken away while the store was open. -/
  | detached
  | nestedBegin
  | nothingToCommit
  | nothingToRollBack
deriving DecidableEq, Repr, Inhabited

/-- The text shown for a fault of a store. -/
def StoreFault.text : StoreFault → String
  | .notAStore => "file is not a database"
  | .unopened path => "unable to open database file: " ++ path
  | .detached => "attempt to write a readonly database"
  | .nestedBegin => "cannot start a transaction within a transaction"
  | .nothingToCommit => "cannot commit - no transaction is active"
  | .nothingToRollBack => "cannot rollback - no transaction is active"

inductive Error where
  /-- Two sibling fields have one name. -/
  | duplicateFieldName (entity group name : String)
  | unknownEntity (name : String)
  | unknownFieldType (entity field type : String)
  /-- A block collection is compiled where no layout owns it. -/
  | missingLayoutContext (path : String)
  /-- A parent names a child whose own rules forbid that parent. -/
  | incompatibleNesting (child parent : String)
  | missingTemplate (name : String)
  /-- A visibility rule names a field that is no sibling. -/
  | unknownConditionField (entity field target : String)
  | invalidName (name : String)
  /-- A data directory has no definition file. -/
  | configMissing (directory : String)
  /-- A builder made from definitions alone has no files. -/
  | noDataDirectory
  | badIncludePattern (pattern : String) (fault : Pattern.Fault)
  /-- A host's template failed. -/
  | render (text : String)
  /-- Data given to be rendered is no rehydrated block. -/
  | missingMeta
  /-- The lint reported errors. -/
  | invalidDefinitions (errors : List String)
  | unreadable
  | badYaml
  | badJson
  | storage (fault : StoreFault)
  /-- Two nodes of one tree have one id. -/
  | keyCollision (id : String) (entity : EntityRef)
  | noLayouts
  | directoryMissing (path : String)
  | notPublished
  /-- A stored time cannot be read back. -/
  | badTimestamp (key : String)
  /-- A chain of references to generators goes on past the length that was allowed. -/
  | expansionLimit
  /-- Blocks are nested deeper than there are blocks; no compilation meets this. -/
  | nestingLimit
deriving DecidableEq, Repr, Inhabited

namespace Error

/-- The text shown for an error. -/
def message : Error → String
  | .duplicateFieldName entity group name =>
    "Duplicate field name '" ++ name ++ "' in " ++ entity ++ " (" ++ group ++ ")"
  | .unknownEntity name => "Unknown entity: " ++ name
  | .unknownFieldType entity field type =>
    "Unknown field type '" ++ type ++ "' for field '" ++ field ++ "' in " ++ entity
  | .missingLayoutContext path =>
    "Collection field '" ++ path ++ "' compiled without a layout context"
  | .incompatibleNesting child parent =>
    "Incompatible nesting: '" ++ child ++ "' cannot be nested within '" ++ parent ++ "'"
  | .missingTemplate name => "Missing template for " ++ name
  | .unknownConditionField entity field target =>
    "Field '" ++ field ++ "' in " ++ entity ++ " has conditional logic on unknown sibling '" ++
      target ++ "'"
  | .invalidName name => "Invalid name '" ++ name ++ "'"
  | .configMissing directory => "Config error: " ++ configFile ++ " not found in " ++ directory
  | .noDataDirectory => "Config error: Builder has no data directory"
  | .badIncludePattern pattern fault =>
    "Config error: Bad include pattern '" ++ pattern ++ "': " ++ fault.text
  | .render text => "Render error: " ++ text
  | .missingMeta => "Render error: Block data carries no _meta envelope"
  | .invalidDefinitions errors => "Validation error: " ++ String.intercalate "; " errors
  | .unreadable => "IO error:"
  | .badYaml => "YAML error:"
  | .badJson => "JSON error:"
  | .storage fault => "SQLite error: " ++ fault.text
  | .keyCollision id entity => "Key collision on " ++ id ++ " (" ++ entity.display ++ ")"
  | .noLayouts => "No layouts have been compiled"
  | .directoryMissing path => "Data directory does not exist: " ++ path
  | .notPublished => "No schema has been published"
  | .badTimestamp key => "Bad timestamp for " ++ key ++ ": input contains invalid characters"
  | .expansionLimit => "Field generators refer to one another without end"
  | .nestingLimit => "Blocks are nested too deep"

/-- Whether an error is structural: it rejects a whole compilation, so that no partial schema is
ever published. -/
def isFatal : Error → Bool
  | .duplicateFieldName .. | .unknownFieldType .. | .missingLayoutContext ..
  | .unknownConditionField .. | .invalidName .. => true
  | _ => false

end Error

end PageBlocks
