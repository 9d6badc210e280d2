import PageBlocks.Definitions.Load
import PageBlocks.Schema.Compile
import PageBlocks.Schema.Encode
import PageBlocks.Schema.Decode
import PageBlocks.Value.Reader
import PageBlocks.Rows.Flatten
import PageBlocks.Render.Layout
import PageBlocks.Lint

/-!
# The builder

A builder owns definitions, the schema that is published from them, a render
cache and a store. Compiling publishes a whole schema or leaves everything as
it was. A schema with a new hash is recorded in the store's history and drops
what is cached. When the definitions do not compile at the start, the schema
recorded last is published instead.
-/

namespace PageBlocks

/-- System store inside a data directory. -/
def storeFile : String := "_system.db"

/-- What an open store still allows. -/
inductive StoreAccess where
  | full
  /-- Its file was removed. -/
  | readOnly
  /-- Its file was overwritten. -/
  | none
deriving DecidableEq, Repr, Inhabited

structure Builder where
  /-- The data directory, if there is one. -/
  root : Option String
  resources : Resources
  definitions : Definitions
  published : Option CompiledSchema := none
  cache : RenderCache
  store : Store
  access : StoreAccess := .full

/-- What a builder does: it may fail, and its changes stay either way. -/
abbrev Acting := ExceptT Error (StateT Builder Noted)

namespace Acting

variable {α : Type}

/-- The builder at this point. -/
def builder : Acting Builder := ExceptT.lift get

def update (f : Builder → Builder) : Acting Unit := ExceptT.lift (modify f)

def note (n : Notice) : Acting Unit := ExceptT.lift (StateT.lift (Noted.note n))

/-- The outcome of an attempt, with its notices. -/
def outcome (attempt : Attempt α) : Acting (Except Error α) :=
  ExceptT.lift (StateT.lift attempt.outcome)

def ofAttempt (attempt : Attempt α) : Acting α := ExceptT.mk (StateT.lift attempt.outcome)

def ofNoted (x : Noted α) : Acting α := ExceptT.lift (StateT.lift x)

end Acting

namespace Builder

open Acting

/-- A builder before anything is published. -/
def assemble (root : Option String) (resources : Resources) (definitions : Definitions)
    (store : Store) : Builder :=
  { root := root
    resources := resources
    definitions := definitions
    cache := .ofSettings definitions.settings
    store := store }

/-! ## The store -/

/-- The store as it can be read. -/
def readStore : Acting Store := do
  let b ← builder
  if b.access = .none then throw (.storage .notAStore) else return b.store

/-- Changes the store. -/
def writeStore (store : Store) : Acting Unit := do
  match (← builder).access with
  | .full => update fun b => { b with store := store }
  | .readOnly => throw (.storage .detached)
  | .none => throw (.storage .notAStore)

/-- Records a schema and then drops stored renderings, unless the schema recorded last has its
hash. -/
def recordSchema (schema : CompiledSchema) (now : Instant) : Acting Unit := do
  let store ← readStore
  if store.last?.map (·.hash) ≠ some schema.sourceHash then
    writeStore (store.record schema.sourceHash schema.toValue.compact now)
    writeStore (← readStore).clear

/-! ## Compiling and publishing -/

/-- Whether publishing a schema changes the hash of the published one. -/
def changes (b : Builder) (schema : CompiledSchema) : Bool :=
  b.published.any fun before => before.sourceHash != schema.sourceHash

def publish (schema : CompiledSchema) : Acting Unit := do
  note (.published schema.sourceHash schema.index.size)
  update fun b => { b with published := some schema }

/-- The schema of some definitions. -/
def compiled (definitions : Definitions) (resources : Resources) (now : Instant) :
    Attempt CompiledSchema := do
  PageBlocks.compile (← Registry.build definitions resources) now

/-- Compiles the definitions and publishes the schema. -/
def compile (now : Instant) : Acting CompiledSchema := do
  let b ← builder
  match ← outcome (compiled b.definitions b.resources now) with
  | .error error =>
    if b.published.isSome then note (.keptPublished error)
    throw error
  | .ok schema =>
    -- The store follows what was recorded last, the cache what is published.
    recordSchema schema now
    update fun b => { b with cache := if b.changes schema then b.cache.clear else b.cache }
    publish schema
    return schema

/-- Replaces the definitions and compiles them. -/
def setDefinitions (definitions : Definitions) (now : Instant) : Acting CompiledSchema := do
  update fun b => { b with definitions := definitions }
  compile now

/-- The path of the definition file of a data directory. -/
def configPath (root : String) : String := Path.join root configFile

/-- The data directory, which must be there. -/
def requireRoot : Acting String := do
  match (← builder).root with
  | some root => return root
  | none => throw .noDataDirectory

/-- Loads the definitions again and compiles them. -/
def reload (files : FileTree) (now : Instant) : Acting CompiledSchema := do
  let root ← requireRoot
  let definitions ← ofAttempt (Definitions.load files (configPath root))
  setDefinitions definitions now

/-- The schema that the text of a record holds. -/
def readRecord (record : SchemaRecord) : Except Error CompiledSchema :=
  match (JsonText.read? record.schema).bind CompiledSchema.ofValue? with
  | some schema => .ok schema
  | none => .error .badJson

/-- Publishes what the definitions compile to, or else the schema recorded last. -/
def boot (now : Instant) : Acting Unit := do
  match ← ExceptT.lift (compile now).run with
  | .ok _ => return
  | .error error =>
    -- Without a history there is nothing to fall back to.
    match (← readStore).last? with
    | none => throw error
    | some record =>
      let schema ← ofExcept (readRecord record)
      note (.servingLastGood error record.hash record.recordedText)
      publish schema

/-- Adds stored renderings to the cache. -/
def loadCache : Acting Unit := do
  let stored ← ofExcept (← readStore).renderings
  let (_, count) := (← builder).cache.load stored
  update fun b => { b with cache := (b.cache.load stored).1 }
  if 0 < count then note (.cacheLoaded count)

/-! ## Starting -/

/-- Runs the start of an assembled builder: the builder if it could start, and its store. -/
def start (b : Builder) (action : Acting Unit) : Noted (Except Error Builder × Store) := do
  let (result, after) ← action.run.run b
  return (result.map fun _ => after, after.store)

/-- A builder of definitions alone, with a store of its own. -/
def ofDefinitions (definitions : Definitions) (resources : Resources) (now : Instant) :
    Attempt Builder := do
  let (result, _) ← ExceptT.lift (start (assemble none resources definitions .empty) (boot now))
  ofExcept result

/-- The definitions of a data directory. -/
def openDefinitions (files : FileTree) (root : String) : Attempt Definitions := do
  if !files.exists? root then throw (.directoryMissing root)
  if !files.exists? (configPath root) then throw (.configMissing root)
  Definitions.load files (configPath root)

/-- The path of the system store of a data directory. -/
def storePath (root : String) : String := Path.join root storeFile

/-- The system store of a data directory, empty where there is none yet. A file of one byte counts
as an empty one. -/
def openStore (files : FileTree) (root : String) : Except Error Store :=
  let path := storePath root
  match files.node? path with
  | none => .ok .empty
  | some (.store store) => .ok store
  | some (.text content) =>
    if content.utf8ByteSize ≤ 1 then .ok .empty else .error (.storage .notAStore)
  | some .unreadable => .error (.storage .notAStore)
  | some .directory => .error (.storage (.unopened path))

/-- What opening a data directory gives: a builder, or why there is none, and the files. -/
structure Opened where
  result : Except Error Builder
  files : FileTree

/-- Files with the system store of a data directory. -/
def withStore (root : String) (store : Store) (files : FileTree) : FileTree :=
  match files.put (storePath root) (.store store) with
  | .ok files => files
  | .error _ => files

/-- A builder of a data directory. The store is there afterwards, also when the builder cannot
start. -/
def ofDirectory (files : FileTree) (root : String) (resources : Resources) (now : Instant) :
    Noted Opened := do
  match ← (openDefinitions files root).outcome with
  | .error error => return { result := .error error, files := files }
  | .ok definitions =>
    match openStore files root with
    | .error error => return { result := .error error, files := files }
    | .ok store =>
      let (result, store) ← start (assemble (some root) resources definitions store) do
        boot now
        loadCache
      return { result := result, files := withStore root store files }

/-- What a builder can do with its store once other hands have changed the files. A file that is
gone, or holds something else, does not become its store again. -/
def seeFiles (b : Builder) (files : FileTree) : Builder :=
  match b.root, b.access with
  | some root, .full =>
    match files.node? (storePath root) with
    | some (.store _) => b
    | none => { b with access := .readOnly }
    | some _ => { b with access := .none }
  | _, _ => b

/-- Files with what a builder has stored. A store that has been removed does not come back. -/
def keepStore (b : Builder) (files : FileTree) : FileTree :=
  match b.root, b.access with
  | some root, .full => withStore root b.store files
  | _, _ => files

/-! ## Reading -/

/-- The published schema. -/
def schema : Acting CompiledSchema := do
  match (← builder).published with
  | some schema => return schema
  | none => throw .notPublished

/-- What an id stands for in the published schema. -/
def lookup (id : String) : Acting (Option IndexEntry) := do
  return (← schema).index.lookup id

/-- Rehydrates the rows of a layout. -/
def rehydrateLayout (resolver : Resolver) (layout : String) (rows : List Value) :
    Acting (List Value) := do
  ofNoted (PageBlocks.rehydrateLayout (← schema).index resolver layout rows)

/-- Rehydrates an item by its row, or gives nothing when the builder is switched off for it. -/
def rehydrateItem (resolver : Resolver) (row : List (String × Value)) :
    Acting (Option (String × List Value)) := do
  match ← ofExcept (selectLayout (← schema).index row) with
  | none => return none
  | some selected =>
    return some (selected.layout, ← rehydrateLayout resolver selected.layout selected.rows)

/-- Writes blocks back as rows. -/
def flattenLayout (blocks : List Value) : Acting (List Value) := do
  ofNoted (PageBlocks.flattenLayout (← schema).index blocks)

/-- Findings on the definitions. -/
def lint : Acting LintReport := do
  let b ← builder
  ofNoted (PageBlocks.lint b.definitions b.resources)

/-- Whether request parameters ask for a cache bust. Any value but `0` and `false` asks for one. -/
def bustRequested (b : Builder) (params : List (String × String)) : Bool :=
  params.any fun (key, value) =>
    key == b.definitions.settings.bustParam && trimBlank value != "0" && trimBlank value != "false"

/-! ## Rendering -/

/-- Runs a rendering on the cache, with some state of the host. -/
def rendering {σ α : Type} (host : σ) (r : Rendering σ α) : Acting (Except Error α × σ) := do
  let (result, after) ← ofNoted (r.run.run { cache := (← builder).cache, host := host })
  update fun b => { b with cache := after.cache }
  return (result, after.host)

/-- Renders a layout of an item. -/
def renderLayout {σ : Type} (request : RenderRequest) (resolver : Resolver)
    (renderer : Renderer σ) (host : σ) (layout : String) (rows : List Value) :
    Acting (Except Error String × σ) := do
  let index := (← schema).index
  let (result, host) ← rendering host
    (PageBlocks.renderLayout request index resolver renderer layout rows)
  return (result.map (·.output), host)

/-- Renders an item by its row. -/
def renderItem {σ : Type} (request : RenderRequest) (resolver : Resolver) (renderer : Renderer σ)
    (host : σ) (row : List (String × Value)) : Acting (Except Error (Option String) × σ) := do
  let index := (← schema).index
  let (result, host) ← rendering host
    (PageBlocks.renderItem request index resolver renderer row)
  return (result.map fun r => r.map (·.output), host)

/-- Renders one block of an item. -/
def renderBlock {σ : Type} (request : RenderRequest) (renderer : Renderer σ) (host : σ)
    (data : Value) : Acting (Except Error String × σ) := do
  let (result, host) ← rendering host (PageBlocks.renderBlock request renderer.block data)
  return (result.map (·.output), host)

/-! ## Upkeep -/

/-- Saves the renderings in the store, in place of those that were there. -/
def saveCache : Acting Unit := do
  let b ← builder
  writeStore (← ofExcept (b.store.replace b.cache.entries.entries))

/-- Drops all renderings, kept and stored, and tells how many there were. -/
def clearCache : Acting Nat := do
  let b ← builder
  update fun b => { b with cache := b.cache.clear }
  writeStore b.store.clear
  return max b.cache.entries.size b.store.tables.renderings.size

/-- What is published, recorded and cached. -/
def status : Acting Value := do
  let b ← builder
  let schema ← schema
  return .ofMembers [
    ("root", .ofText? b.root), ("source_hash", .string schema.sourceHash),
    ("key_scheme", .int schema.keyScheme), ("compiled_at", .string schema.compiledAt.rfc3339),
    ("layouts", .ofTexts schema.index.layoutNames), ("nodes", .int schema.index.size),
    ("history", .int (← readStore).count),
    ("cache", .ofMembers [
      ("enabled", .bool b.cache.enabled), ("entries", .int b.cache.entries.size)])]

end Builder

end PageBlocks
