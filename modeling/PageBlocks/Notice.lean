import PageBlocks.Error

/-!
# Notices

What the library reports while it works, by cause. Operations return their
notices in order; whoever runs them decides what to show. The wording is in
`Notice.text` alone.
-/

namespace PageBlocks

/-- How much a notice matters. -/
inductive Severity where
  | warning
  | info
  | debug
deriving DecidableEq, Repr, Inhabited

namespace Severity

/-- Warnings come first. -/
def rank : Severity → Nat
  | .warning => 0
  | .info => 1
  | .debug => 2

/-- How a line of a log begins. -/
def label : Severity → String
  | .warning => "WARN"
  | .info => "INFO"
  | .debug => "DEBUG"

end Severity

inductive Notice where
  | unknownGenerator (generator block : String)
  | reservedOption (option field : String)
  | badWrapper (field reason : String)
  /-- A list of children names a block that is not registered. -/
  | skippedChild (name : String)
  | alreadyEncloses (block parent : String)
  | notOffered (block parent : String)
  | layoutNotIndexed (layout : String)
  | noSuchField (group field block : String)
  | foreignField (id parent : String)
  | unknownVariant (collection : String)
  | missingTemplate (name : String)
  | unrecognisedRow (layout : String)
  | builderDisabled (item : String)
  | bustIgnored
  | cacheHit (key : String)
  | cacheMiss (key : String)
  | notCached (key : String)
  | cacheLoaded (count : Nat)
  | nestedIncludes (path : String)
  | patternUnmatched (pattern : String)
  | blockRedefined (name path : String)
  | layoutRedefined (name path : String)
  | published (hash : String) (nodes : Nat)
  | keptPublished (error : Error)
  | servingLastGood (error : Error) (hash recordedAt : String)
  | lint (warning : String)
deriving DecidableEq, Repr, Inhabited

namespace Notice

def severity : Notice → Severity
  | .notOffered .. | .foreignField .. | .unknownVariant .. | .builderDisabled .. | .bustIgnored
  | .cacheHit .. | .cacheMiss .. | .notCached .. | .cacheLoaded .. => .debug
  | .published .. => .info
  | _ => .warning

/-- The text of a notice. -/
def text : Notice → String
  | .unknownGenerator generator block =>
    "Unknown field generator '" ++ generator ++ "' in block '" ++ block ++ "', slot omitted"
  | .reservedOption option field =>
    "Ignoring reserved option '" ++ option ++ "' on field '" ++ field ++ "'"
  | .badWrapper field reason => "Ignoring bad wrapper on field '" ++ field ++ "': " ++ reason
  | .skippedChild name => "Skipping nested block: " ++ (Error.unknownEntity name).message
  | .alreadyEncloses block parent =>
    "Skipping block '" ++ block ++ "' inside '" ++ parent ++
      "': it already encloses this collection"
  | .notOffered block parent =>
    "Block '" ++ block ++ "' is not offered inside '" ++ parent ++ "'"
  | .layoutNotIndexed layout => "Layout '" ++ layout ++ "' is not in the compiled index"
  | .noSuchField group field block =>
    "No field '" ++ group ++ "." ++ field ++ "' in block '" ++ block ++ "'"
  | .foreignField id parent => "Passing through '" ++ id ++ "': not a field of " ++ parent
  | .unknownVariant collection =>
    "Passing through row without a known variant in " ++ collection
  | .missingTemplate name => "Missing template for " ++ name
  | .unrecognisedRow layout => "Skipping unrecognised row in layout '" ++ layout ++ "'"
  | .builderDisabled item => "Builder disabled for item " ++ item
  | .bustIgnored => "Ignoring cache bust from unprivileged caller"
  | .cacheHit key => "Render cache hit: " ++ key
  | .cacheMiss key => "Render cache miss: " ++ key
  | .notCached key => "Not caching " ++ key ++ ": output holds a placeholder"
  | .cacheLoaded count => "Loaded " ++ toString count ++ " persisted render cache entries"
  | .nestedIncludes path => "Nested includes in " ++ path ++ " are ignored"
  | .patternUnmatched pattern => "Include pattern '" ++ pattern ++ "' matched no files"
  | .blockRedefined name path => "Block '" ++ name ++ "' redefined in " ++ path
  | .layoutRedefined name path => "Layout '" ++ name ++ "' redefined in " ++ path
  | .published hash nodes =>
    "Published schema " ++ hash ++ " (" ++ toString nodes ++ " nodes)"
  | .keptPublished error =>
    "Compilation failed, keeping the published schema: " ++ error.message
  | .servingLastGood error hash recordedAt =>
    "Compilation failed (" ++ error.message ++ "); serving last-good schema " ++ hash ++
      " recorded at " ++ recordedAt
  | .lint warning => warning

/-- The line of a log. -/
def line (n : Notice) : String := n.severity.label ++ ": " ++ n.text

end Notice

/-- A result together with the notices on the way to it, in order. -/
structure Noted (α : Type) where
  value : α
  notices : List Notice := []

namespace Noted

instance : Monad Noted where
  pure a := ⟨a, []⟩
  bind x f :=
    let y := f x.value
    ⟨y.value, x.notices ++ y.notices⟩

/-- Reports one notice. -/
def note (n : Notice) : Noted Unit := ⟨(), [n]⟩

/-- Reports notices in order. -/
def noteAll (ns : List Notice) : Noted Unit := ⟨(), ns⟩

end Noted

/-- An operation that may fail; its notices are kept either way. -/
abbrev Attempt := ExceptT Error Noted

namespace Attempt

/-- The outcome and the notices. -/
def outcome {α : Type} (x : Attempt α) : Noted (Except Error α) := x.run

/-- Reports one notice. -/
def note (n : Notice) : Attempt Unit := ExceptT.lift (Noted.note n)

/-- Reports notices in order. -/
def noteAll (ns : List Notice) : Attempt Unit := ExceptT.lift (Noted.noteAll ns)

end Attempt

end PageBlocks
