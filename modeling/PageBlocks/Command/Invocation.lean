/-!
# Invocations

What the words of a command line ask for. Options of the program stand before
the name of the command, options of a command behind it. An option is given at
most once, its value behind an equals sign or as the next word; that word does
not begin with a dash unless it is nothing else. Words behind `--` are never
options.

A value that is a word of its own is checked only when the next option or
argument comes, or at the end. So the help of a command, and the command `help`,
can stand behind one that would be refused.
-/

namespace PageBlocks

/-- How values are printed. -/
inductive OutputFormat where
  | yaml
  | json
deriving DecidableEq, Repr, Inhabited

namespace OutputFormat

def all : List OutputFormat := [.yaml, .json]

def name : OutputFormat → String
  | .yaml => "yaml"
  | .json => "json"

def ofName? (s : String) : Option OutputFormat := all.find? fun f => f.name == s

end OutputFormat

/-- What the program is to do. An input that is not named is the standard input. -/
inductive Command where
  | compile (output : Option String)
  | flatmap
  | lookup (id : String)
  | rehydrate (layout : String) (input : Option String)
  | item (input : Option String)
  | flatten (input : Option String)
  | validate
  | status
  | watch
  | clearCache
deriving DecidableEq, Repr, Inhabited

/-- A word or an option that a command takes, with its help. -/
structure Parameter where
  name : String
  help : String
  /-- What it is when it is not given. -/
  default : Option String := none
  /-- What it can be, unless anything. -/
  choices : List String := []
deriving DecidableEq, Repr, Inhabited

namespace Parameter

/-- The placeholder for the value. -/
def placeholder (p : Parameter) : String :=
  let upper := p.name.toList.map fun c => if c = '-' then '_' else c.toUpper
  "<" ++ String.ofList upper ++ ">"

def accepts (p : Parameter) (value : String) : Bool := p.choices.isEmpty || p.choices.contains value

end Parameter

/-- The option for the data directory. -/
def directoryOption : Parameter :=
  { name := "data-dir", help := "Path to the data directory (default: current directory)"
    default := some "." }

/-- The option for how values are printed. -/
def formatOption : Parameter :=
  { name := "format", help := "Output format"
    default := some OutputFormat.yaml.name, choices := OutputFormat.all.map OutputFormat.name }

/-- Options that stand before the name of a command. -/
def programOptions : List Parameter := [directoryOption, formatOption]

inductive CommandName where
  | compile
  | flatmap
  | lookup
  | rehydrate
  | item
  | flatten
  | validate
  | status
  | watch
  | clearCache
deriving DecidableEq, Repr, Inhabited

namespace CommandName

/-- Every command, in the order they are listed. -/
def all : List CommandName :=
  [.compile, .flatmap, .lookup, .rehydrate, .item, .flatten, .validate, .status, .watch,
    .clearCache]

def name : CommandName → String
  | .compile => "compile"
  | .flatmap => "flatmap"
  | .lookup => "lookup"
  | .rehydrate => "rehydrate"
  | .item => "item"
  | .flatten => "flatten"
  | .validate => "validate"
  | .status => "status"
  | .watch => "watch"
  | .clearCache => "clear-cache"

def ofName? (s : String) : Option CommandName := all.find? fun c => c.name == s

def help : CommandName → String
  | .compile => "Compile the definitions and print the field group"
  | .flatmap => "Print the flat index of the published schema"
  | .lookup => "Look up one compiled node id"
  | .rehydrate => "Rehydrate stored rows of a layout"
  | .item => "Rehydrate a content item's builder row with the layout it selects"
  | .flatten => "Turn rehydrated blocks back into stored rows"
  | .validate => "Lint the definitions without publishing"
  | .status => "Show the published schema, history and cache stats"
  | .watch => "Recompile whenever a definition file changes"
  | .clearCache => "Drop every cached rendering"

/-- The word that a command needs. -/
def argument? : CommandName → Option Parameter
  | .lookup => some { name := "id", help := "Compiled node id (e.g. field_3f2a...)" }
  | .rehydrate => some { name := "layout", help := "Layout name" }
  | _ => none

/-- The option for a file to read instead of the standard input. -/
def inputOption (help : String) : Parameter :=
  { name := "input", help := "JSON file holding " ++ help ++ " (stdin when omitted)" }

/-- The option that a command knows. -/
def option? : CommandName → Option Parameter
  | .compile => some
    { name := "output", help := "Write the compiled field group to a file instead of stdout" }
  | .rehydrate => some (inputOption "an array of stored rows")
  | .item => some (inputOption "the item's builder row")
  | .flatten => some (inputOption "an array of rehydrated blocks")
  | _ => none

/-- The command that is called, given the word it needs and the value of its option. -/
def call? (argument option : Option String) : CommandName → Option Command
  | .compile => some (.compile option)
  | .flatmap => some .flatmap
  | .lookup => argument.map .lookup
  | .rehydrate => argument.map fun layout => .rehydrate layout option
  | .item => some (.item option)
  | .flatten => some (.flatten option)
  | .validate => some .validate
  | .status => some .status
  | .watch => some .watch
  | .clearCache => some .clearCache

end CommandName

/-- What help can be about. -/
inductive HelpTopic where
  | program
  | command (name : CommandName)
  /-- The command that gives help. -/
  | help
deriving DecidableEq, Repr, Inhabited

/-- What a command line asks for. -/
inductive Invocation where
  | run (dataDirectory : String) (format : OutputFormat) (command : Command)
  | help (about : HelpTopic)
  | version
  /-- No meaning. -/
  | misuse
deriving DecidableEq, Repr, Inhabited

namespace Invocation

/-- The name behind two dashes and the value behind an equals sign. -/
def longOption? (word : String) : Option (String × Option String) :=
  match word.toList with
  | '-' :: '-' :: rest =>
    let name := rest.takeWhile fun c => c ≠ '='
    some (String.ofList name,
      match rest.drop name.length with
      | _ :: value => some (String.ofList value)
      | [] => none)
  | _ => none

/-- The first letter behind one dash. -/
def shortOption? (word : String) : Option Char :=
  match word.toList with
  | '-' :: c :: _ => if c = '-' then none else some c
  | _ => none

/-- Whether a word can be the value of the option before it. -/
def isValue (word : String) : Bool := word == "-" || !word.startsWith "-"

/-- Options that were read, with the words behind them. -/
structure Reading where
  options : List (String × String) := []
  /-- The last option and its value, not checked yet. -/
  pending : Option (String × String) := none
  arguments : List String := []

namespace Reading

/-- The value given to an option. -/
def option? (r : Reading) (name : String) : Option String := r.options.lookup name

/-- Adds an option that is given for the first time, with a value that it accepts. -/
def add? (known : List Parameter) (r : Reading) (option : String × String) : Option Reading :=
  let fits := known.any fun p => p.name == option.1 && p.accepts option.2
  if fits && (r.option? option.1).isNone then some { r with options := r.options ++ [option] }
  else none

/-- Adds the last option. -/
def settle? (known : List Parameter) (r : Reading) : Option Reading :=
  match r.pending with
  | some option => add? known { r with pending := none } option
  | none => some r

end Reading

/-- Reads words until one is neither an option nor one of a number of arguments. An exception ends
the reading: help, the version, or a misuse. -/
def read (known : List Parameter) (help : Invocation) (version : Option Invocation) (limit : Nat) :
    Reading → List String → Except Invocation (Reading × List String)
  | r, [] => .ok (r, [])
  | r, word :: rest =>
    let settled := r.settle? known
    let ending (invocation : Invocation) : Except Invocation (Reading × List String) :=
      .error (if settled.isSome then invocation else .misuse)
    match longOption? word, shortOption? word with
    | some ("", none), _ =>
      if limit < r.arguments.length + rest.length then .error .misuse
      else .ok ({ r with arguments := r.arguments ++ rest }, [])
    | some ("help", none), _ => ending help
    | some ("version", none), _ => ending (version.getD .misuse)
    | some (name, some value), _ =>
      match settled.bind fun r => r.add? known (name, value) with
      | some r => read known help version limit r rest
      | none => .error .misuse
    | some (name, none), _ =>
      match settled, rest with
      | some r, value :: rest =>
        if isValue value && known.any fun p => p.name == name then
          read known help version limit { r with pending := some (name, value) } rest
        else .error .misuse
      | _, _ => .error .misuse
    | none, some 'h' => ending help
    | none, some 'V' => ending (version.getD .misuse)
    | none, some _ => .error .misuse
    | none, none =>
      if r.arguments.length < limit then
        match settled with
        | some r =>
          read known help version limit { r with arguments := r.arguments ++ [word] } rest
        | none => .error .misuse
      else .ok (r, word :: rest)

/-- The call of a command by the words behind its name, given what was read before it. -/
def ofCall (before : Reading) (name : CommandName) (words : List String) : Invocation :=
  let known := name.option?.toList
  match read known (.help (.command name)) none name.argument?.toList.length {} words with
  | .error invocation => invocation
  | .ok (_, _ :: _) => .misuse
  | .ok (r, []) =>
    let run? : Option Invocation := do
      let r ← r.settle? known
      let command ← name.call? r.arguments.head? (known.head?.bind fun p => r.option? p.name)
      let before ← before.settle? programOptions
      let value (p : Parameter) : Option String := before.option? p.name <|> p.default
      return .run (← value directoryOption) (← OutputFormat.ofName? (← value formatOption)) command
    run?.getD .misuse

/-- The help that the words behind `help` ask for. -/
def ofHelp : List String → Invocation
  | [] => .help .program
  | ["help"] => .help .help
  | [word] =>
    match CommandName.ofName? word with
    | some name => .help (.command name)
    | none => .misuse
  | _ => .misuse

/-- What the words of a command line ask for. -/
def ofWords (words : List String) : Invocation :=
  match read programOptions (.help .program) (some .version) 0 {} words with
  | .error invocation => invocation
  | .ok (_, []) => .misuse
  | .ok (r, word :: rest) =>
    if word = "help" then ofHelp rest
    else
      match CommandName.ofName? word with
      | some name => ofCall r name rest
      | none => .misuse

end Invocation

end PageBlocks
