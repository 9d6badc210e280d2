import PageBlocks.Command.Invocation

/-!
# Usage

The help of the program and of its commands: what it does, how it is called,
and its parts in columns.
-/

namespace PageBlocks

namespace Usage

def programName : String := "blockpress"

def programVersion : String := "0.3.0"

def programHelp : String :=
  "BlockPress CLI: compile block definitions and inspect stored block data"

/-- Entries of a part in two columns under its title. -/
def titled? (title : String) (entries : List (String × String)) : Option String :=
  if entries.isEmpty then none
  else
    let width := entries.foldl (fun most entry => max most entry.1.length) 0
    let line (entry : String × String) : String :=
      "  " ++ entry.1 ++ String.ofList (List.replicate (width - entry.1.length) ' ') ++ "  " ++
        entry.2
    some (String.intercalate "\n" ((title ++ ":") :: entries.map line))

/-- An option that takes a value, with what it is unless it is given, and what it can be. -/
def optionEntry (p : Parameter) : String × String :=
  let default := p.default.elim "" fun value => " [default: " ++ value ++ "]"
  let choices :=
    if p.choices.isEmpty then ""
    else " [possible values: " ++ String.intercalate ", " p.choices ++ "]"
  ("    --" ++ p.name ++ " " ++ p.placeholder, p.help ++ default ++ choices)

def helpEntry : String × String := ("-h, --help", "Print help")

/-- Parts behind the title and the line of usage. -/
def page (title usage : String) (parts : List (Option String)) : String :=
  String.intercalate "\n\n" ([title, "Usage: " ++ programName ++ usage] ++
    parts.filterMap id) ++ "\n"

/-- The help of a command. -/
def ofCommand (name : CommandName) : String :=
  let option := name.option?.map optionEntry
  page name.help
    (" " ++ name.name ++ (if option.isSome then " [OPTIONS]" else "") ++
      ((name.argument?.map fun p => " " ++ p.placeholder).getD ""))
    [titled? "Arguments" (name.argument?.toList.map fun p => (p.placeholder, p.help)),
      titled? "Options" (option.toList ++ [helpEntry])]

/-- What the command that gives help does. -/
def helpHelp : String := "Print this message or the help of the given subcommand(s)"

/-- The help of the program. -/
def ofProgram : String :=
  page programHelp " [OPTIONS] <COMMAND>"
    [titled? "Commands" ((CommandName.all.map fun c => (c.name, c.help)) ++ [("help", helpHelp)]),
      titled? "Options"
        (programOptions.map optionEntry ++ [helpEntry, ("-V, --version", "Print version")])]

/-- The help of the command that gives help. -/
def ofHelp : String :=
  page helpHelp " help [COMMAND]..."
    [titled? "Arguments" [("[COMMAND]...", "Print help for the subcommand(s)")]]

def help : HelpTopic → String
  | .program => ofProgram
  | .command name => ofCommand name
  | .help => ofHelp

def version : String := programName ++ " " ++ programVersion ++ "\n"

/-- What is told on a misuse. -/
def hint : String :=
  "error: the command line has no meaning\n\nFor more information, try '--help'.\n"

end Usage

end PageBlocks
