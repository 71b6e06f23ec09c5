import DocCompiler.CommandLine.Switch

/-! Help texts. -/

namespace DocCompiler.CommandLine

def programName : String := "forgedocs-cli"

/-- Two columns: names, padded to equal width, and what there is to say of them. -/
def columns (rows : List (String × String)) : String :=
  let width := (rows.map (·.1.length)).foldr max 0
  String.join <| rows.map fun (name, description) =>
    "  " ++ name ++ String.ofList (List.replicate (width - name.length + 2) ' ') ++ description ++
      "\n"

/-- A switch as it is written, with the name of its value. -/
def Switch.usage (s : Switch) : String :=
  let letter := match s.letter? with
    | some c => "-" ++ c.toString ++ ", --"
    | none => "    --"
  letter ++ s.long ++ (s.value?.map fun v => " <" ++ v ++ ">").getD ""

def Command.usage (c : Command) : String :=
  let r := c.required
  let more := if c = .verify then "" else "[OPTIONS] "
  "Usage: " ++ programName ++ " " ++ c.name ++ " " ++ more ++ "--" ++ r.long ++
    (r.value?.map fun v => " <" ++ v ++ ">").getD "" ++ "\n"

def Command.help (c : Command) : String :=
  c.description ++ "\n\n" ++ c.usage ++ "\nOptions:\n" ++
    columns (c.switches.map fun s => (s.usage, s.description))

def usage : String := "Usage: " ++ programName ++ " <COMMAND>\n"

def helpDescription : String := "Print this message or the help of the given subcommand(s)"

def helpOfHelp : String :=
  helpDescription ++ "\n\nUsage: " ++ programName ++ " help [COMMAND]...\n\nArguments:\n" ++
    columns [("[COMMAND]...", "Print help for the subcommand(s)")]

def help : String :=
  let commands := Command.all.map fun c => (c.name, c.description)
  "ForgeDocs CLI - Deterministic Document Compiler\n\n" ++ usage ++ "\nCommands:\n" ++
    columns (commands ++ [("help", helpDescription)]) ++
    "\nOptions:\n" ++ columns [(Switch.help.usage, Switch.help.description)]

end DocCompiler.CommandLine
