import DocCompiler.CommandLine.Help

/-! Arguments. A switch is given by its name behind two hyphens or its letter behind one; its
value follows in the same argument or in the next one. -/

namespace DocCompiler.CommandLine

/-- Why the arguments start no command: help was asked for, or they are wrong. -/
inductive Stop where
  | help (text : String)
  | wrong (usage : String)
  deriving DecidableEq

/-- Switches as they were given, with their values. -/
abbrev Given := List (Switch × String)

namespace Given

def has (g : Given) (s : Switch) : Bool := g.any (·.1 = s)

def values (g : Given) (s : Switch) : List String := (g.filter (·.1 = s)).map (·.2)

def value? (g : Given) (s : Switch) : Option String := (g.values s).head?

end Given

/-- An argument that cannot be the value of the one before. -/
def isSwitchLike (arg : String) : Bool := arg.startsWith "-" && arg != "-"

/-- A switch as an argument names it, with the value in the same argument. -/
def named? (c : Command) (arg : String) : Option (Switch × Option String) :=
  match arg.toList with
  | '-' :: '-' :: rest =>
    let name := rest.takeWhile (· != '=')
    let value := (rest.drop name.length).tail?.map String.ofList
    (c.switches.find? (·.long.toList = name)).map (·, value)
  | '-' :: letter :: rest =>
    (c.switches.find? (·.letter? = some letter)).map fun s =>
      if s = .help then (s, none)
      else
        match rest with
        | [] => (s, none)
        | '=' :: value => (s, some (String.ofList value))
        | value => (s, some (String.ofList value))
  | _ => none

def give (c : Command) (s : Switch) (value : String) (given : Given) : Except Stop Given :=
  if (given.has s && !s.repeats) || !s.admits value then .error (.wrong c.usage)
  else .ok (given ++ [(s, value)])

/-- The switches that arguments give, where `awaiting` is one whose value comes next. Nothing may
follow after two hyphens alone. -/
def gather (c : Command) (given : Given) (awaiting : Option Switch) :
    List String → Except Stop Given
  | [] => if awaiting.isSome then .error (.wrong c.usage) else .ok given
  | arg :: rest =>
    match awaiting with
    | some s =>
      if isSwitchLike arg then .error (.wrong c.usage)
      else do gather c (← give c s arg given) none rest
    | none =>
      match named? c arg with
      | none => if arg = "--" && rest.isEmpty then .ok given else .error (.wrong c.usage)
      | some (s, inline) =>
        match s.value?, inline with
        | none, none =>
          if s = .help then .error (.help c.help)
          else do gather c (← give c s "" given) none rest
        | none, some _ => .error (.wrong c.usage)
        | some _, some value => do gather c (← give c s value given) none rest
        | some _, none => gather c given (some s) rest

structure Invocation where
  command : Command
  given : Given
  deriving DecidableEq

/-- The required switch is there, and there is no timeout without a worker. -/
def Invocation.of (c : Command) (args : List String) : Except Stop Invocation := do
  let given ← gather c [] none args
  if !given.has c.required || (given.has .timeoutMs && !given.has .worker) then
    throw (.wrong c.usage)
  return ⟨c, given⟩

def Invocation.ofArguments : List String → Except Stop Invocation
  | [] => .error (.wrong usage)
  | ["help"] => .error (.help help)
  | ["help", "help"] => .error (.help helpOfHelp)
  | ["help", name] =>
    match Command.find? name with
    | some c => .error (.help c.help)
    | none => .error (.wrong usage)
  | first :: rest =>
    if first = "--help" || first.startsWith "-h" then .error (.help help)
    else
      match Command.find? first with
      | some c => Invocation.of c rest
      | none => .error (.wrong usage)

end DocCompiler.CommandLine
