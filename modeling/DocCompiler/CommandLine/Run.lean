import DocCompiler.CommandLine.Arguments
import DocCompiler.CommandLine.Files
import DocCompiler.Worker.Channel

/-! Commands over files, as functions from the contents of files to what is printed. -/

namespace DocCompiler.CommandLine

open Compile (Pipeline)
open Wire (Codec)

structure Output where
  exit : UInt32
  stdout : String
  stderr : String

/-- Exit codes: all is well, something failed, or the document is rejected. -/
def exitOk : UInt32 := 0
def exitFailed : UInt32 := 1
def exitRejected : UInt32 := 2

def exitFor (accepted : Bool) : UInt32 := if accepted then exitOk else exitRejected

def emit (exit : UInt32) (entries : List (String × Json)) : Output :=
  ⟨exit, (Json.obj entries).canonical.indentedText ++ "\n", ""⟩

def failure (message : String) : Output :=
  emit exitFailed [("success", .bool false), ("error", .str message)]

def load {α : Type} (files : Files) (c : Codec α) (path : String) : Except String α :=
  match files path with
  | .error fault => .error ("Failed to read " ++ path ++ ": " ++ fault.message)
  | .ok text => (c.ofText text).mapError fun f => "Invalid JSON in " ++ path ++ ": " ++ f.message

def loadGiven {α : Type} (files : Files) (given : Given) (s : Switch) (c : Codec α)
    (absent : α) : Except String α :=
  match given.value? s with
  | some path => load files c path
  | none => .ok absent

def loadRequest (files : Files) (given : Given) : Except String CompileRequest := do
  let document ← load files Wire.document ((given.value? .document).getD "")
  let snippets ← loadGiven files given .snippets Wire.library []
  let values ← loadGiven files given .values Wire.variableValues ∅
  let statuses := given.values .allowedStatus
  return ⟨document, snippets, values, if statuses.isEmpty then none else some statuses⟩

/-- The first bundle with a fault, as it is reported. -/
def rejected? (bundles : List Snippet.Bundle) : Option Output :=
  bundles.findSome? fun b =>
    match b.verify with
    | .ok () => none
    | .error fault =>
      some (emit exitRejected [("success", .bool false), ("snippetId", .str b.snippet.id),
        ("error", .str fault.message)])

/-- Compiles in place or through a worker. There is no settlement if the worker never answers. -/
def compileRequest (given : Given) (r : CompileRequest) : Option Worker.Settlement :=
  if given.has .worker then
    let timeoutMs := (given.value? .timeoutMs).bind Switch.number?
    ((Worker.connect true).compileAll [r] timeoutMs).2.head?.join
  else some (.ok (Compile.compileDocument r))

def report : Worker.Settlement → Output
  | .error fault => failure fault.message
  | .ok result =>
    let accepted := result.preflight.isExportable
    emit (exitFor accepted) [("success", .bool accepted), ("result", Wire.result.encode result)]

/-- There is no output if the run waits for ever. -/
def runCompile (files : Files) (given : Given) : Option Output :=
  match loadRequest files given with
  | .error message => some (failure message)
  | .ok r =>
    match if given.has .verify then rejected? r.snippets else none with
    | some output => some output
    | none => (compileRequest given r).map report

def runPreflight (files : Files) (given : Given) : Output :=
  match loadRequest files given with
  | .error message => failure message
  | .ok r =>
    let report := Compile.preflightDocument r
    emit (exitFor report.isExportable)
      [("exportable", .bool report.isExportable), ("preflight", Wire.report.encode report)]

def runVerify (files : Files) (given : Given) : Output :=
  match loadGiven files given .snippets Wire.library [] with
  | .error message => failure message
  | .ok bundles =>
    let failures := bundles.filterMap fun b =>
      match b.verify with
      | .ok () => none
      | .error fault =>
        some (.obj [("snippetId", .str b.snippet.id), ("error", .str fault.message)])
    emit (exitFor failures.isEmpty)
      [("valid", .bool failures.isEmpty), ("checked", .nat bundles.length),
        ("failures", .arr failures)]

namespace Invocation

/-- The files that a command may read. -/
def paths (i : Invocation) : List String :=
  [Switch.document, .snippets, .values].flatMap i.given.values

def run? (files : Files) (i : Invocation) : Option Output :=
  match i.command with
  | .compile => runCompile files i.given
  | .preflight => some (runPreflight files i.given)
  | .verify => some (runVerify files i.given)

end Invocation

def Stop.output : Stop → Output
  | .help text => ⟨exitOk, text, ""⟩
  | .wrong usage => ⟨exitRejected, "", usage⟩

/-- The output for arguments, over the files that are there, if the run comes to an end. -/
def run? (files : Files) (args : List String) : Option Output :=
  match Invocation.ofArguments args with
  | .error stop => some stop.output
  | .ok i => i.run? files

/-- The output for arguments, where a run that waits for ever is broken off. -/
def run (files : Files) (args : List String) : Output :=
  (run? files args).getD (failure Worker.Fault.workerClosed.message)

end DocCompiler.CommandLine
