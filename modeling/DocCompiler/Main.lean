import DocCompiler.CommandLine.Run

/-! The command line program. Everything it prints is computed from its arguments and the
contents of the files they name. -/

namespace DocCompiler.CommandLine

/-- The fault that an operation on a file came back with. Codes may come negated. -/
def ReadFault.ofError : IO.Error → ReadFault
  | .noFileOrDirectory .. => .notFound
  | .permissionDenied .. => .notPermitted
  | .inappropriateType _ code _ =>
    if code = 20 ∨ code = -20 then .notDirectory else .isDirectory
  | e@(.invalidArgument _ code _) =>
    if code = 36 ∨ code = -36 then .nameTooLong else .other (toString e)
  | e => .other (toString e)

def readText (path : String) : IO (Except ReadFault String) := do
  try
    let bytes ← IO.FS.readBinFile path
    match String.fromUTF8? bytes with
    | some text => return .ok text
    | none => return .error .notText
  catch e => return .error (.ofError e)

end DocCompiler.CommandLine

open DocCompiler.CommandLine in
def main (args : List String) : IO UInt32 := do
  let paths := match Invocation.ofArguments args with
    | .ok i => i.paths
    | .error _ => []
  let contents ← paths.mapM fun path => do return (path, ← readText path)
  let files : Files := fun path => (contents.lookup path).getD (.error .notFound)
  match run? files args with
  | some output =>
    IO.print output.stdout
    IO.eprint output.stderr
    return output.exit
  | none =>
    repeat IO.sleep 1000
    return exitFailed
