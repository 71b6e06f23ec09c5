import DocCompiler.Worker.Message

/-! How the calls of a caller are settled. A response settles the call of its id, once; a text
that is no response to a waiting call changes nothing. -/

namespace DocCompiler.Worker

inductive Fault where
  | timeout (id : String) (afterMs : Nat)
  | workerClosed
  | worker (message : String)
  | malformedMessage (message : String)
  | alreadyRegistered
  | noRuntime

namespace Fault

def name : Fault → String
  | .timeout .. => "Timeout"
  | .workerClosed => "WorkerClosed"
  | .worker _ => "Worker"
  | .malformedMessage _ => "MalformedMessage"
  | .alreadyRegistered => "AlreadyRegistered"
  | .noRuntime => "NoRuntime"

def message : Fault → String
  | .timeout id afterMs =>
    "Compile request " ++ id ++ " timed out after " ++ toString afterMs ++ "ms"
  | .workerClosed => "Compiler worker is no longer running"
  | .worker message => "Compiler worker failed: " ++ message
  | .malformedMessage message => "Malformed worker message: " ++ message
  | .alreadyRegistered => "Worker scope is already registered"
  | .noRuntime => "No async runtime available for the worker bridge"

end Fault

abbrev Settlement := Except Fault Compile.Result

def Settlement.of (v : Json) : Settlement :=
  match Response.decode v with
  | .ok (.completed _ result) => .ok result
  | .ok (.failed _ message) => .error (.worker message)
  | .error m => .error (.malformedMessage m.message)

/-- The id that a text is a response to, and what it settles the call with. -/
def settlement? (text : String) : Option (String × Settlement) :=
  match Json.parse text with
  | .error _ => none
  | .ok v =>
    match header? v with
    | some ("result", id) | some ("error", id) => some (id, .of v)
    | _ => none

/-- Calls that wait for a response, by id. -/
abbrev Pending (α : Type) := SortedMap α

/-- Routes a text to the call that waits for it, which then waits no more. -/
def route {α : Type} (text : String) (pending : Pending α) :
    Pending α × Option (α × Settlement) :=
  match settlement? text with
  | none => (pending, none)
  | some (id, settlement) =>
    match pending.find? id with
    | none => (pending, none)
    | some call => (pending.erase id, some (call, settlement))

end DocCompiler.Worker
