import DocCompiler.Compile.Pipeline
import DocCompiler.Worker.Message

/-! What a worker does with a text. It answers exactly the messages of type `compile` that have
a string for an id; all others are dropped. -/

namespace DocCompiler.Worker

open Compile (Pipeline)
open Json (Mismatch)

/-- A message that is to be answered: its id, and the request or what is wrong with it. -/
structure Incoming where
  id : String
  payload : Except Mismatch CompileRequest

def Incoming.of (v : Json) (id : String) : Incoming :=
  match Request.decode v with
  | .ok (.compile id payload) => ⟨id, .ok payload⟩
  | .error m => ⟨id, .error m⟩

/-- The message that a text is, if it is to be answered. -/
def Incoming.ofText? (text : String) : Option Incoming :=
  match Json.parse text with
  | .error _ => none
  | .ok v =>
    match header? v with
    | some ("compile", id) => some (.of v id)
    | _ => none

/-- The answer to a message, with the calls that formatters made for it. -/
def answer (p : Pipeline) (m : Incoming) : List Sandbox.Exchange × Response :=
  match m.payload with
  | .error mismatch => ([], .failed m.id ("Malformed compile request: " ++ mismatch.message))
  | .ok r =>
    match p.compile r with
    | ⟨exchanges, .ok result⟩ => (exchanges, .completed m.id result)
    | ⟨exchanges, .error message⟩ => (exchanges, .failed m.id message)

def respond? (p : Pipeline) (text : String) : Option Response :=
  (Incoming.ofText? text).map fun m => (answer p m).2

end DocCompiler.Worker
