import DocCompiler.Wire.Request
import DocCompiler.Wire.Result

/-! The messages between a caller and a compiler worker, as JSON texts. Requests and responses
are objects with a type and an id; a response has the id of its request. -/

namespace DocCompiler.Worker

open Json (Mismatch)
open Wire (Codec Variant)

inductive Request where
  | compile (id : String) (payload : CompileRequest)

inductive Response where
  | completed (id : String) (result : Compile.Result)
  | failed (id : String) (message : String)

def Response.id : Response → String
  | .completed id _ => id
  | .failed id _ => id

def failure : Codec String := .struct "WorkerFailure" (.required "message" .string id)

def typeKey : String := "type"

def requestVariants : List (Variant Request) := [
  .of "WorkerRequest" "Compile" "compile"
    (fun | .compile id payload => some (id, payload))
    (Request.compile
      <$> .required "id" .string (·.1)
      <*> .required "payload" Wire.compileRequest (·.2))]

def responseVariants : List (Variant Response) := [
  .of "WorkerResponse" "Completed" "result"
    (fun | .completed id result => some (id, result) | _ => none)
    (Response.completed
      <$> .required "id" .string (·.1)
      <*> .required "result" Wire.result (·.2)),
  .of "WorkerResponse" "Failed" "error"
    (fun | .failed id message => some (id, message) | _ => none)
    (Response.failed
      <$> .required "id" .string (·.1)
      <*> .required "error" failure (·.2))]

namespace Request

def encode (m : Request) : Json := .obj (Variant.write typeKey requestVariants m)

def decode (v : Json) : Except Mismatch Request :=
  Codec.decodeTagged "WorkerRequest" typeKey requestVariants v

def text (m : Request) : String := m.encode.canonicalText

end Request

namespace Response

def encode (m : Response) : Json := .obj (Variant.write typeKey responseVariants m)

def decode (v : Json) : Except Mismatch Response :=
  Codec.decodeTagged "WorkerResponse" typeKey responseVariants v

def text (m : Response) : String := m.encode.text

end Response

/-- The type and the id that a message states. -/
def header? (v : Json) : Option (String × String) := do
  let type ← (v.field? typeKey).bind Json.str?
  let id ← (v.field? "id").bind Json.str?
  return (type, id)

end DocCompiler.Worker
