import DocCompiler.Proofs.Compile.Reported
import DocCompiler.Worker.Service
import DocCompiler.Worker.Settlement

/-! One request and its response. The worker reads a request as it was received, compiles what it
has read, and the caller gets the response as it was sent. -/

namespace DocCompiler.Worker

open Compile (Pipeline compileDocument)
open Json (Readable)
open Wire (Fields Variant)
open Wire.Codec Wire.Fields.Carries

def defaultIn (scope : Sandbox.Scope) : Pipeline := { Pipeline.default with scope := scope }

theorem compile_defaultIn (scope : Sandbox.Scope) (r : CompileRequest) :
    (defaultIn scope).compile r = ⟨[], .ok (compileDocument r)⟩ := by
  have hscripts (l : List Compile.Segment) :
      l.map (defaultIn scope).script = (l.map (·.formatted)).map .done := by
    rw [List.map_map]
    exact List.map_congr_left fun s _ => Pipeline.script_default s
  have hknown : (fun id => ((defaultIn scope).formatter? id).isSome) =
      fun id => (Formatting.Builtin.find? id).isSome := by
    funext id
    exact (congrArg Option.isSome (Pipeline.formatter?_default id)).trans Option.isSome_map
  rw [Pipeline.compile, hknown, hscripts, Pipeline.runAll_done]
  rfl

section Tagged

variable {σ β : Type} {fields : Fields σ β} {names : List String} {s : σ} {b : Option β}
  {depth : Nat} {variant id : String}

theorem readable_message (h : fields.Carries (depth + 1) names s b) :
    Readable (depth + 2) (.obj ((typeKey, .str variant) :: fields.write s)) := by
  refine .obj fun e he => ?_
  rcases List.mem_cons.1 he with rfl | he
  · exact .str depth variant
  · exact h.readable e he

theorem header?_message (h : fields.Carries (depth + 1) names s b) (htag : typeKey ∉ names)
    (hid : binding? "id" (fields.write s) = some (.str id)) :
    header? (Json.obj ((typeKey, .str variant) :: fields.write s)).canonical =
      some (variant, id) := by
  have hnodup : (((typeKey, Json.str variant) :: fields.write s).map (·.1)).Nodup := by
    refine List.nodup_cons.2 ⟨fun hmem => ?_, h.nodup⟩
    obtain ⟨e, he, heq⟩ := List.mem_map.1 hmem
    have hname := h.named e he
    rw [heq] at hname
    exact htag hname
  have hfield (key : String) : Json.field? key
      (Json.obj ((typeKey, .str variant) :: fields.write s)).canonical =
      (binding? key ((typeKey, Json.str variant) :: fields.write s)).map Json.canonical := by
    rw [Json.canonical_obj, ← binding?_reverse hnodup, ← Json.binding?_sortedEntries]
    rfl
  have htype : binding? typeKey ((typeKey, Json.str variant) :: fields.write s) =
      some (.str variant) := by rw [binding?_cons, if_pos rfl]
  have hid' : binding? "id" ((typeKey, Json.str variant) :: fields.write s) =
      some (.str id) := by
    have hne : typeKey ≠ "id" := by decide
    rw [binding?_cons, if_neg hne, hid]
  rw [header?, hfield, hfield, htype, hid']
  rfl

end Tagged

def requestFields : Fields (String × CompileRequest) Request :=
  Request.compile <$> .required "id" .string (·.1) <*> .required "payload" Wire.compileRequest (·.2)

theorem carries_requestFields {r : CompileRequest} (h : r.ReadsBack 120) (id : String) :
    requestFields.Carries 127 ["id", "payload"] (id, r) (r.received.map (Request.compile id)) := by
  refine .congr ((Fields.Carries.map _ (.field (carries_string _ _))).seq
    (.field (Wire.carries_compileRequest h)) (by decide)) ?_
  cases r.received <;> rfl

theorem ofText?_request {r : CompileRequest} (h : r.ReadsBack 120) (id : String) :
    ∃ m, Incoming.ofText? (Request.compile id r).text = some m ∧ m.id = id ∧
      m.payload.toOption = r.received := by
  have hfields := carries_requestFields h id
  have hparse : Json.parse (Request.compile id r).text =
      .ok (Request.compile id r).encode.canonical :=
    Json.parse_canonicalText (readable_message hfields)
  have hheader : header? (Request.compile id r).encode.canonical = some ("compile", id) :=
    header?_message hfields (by decide) rfl
  have hdecode : (Request.decode (Request.compile id r).encode.canonical).toOption =
      r.received.map (Request.compile id) :=
    decodeTagged_sorted hfields (by decide) rfl
  have htext : Incoming.ofText? (Request.compile id r).text =
      some (.of (Request.compile id r).encode.canonical id) := by
    rw [Incoming.ofText?, hparse]
    simp only [hheader]
  refine ⟨_, htext, ?_⟩
  unfold Incoming.of
  cases hread : Request.decode (Request.compile id r).encode.canonical with
  | ok m =>
    rw [hread] at hdecode
    obtain ⟨r', hr', rfl⟩ := Option.map_eq_some_iff.1 hdecode.symm
    exact ⟨rfl, hr'.symm⟩
  | error e =>
    rw [hread] at hdecode
    exact ⟨rfl, (Option.map_eq_none_iff.1 hdecode.symm).symm⟩

def Response.settlement : Response → Settlement
  | .completed _ result => .ok result
  | .failed _ message => .error (.worker message)

/-- The responses that go through: a result that reads back, or any failure. -/
def Response.ReadsBack : Response → Prop
  | .completed _ result => result.ReadsBack 122
  | .failed .. => True

def completedFields : Fields (String × Compile.Result) Response :=
  Response.completed <$> .required "id" .string (·.1) <*> .required "result" Wire.result (·.2)

def failedFields : Fields (String × String) Response :=
  Response.failed <$> .required "id" .string (·.1) <*> .required "error" failure (·.2)

theorem carries_completedFields {result : Compile.Result} (h : result.ReadsBack 122) (id : String) :
    completedFields.Carries 127 ["id", "result"] (id, result) (some (.completed id result)) :=
  .congr ((Fields.Carries.map _ (.field (carries_string _ _))).seq
    (.field (Wire.carries_result h)) (by decide)) rfl

theorem carries_failure (message : String) (depth : Nat) :
    failure.Carries (depth + 2) message (some message) :=
  carries_struct (.field (carries_string _ _)) rfl

theorem carries_failedFields (id message : String) :
    failedFields.Carries 127 ["id", "error"] (id, message) (some (.failed id message)) :=
  .congr ((Fields.Carries.map _ (.field (carries_string _ _))).seq
    (.field (carries_failure message _)) (by decide)) rfl

section Response

variable {σ : Type} {fields : Fields σ Response} {names : List String} {s : σ}
  {response : Response} {variant : String}

theorem settlement?_of (h : fields.Carries 127 names s (some response)) (htag : typeKey ∉ names)
    (hencode : response.encode = .obj ((typeKey, .str variant) :: fields.write s))
    (hid : binding? "id" (fields.write s) = some (.str response.id))
    (hdecode : (Response.decode response.encode.canonical).toOption = some response)
    (hvariant : variant = "result" ∨ variant = "error") :
    settlement? response.text = some (response.id, response.settlement) := by
  have hparse : Json.parse response.text = .ok response.encode.canonical := by
    rw [Response.text, hencode]
    exact Json.parse_text (readable_message h)
  have hheader : header? response.encode.canonical = some (variant, response.id) := by
    rw [hencode]
    exact header?_message h htag hid
  have hsettlement : Settlement.of response.encode.canonical = response.settlement := by
    rw [Settlement.of]
    cases hread : Response.decode response.encode.canonical with
    | ok m =>
      rw [hread] at hdecode
      obtain rfl := Option.some.inj hdecode
      cases m <;> rfl
    | error e =>
      rw [hread] at hdecode
      cases hdecode
  rw [settlement?, hparse]
  rcases hvariant with rfl | rfl <;> simp only [hheader, hsettlement]

end Response

theorem settlement?_response {response : Response} (h : response.ReadsBack) :
    settlement? response.text = some (response.id, response.settlement) := by
  cases response with
  | completed id result =>
    have hfields := carries_completedFields h id
    exact settlement?_of hfields (by decide) rfl rfl (decodeTagged_sorted hfields (by decide) rfl)
      (.inl rfl)
  | failed id message =>
    have hfields := carries_failedFields id message
    exact settlement?_of hfields (by decide) rfl rfl (decodeTagged_sorted hfields (by decide) rfl)
      (.inr rfl)

/-- The worker answers a request: with the result for what it received, or with a failure if that
is no request any more. -/
theorem answer_request {r : CompileRequest} (h : r.ReadsBack 120) (id : String)
    (scope : Sandbox.Scope) :
    ∃ m response, Incoming.ofText? (Request.compile id r).text = some m ∧
      answer (defaultIn scope) m = ([], response) ∧ response.id = id ∧ response.ReadsBack ∧
      response.settlement.toOption = r.received.map compileDocument := by
  obtain ⟨m, hread, rfl, hpayload⟩ := ofText?_request h id
  cases hm : m.payload with
  | ok r' =>
    rw [hm] at hpayload
    refine ⟨m, .completed m.id (compileDocument r'), hread, ?_, rfl,
      Compile.readsBack_compileDocument r' 120, ?_⟩
    · simp only [answer, hm, compile_defaultIn]
    · rw [← hpayload]
      rfl
  | error e =>
    rw [hm] at hpayload
    refine ⟨m, .failed m.id ("Malformed compile request: " ++ e.message), hread, ?_, rfl, trivial, ?_⟩
    · simp only [answer, hm]
    · rw [← hpayload]
      rfl

end DocCompiler.Worker
