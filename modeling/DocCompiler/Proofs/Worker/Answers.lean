import DocCompiler.Proofs.Worker.Header
import DocCompiler.Proofs.Worker.Steps

/-! What a worker answers, of whatever texts are in its inbox. A text asks for an answer if it is an
object of type `compile` with a string for its id. Each of these gets one response under that id, in
the order in which they came, and no other text gets any. -/

namespace DocCompiler.Worker

open Compile (compileDocument)
open Sandbox (Scope)

/-- A message that asks for an answer, and the id to answer it under. -/
structure Asked where
  id : String
  message : Json

/-- What a text asks, if it is an object that states the type `compile` and a string for its id. -/
def asked? (text : String) : Option Asked :=
  match Json.parse text with
  | .ok (.obj entries) =>
    match binding? typeKey entries, binding? "id" entries with
    | some (.str type), some (.str id) =>
      if type = "compile" then some ⟨id, .obj entries⟩ else none
    | _, _ => none
  | _ => none

def Asked.reply (a : Asked) : Response :=
  match Request.decode a.message with
  | .ok (.compile _ r) => .completed a.id (compileDocument r)
  | .error m => .failed a.id ("Malformed compile request: " ++ m.message)

theorem Asked.id_reply (a : Asked) : a.reply.id = a.id := by
  unfold Asked.reply
  split <;> rfl

theorem Asked.settlement?_reply (a : Asked) :
    settlement? a.reply.text = some (a.id, a.reply.settlement) := by
  have hread : a.reply.ReadsBack := by
    unfold Asked.reply
    split
    case h_1 id r _ => exact Compile.readsBack_compileDocument r 120
    case h_2 => trivial
  rw [settlement?_response hread, a.id_reply]

section Asking

variable {text : String}

theorem asked?_eq_some {a : Asked} : asked? text = some a ↔
    Json.parse text = .ok a.message ∧ header? a.message = some ("compile", a.id) := by
  unfold asked?
  constructor
  · intro h
    split at h
    case h_2 => cases h
    case h_1 entries hparse =>
      split at h
      case h_2 => cases h
      case h_1 type id htype hid =>
        split at h
        case isFalse => cases h
        case isTrue hcompile =>
          cases h
          subst hcompile
          refine ⟨hparse, ?_⟩
          have htype' : (Json.obj entries).field? typeKey = some (.str "compile") := htype
          have hid' : (Json.obj entries).field? "id" = some (.str id) := hid
          rw [header?, htype', hid']
          rfl
  · rintro ⟨hparse, hheader⟩
    obtain ⟨id, v⟩ := a
    obtain ⟨htype, hid⟩ := fields_of_header? hheader
    cases v with
    | null | bool | num | str | arr => cases hid
    | obj entries =>
      have htype' : binding? typeKey entries = some (.str "compile") := htype
      have hid' : binding? "id" entries = some (.str id) := hid
      simp only [hparse, htype', hid', if_true]

/-- The worker takes up exactly the texts that ask something. -/
theorem ofText?_eq (text : String) :
    Incoming.ofText? text = (asked? text).map fun a => .of a.message a.id := by
  cases hasked : asked? text with
  | some a =>
    obtain ⟨hparse, hheader⟩ := asked?_eq_some.1 hasked
    rw [Incoming.ofText?, hparse]
    simp only [hheader, Option.map_some]
  | none =>
    rw [Option.map_none, Incoming.ofText?]
    split
    case h_1 => rfl
    case h_2 v hparse =>
      split
      case h_2 => rfl
      case h_1 id hheader =>
        have hsome : asked? text = some ⟨id, v⟩ := asked?_eq_some.2 ⟨hparse, hheader⟩
        rw [hasked] at hsome
        cases hsome

variable {a : Asked}

/-- The request in a message has the id under which it is answered: what a message states first and
what it is decoded to later agree. -/
theorem id_of_decode (hasked : asked? text = some a) {id : String} {r : CompileRequest}
    (hdecode : Request.decode a.message = .ok (.compile id r)) : id = a.id := by
  have hid := id_of_incoming (asked?_eq_some.1 hasked).2
  rwa [Incoming.of, hdecode] at hid

theorem answer_of_asked (hasked : asked? text = some a) (scope : Scope) :
    answer (defaultIn scope) (.of a.message a.id) = ([], a.reply) := by
  cases hdecode : Request.decode a.message with
  | ok m =>
    obtain ⟨id, r⟩ := m
    simp only [Incoming.of, Asked.reply, hdecode, id_of_decode hasked hdecode, answer,
      compile_defaultIn]
  | error m => simp only [Incoming.of, Asked.reply, hdecode, answer]

end Asking

namespace Link

theorem serve_defaultIn {l : Link} {scope : Scope} {text : String} {rest : List String}
    (hserving : l.service = .serving (defaultIn scope)) (hinbox : l.inbox = text :: rest) :
    l.serve = { l with
      inbox := rest
      outbox := l.outbox ++ (asked? text).toList.map (·.reply.text) } := by
  rw [serve, hserving, hinbox]
  simp only [ofText?_eq]
  cases hasked : asked? text with
  | none => simp
  | some a => simp [answer_of_asked hasked scope]

/-- After any number of steps the worker has answered as many texts, the oldest first, and has done
nothing else. -/
theorem run_work {scope : Scope} (n : Nat) {l : Link}
    (hserving : l.service = .serving (defaultIn scope)) :
    l.run (List.replicate n .work) = { l with
      inbox := l.inbox.drop n
      outbox := l.outbox ++ ((l.inbox.take n).filterMap asked?).map (·.reply.text) } := by
  induction n generalizing l with
  | zero => simp [run]
  | succ n ih =>
    have hstep : l.run (List.replicate (n + 1) .work) = l.serve.run (List.replicate n .work) := rfl
    rw [hstep]
    cases hinbox : l.inbox with
    | nil =>
      have hidle : l.serve = l := by
        rw [serve, hserving, hinbox]
      rw [hidle, ih hserving, hinbox]
      simp
    | cons text rest =>
      have hserve := serve_defaultIn hserving hinbox
      rw [ih (l := l.serve) (by rw [hserve]; exact hserving), hserve]
      cases hasked : asked? text with
      | none => simp [hasked]
      | some a => simp [hasked]

/-- **Every question is answered, in order, and nothing else is.** Whatever texts are in the inbox
of a worker with the built-in compiler: once it has taken them all, it has sent one response for
each text that asks for one, under the same id and in the same order, and done nothing else. The
response is the result for the request that the text decodes to, or a failure if it decodes to none;
and it is read by the caller as it was sent. -/
theorem run_work_answers {scope : Scope} {l : Link}
    (hserving : l.service = .serving (defaultIn scope)) :
    let asked := l.inbox.filterMap asked?
    let responses := asked.map (·.reply)
    l.run (List.replicate l.inbox.length .work) =
        { l with inbox := [], outbox := l.outbox ++ responses.map (·.text) } ∧
      responses.map (·.id) = asked.map (·.id) ∧
      (∀ a ∈ asked,
        (∀ id r, Request.decode a.message = .ok (.compile id r) →
          id = a.id ∧ a.reply = .completed a.id (compileDocument r)) ∧
        ∀ m, Request.decode a.message = .error m → ∃ message, a.reply = .failed a.id message) ∧
      ∀ response ∈ responses,
        settlement? response.text = some (response.id, response.settlement) := by
  intro asked responses
  refine ⟨?_, ?_, fun a ha => ⟨fun id r hdecode => ?_, fun m hdecode => ?_⟩, fun response hr => ?_⟩
  · rw [run_work l.inbox.length hserving, List.drop_length, List.take_length]
    simp only [responses, asked, List.map_map]
    rfl
  · rw [List.map_map]
    exact List.map_congr_left fun a _ => a.id_reply
  · obtain ⟨text, -, hasked⟩ := List.mem_filterMap.1 ha
    refine ⟨id_of_decode hasked hdecode, ?_⟩
    rw [Asked.reply, hdecode]
  · refine ⟨"Malformed compile request: " ++ m.message, ?_⟩
    rw [Asked.reply, hdecode]
  · obtain ⟨a, -, rfl⟩ := List.mem_map.1 hr
    rw [a.settlement?_reply, a.id_reply]

/-- Texts of all kinds: no JSON, no object, another type, no id, an id that is no string, no payload,
a request, and an id for the second time with a payload that is none. -/
def mixed : Link := { serving (defaultIn .plain) with
  inbox := ["\x7b", "[\"compile\"]", "\x7b\"type\":\"ping\",\"id\":\"a\"\x7d",
    "\x7b\"type\":\"compile\"\x7d", "\x7b\"type\":\"compile\",\"id\":7\x7d",
    "\x7b\"type\":\"compile\",\"id\":\"a\"\x7d",
    "\x7b\"id\":\"b\",\"type\":\"compile\",\"payload\":\x7b\"document\":" ++
      "\x7b\"id\":\"doc\",\"title\":\"\",\"blocks\":[],\"statusKey\":\"\"\x7d\x7d\x7d",
    "\x7b\"id\":\"a\",\"payload\":\x7b\"document\":\x7b\x7d\x7d,\"type\":\"compile\"\x7d"] }

theorem run_work_answers_mixed :
    mixed.service = .serving (defaultIn .plain) ∧
      (mixed.run (List.replicate mixed.inbox.length .work)).outbox =
        mixed.outbox ++ ((mixed.inbox.filterMap asked?).map (·.reply)).map (·.text) ∧
      ((mixed.inbox.filterMap asked?).map (·.reply)).map (·.id) = ["a", "b", "a"] := by
  have hserving : mixed.service = .serving (defaultIn .plain) := rfl
  obtain ⟨hrun, hids, -, -⟩ := run_work_answers hserving
  have hasked : (mixed.inbox.filterMap asked?).map (·.id) = ["a", "b", "a"] := by decide +kernel
  refine ⟨hserving, ?_, ?_⟩
  · rw [hrun]
  · rw [hids, hasked]

end Link
end DocCompiler.Worker
