import DocCompiler.Proofs.Wire.RoundTrip
import DocCompiler.Proofs.Worker.Header
import DocCompiler.Proofs.Worker.Parity

/-! Room for a request in a message. Text is read up to 127 containers deep, and the message is one
around its request. A decoded request that fits is answered with its result; one that does not fit
is dropped by the worker, and the call waits for ever. -/

namespace DocCompiler

open Compile (compileDocument)

/-- Inside a message there is still room for the request. -/
def CompileRequest.FitsMessage (r : CompileRequest) : Prop :=
  (Wire.compileRequest.encode r).canonical.Nested 127

namespace CompileRequest.Decoded

variable {depth : Nat} {r : CompileRequest} (h : r.Decoded depth)
  (hnumbers : (Wire.compileRequest.encode r).NumbersReadBack)

include h hnumbers

theorem of_fits (hfits : r.FitsMessage) : r.Decoded 120 := by
  have hdecode := (h.carries hnumbers).decode_eq .plain
  exact Wire.yields_compileRequest .plain _ r ⟨Json.canonical_canonical _, hfits⟩ hdecode

theorem fitsMessage_iff : r.FitsMessage ↔ r.Decoded 120 := by
  refine ⟨h.of_fits hnumbers, fun hdecoded => ?_⟩
  have hreadable := (hdecoded.carries hnumbers).readable
  exact hreadable.nested.canonical

end CompileRequest.Decoded

namespace Worker

variable {r : CompileRequest}

/-- A request that does not fit is dropped, because the message around it cannot be read. -/
theorem ofText?_of_not_fits (h : ¬ r.FitsMessage) (id : String) :
    Incoming.ofText? (Request.compile id r).text = none := by
  cases hparse : Json.parse (Request.compile id r).text with
  | error fault => rw [Incoming.ofText?, hparse]
  | ok v =>
    have hencode : (Request.compile id r).encode =
        .obj ((typeKey, .str "compile") :: requestFields.write (id, r)) := rfl
    have hnested : (Request.compile id r).encode.canonical.Nested 128 := Json.nested_of_parse hparse
    rw [hencode, Json.canonical_obj] at hnested
    have hpayload : binding? "payload" (Json.sortedEntries
        ((typeKey, .str "compile") :: requestFields.write (id, r))).entries =
          some (Wire.compileRequest.encode r).canonical := by
      rw [Json.binding?_sortedEntries]
      rfl
    cases hnested with
    | obj hentries => exact absurd (hentries _ (mem_of_binding? hpayload)) h

namespace Link

theorem callAll_dropped {l : Link} (hidle : l.Idle) {id : String} (hnew : l.settled.find? id = none)
    (hdropped : Incoming.ofText? (Request.compile id r).text = none) :
    (l.callAll [(id, r)] none).2 = [none] := by
  obtain ⟨⟨scope, hserving⟩, hinbox, houtbox⟩ := hidle
  have hopen : l.service ≠ .closed := by rw [hserving]; exact Service.noConfusion
  have hrequest := foldl_request hopen [(id, r)]
  generalize hmade : [(id, r)].foldl (fun l c => l.request c.1 c.2) l = made at hrequest
  have hmade_serving : made.service = .serving (defaultIn scope) := by
    rw [hrequest]
    exact hserving
  have hmade_inbox : made.inbox = [(Request.compile id r).text] := by
    rw [hrequest, hinbox]
    rfl
  have hmade_outbox : made.outbox = [] := by
    rw [hrequest]
    exact houtbox
  have hserve : made.serve = { made with inbox := [] } := by
    rw [serve, hmade_serving, hmade_inbox]
    simp only [hdropped]
  have hsettle : made.settle = { made with inbox := [] } := by
    rw [settle, hmade_inbox, List.foldl_cons, List.foldl_nil, hserve]
    simp only [hmade_outbox, List.foldl_nil]
  have hsettled : made.settle.settled.find? id = none := by
    rw [hsettle, hrequest]
    exact hnew
  rw [callAll, hmade, List.map_singleton]
  exact congrArg ([·]) hsettled

end Link

namespace Channel

variable {c : Channel} (hidle : c.Idle)

include hidle

theorem compileAll_not_fits (hnew : c.link.settled.find? (toString c.calls) = none)
    (h : ¬ r.FitsMessage) : (c.compileAll [r] none).2 = [none] := by
  have hcalls : numbered [r] c.calls = [(toString c.calls, r)] := rfl
  rw [compileAll_attached hidle.attached, hcalls]
  exact Link.callAll_dropped hidle.link hnew (ofText?_of_not_fits h _)

theorem compileAll_fits {depth : Nat} (h : r.Decoded depth)
    (hnumbers : (Wire.compileRequest.encode r).NumbersReadBack) (hfits : r.FitsMessage) :
    (c.compileAll [r] none).2 = [some (.ok (compileDocument r))] := by
  have hread : r.ReadsBack 120 := (h.of_fits hnumbers hfits).readsBack hnumbers
  have hsettled := (compileAll_settles hidle (List.forall_mem_singleton.2 hread)).2
  obtain ⟨o, none, hcall, hnil, hone⟩ := List.forall₂_cons_left_iff.1 hsettled
  obtain rfl := List.forall₂_nil_left_iff.1 hnil
  obtain ⟨s, rfl, hs⟩ := hcall
  rw [SettlesAs, h.unambiguous.received, h.retimed, Option.map_some] at hs
  cases s with
  | error fault => cases hs
  | ok result => rw [hone, Option.some.inj hs]

end Channel
end Worker
end DocCompiler
