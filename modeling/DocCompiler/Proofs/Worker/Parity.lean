import DocCompiler.Proofs.Compile.Untimed
import DocCompiler.Proofs.Worker.Exchange
import DocCompiler.Worker.Channel

/-! Calls through a worker against compilation in place. The worker takes what the queue holds in
its order and answers each request once; every answer settles the call that waits for it. What a
call settles with is the result for the request as the worker has received it, which is the result
for the request itself where its encoding tells it from all others. -/

namespace DocCompiler.Worker

open Compile (compileDocument)

/-- A settlement that a request may come to: the result for what the worker has received, or a
failure if the worker cannot make a request of that. -/
def SettlesAs (r : CompileRequest) (s : Settlement) : Prop :=
  s.toOption = r.received.map compileDocument

namespace Link

/-- A worker with the built-in compiler serves, and nothing is under way. -/
structure Idle (l : Link) : Prop where
  serving : ∃ scope, l.service = .serving (defaultIn scope)
  inbox : l.inbox = []
  outbox : l.outbox = []

def callText (c : String × CompileRequest) : String := (Request.compile c.1 c.2).text

theorem foldl_request {l : Link} (hopen : l.service ≠ .closed)
    (calls : List (String × CompileRequest)) :
    calls.foldl (fun l c => l.request c.1 c.2) l =
      { l with
        inbox := l.inbox ++ calls.map callText
        pending := calls.foldl (fun m c => m.insert c.1 c.1) l.pending } := by
  induction calls generalizing l with
  | nil => simp
  | cons c calls ih =>
    have hrequest : l.request c.1 c.2 =
        { l with
          inbox := l.inbox ++ [callText c]
          pending := l.pending.insert c.1 c.1 } := by
      rw [request]
      split
      case h_1 h => exact absurd h hopen
      case h_2 => rfl
    rw [List.foldl_cons, hrequest, ih (by exact hopen)]
    simp

theorem find?_foldl_insert (calls : List (String × CompileRequest)) (m : Pending String)
    (id : String) :
    (calls.foldl (fun m c => m.insert c.1 c.1) m).find? id =
      if id ∈ calls.map (·.1) then some id else m.find? id := by
  induction calls generalizing m with
  | nil => simp
  | cons c calls ih =>
    rw [List.foldl_cons, ih, SortedMap.find?_insert]
    by_cases hmem : id ∈ calls.map (·.1)
    · simp [hmem]
    · by_cases heq : c.1 = id
      · simp [heq]
      · simp [hmem, heq, Ne.symm heq]

/-- A response to a call: under its id, and with what the call may come to. -/
structure Answers (c : String × CompileRequest) (response : Response) : Prop where
  id : response.id = c.1
  readsBack : response.ReadsBack
  settles : SettlesAs c.2 response.settlement

theorem serve_request {l : Link} {scope : Sandbox.Scope} {c : String × CompileRequest}
    {rest : List String} (hserving : l.service = .serving (defaultIn scope))
    (hinbox : l.inbox = callText c :: rest) (hread : c.2.ReadsBack 120) :
    ∃ response, Answers c response ∧
      l.serve = { l with inbox := rest, outbox := l.outbox ++ [response.text] } := by
  obtain ⟨m, response, hm, hanswer, hid, hback, hsettles⟩ := answer_request hread c.1 scope
  refine ⟨response, ⟨hid, hback, hsettles⟩, ?_⟩
  have hm' : Incoming.ofText? (callText c) = some m := hm
  rw [serve, hserving, hinbox]
  simp only [hm', hanswer, List.append_nil]

theorem foldl_serve {scope : Sandbox.Scope} (calls : List (String × CompileRequest))
    (hread : ∀ c ∈ calls, c.2.ReadsBack 120) {l : Link}
    (hserving : l.service = .serving (defaultIn scope)) (hinbox : l.inbox = calls.map callText) :
    ∃ responses, List.Forall₂ Answers calls responses ∧
      (calls.map callText).foldl (fun l _ => l.serve) l =
        { l with inbox := [], outbox := l.outbox ++ responses.map (·.text) } := by
  induction calls generalizing l with
  | nil =>
    refine ⟨[], .nil, ?_⟩
    obtain ⟨service, inbox, outbox, pending, settled, exchanges⟩ := l
    simp only [List.map_nil] at hinbox
    simp [hinbox]
  | cons c calls ih =>
    obtain ⟨response, hanswers, hserve⟩ := serve_request hserving hinbox (hread c (.head _))
    obtain ⟨responses, hall, hfold⟩ := ih (fun c hc => hread c (.tail _ hc))
      (l := { l with inbox := calls.map callText, outbox := l.outbox ++ [response.text] })
      hserving rfl
    refine ⟨response :: responses, .cons hanswers hall, ?_⟩
    rw [List.map_cons, List.foldl_cons, hserve, hfold]
    simp

theorem deliver_response {l : Link} {response : Response} {rest : List String}
    (houtbox : l.outbox = response.text :: rest) (hread : response.ReadsBack)
    (hwaiting : l.pending.find? response.id = some response.id) :
    l.deliver = { l with
      outbox := rest
      pending := l.pending.erase response.id
      settled := l.settled.insert response.id response.settlement } := by
  have hroute : route response.text l.pending =
      (l.pending.erase response.id, some (response.id, response.settlement)) := by
    simp only [route, settlement?_response hread, hwaiting]
  rw [deliver, houtbox]
  simp only [hroute]

/-- What a link comes to that delivers these responses. -/
structure Delivered (l l' : Link) (responses : List Response) : Prop where
  service : l'.service = l.service
  inbox : l'.inbox = l.inbox
  outbox : l'.outbox = []
  settled : ∀ response ∈ responses, l'.settled.find? response.id = some response.settlement
  others : ∀ id, (∀ response ∈ responses, response.id ≠ id) →
    l'.settled.find? id = l.settled.find? id

theorem foldl_deliver (responses : List Response) (hread : ∀ r ∈ responses, r.ReadsBack)
    (hids : (responses.map (·.id)).Nodup) {l : Link} (houtbox : l.outbox = responses.map (·.text))
    (hwaiting : ∀ r ∈ responses, l.pending.find? r.id = some r.id) :
    Delivered l ((responses.map (·.text)).foldl (fun l _ => l.deliver) l) responses := by
  induction responses generalizing l with
  | nil => exact ⟨rfl, rfl, houtbox, fun _ h => absurd h List.not_mem_nil, fun _ _ => rfl⟩
  | cons response rest ih =>
    obtain ⟨hnot, hnodup⟩ := List.nodup_cons.1 hids
    have hne : ∀ r ∈ rest, r.id ≠ response.id := fun r hr heq =>
      hnot (List.mem_map.2 ⟨r, hr, heq⟩)
    rw [List.map_cons, List.foldl_cons,
      deliver_response houtbox (hread _ (.head _)) (hwaiting _ (.head _))]
    have hrest := ih (fun r hr => hread r (.tail _ hr)) hnodup
      (l := { l with
        outbox := rest.map (·.text)
        pending := l.pending.erase response.id
        settled := l.settled.insert response.id response.settlement }) rfl
      fun r hr => by
        rw [SortedMap.find?_erase, if_pos (by simpa using hne r hr)]
        exact hwaiting r (.tail _ hr)
    refine ⟨hrest.service, hrest.inbox, hrest.outbox, fun r hr => ?_, fun id hid => ?_⟩
    · rcases List.mem_cons.1 hr with rfl | hr
      · rw [hrest.others _ hne, SortedMap.find?_insert, if_pos rfl]
      · exact hrest.settled r hr
    · rw [hrest.others id fun r hr => hid r (.tail _ hr), SortedMap.find?_insert,
        if_neg (hid response (.head _))]

theorem ids_eq {calls : List (String × CompileRequest)} {responses : List Response}
    (h : List.Forall₂ Answers calls responses) :
    responses.map (·.id) = calls.map (·.1) := by
  induction h with
  | nil => rfl
  | cons hanswers _ ih => rw [List.map_cons, List.map_cons, hanswers.id, ih]

theorem readsBack_of_answers {calls : List (String × CompileRequest)} {responses : List Response}
    (h : List.Forall₂ Answers calls responses) : ∀ r ∈ responses, r.ReadsBack := by
  induction h with
  | nil => exact fun _ hr => absurd hr List.not_mem_nil
  | cons hanswers _ ih =>
    intro r hr
    rcases List.mem_cons.1 hr with rfl | hr
    · exact hanswers.readsBack
    · exact ih r hr

theorem settles_of_answers {calls : List (String × CompileRequest)} {responses : List Response}
    (h : List.Forall₂ Answers calls responses) {settled : SortedMap Settlement}
    (hsettled : ∀ r ∈ responses, settled.find? r.id = some r.settlement) :
    List.Forall₂ (fun c o => ∃ s, o = some s ∧ SettlesAs c.2 s) calls
      (calls.map fun c => settled.find? c.1) := by
  induction h with
  | nil => exact .nil
  | cons hanswers _ ih =>
    refine .cons ⟨_, ?_, hanswers.settles⟩ (ih fun r hr => hsettled r (.tail _ hr))
    have hfound := hsettled _ (.head _)
    rwa [hanswers.id] at hfound

/-- Calls of different ids on an idle link all settle, and leave it idle. -/
theorem callAll_idle {l : Link} (hidle : l.Idle) {calls : List (String × CompileRequest)}
    (hids : (calls.map (·.1)).Nodup) (hread : ∀ c ∈ calls, c.2.ReadsBack 120) :
    (l.callAll calls none).1.Idle ∧
      List.Forall₂ (fun c o => ∃ s, o = some s ∧ SettlesAs c.2 s) calls
        (l.callAll calls none).2 := by
  obtain ⟨⟨scope, hserving⟩, hinbox, houtbox⟩ := hidle
  have hopen : l.service ≠ .closed := by rw [hserving]; exact Service.noConfusion
  have hstart := foldl_request hopen calls
  generalize hmade : calls.foldl (fun l c => l.request c.1 c.2) l = made at hstart
  have hmade_inbox : made.inbox = calls.map callText := by rw [hstart, hinbox]; rfl
  obtain ⟨responses, hanswers, hserve⟩ := foldl_serve calls hread
    (show made.service = .serving (defaultIn scope) by rw [hstart]; exact hserving) hmade_inbox
  have hresponses := ids_eq hanswers
  have hdelivered := foldl_deliver responses (readsBack_of_answers hanswers) (hresponses ▸ hids)
    (l := { made with inbox := [], outbox := made.outbox ++ responses.map (·.text) })
    (by rw [hstart, houtbox]; rfl) fun r hr => by
      have hmem : r.id ∈ calls.map (·.1) := hresponses ▸ List.mem_map_of_mem hr
      show made.pending.find? r.id = some r.id
      rw [hstart, find?_foldl_insert, if_pos hmem]
  have hsettle : made.settle = (responses.map (·.text)).foldl (fun l _ => l.deliver)
      { made with inbox := [], outbox := made.outbox ++ responses.map (·.text) } := by
    have hmade_outbox : made.outbox = [] := by rw [hstart]; exact houtbox
    rw [settle, hmade_inbox, hserve, hmade_outbox]
    rfl
  have hcall : l.callAll calls none =
      (made.settle, calls.map fun c => made.settle.settled.find? c.1) := by
    rw [callAll, hmade]
  rw [hcall, hsettle]
  refine ⟨⟨⟨scope, ?_⟩, hdelivered.inbox, hdelivered.outbox⟩,
    settles_of_answers hanswers hdelivered.settled⟩
  rw [hdelivered.service, hstart]
  exact hserving

end Link

namespace Channel

/-- A caller is attached to a link on which nothing is under way. -/
structure Idle (c : Channel) : Prop where
  attached : c.caller = .attached
  link : c.link.Idle

theorem idle_connect : (connect true).Idle :=
  ⟨rfl, ⟨Sandbox.Scope.plain.installGuards, rfl⟩, rfl, rfl⟩

def numbered (requests : List CompileRequest) (n : Nat) : List (String × CompileRequest) :=
  (requests.zipIdx n).map fun p => (toString p.2, p.1)

theorem compileAll_attached {c : Channel} (h : c.caller = .attached)
    (requests : List CompileRequest) (timeoutMs : Option Nat) :
    c.compileAll requests timeoutMs =
      ({ c with
          link := (c.link.callAll (numbered requests c.calls) timeoutMs).1
          calls := c.calls + requests.length },
        (c.link.callAll (numbered requests c.calls) timeoutMs).2) := by
  rw [compileAll, if_pos h]
  rfl

theorem nodup_numbered (requests : List CompileRequest) (n : Nat) :
    ((numbered requests n).map (·.1)).Nodup := by
  have hids : (numbered requests n).map (·.1) = (List.range' n requests.length).map toString := by
    rw [← List.zipIdx_map_snd, numbered, List.map_map, List.map_map]
    rfl
  rw [hids, List.Nodup, List.pairwise_map]
  exact List.Pairwise.imp (fun hne heq => hne (Nat.repr_injective heq)) List.nodup_range'

theorem map_numbered (requests : List CompileRequest) (n : Nat) :
    (numbered requests n).map (·.2) = requests := by
  rw [numbered, List.map_map]
  exact List.zipIdx_map_fst n requests

theorem compileAll_settles {c : Channel} (hidle : c.Idle) {requests : List CompileRequest}
    (hread : ∀ r ∈ requests, r.ReadsBack 120) :
    (c.compileAll requests none).1.Idle ∧
      List.Forall₂ (fun r o => ∃ s, o = some s ∧ SettlesAs r s) requests
        (c.compileAll requests none).2 := by
  have hread' : ∀ p ∈ numbered requests c.calls, p.2.ReadsBack 120 := fun p hp =>
    hread p.2 (map_numbered requests c.calls ▸ List.mem_map_of_mem hp)
  obtain ⟨hlink, hsettled⟩ :=
    Link.callAll_idle hidle.link (nodup_numbered requests c.calls) hread'
  rw [compileAll_attached hidle.attached]
  refine ⟨⟨hidle.attached, hlink⟩, ?_⟩
  have hrequests : List.Forall₂ (fun r o => ∃ s, o = some s ∧ SettlesAs r s)
      ((numbered requests c.calls).map (·.2))
      (c.link.callAll (numbered requests c.calls) none).2 := by
    rwa [List.forall₂_map_left_iff]
  rwa [map_numbered] at hrequests

/-- A block of one placeholder, whose variable has the given default. -/
def withDefault (value : Option VariableValue) : CompileRequest :=
  .ofDocument { Document.empty "doc" "Title" "draft" with
    blocks := [.markdown "b" 1 "\x7b\x7bx\x7d\x7d"]
    definitions := [{ VariableDefinition.ofKey "x" with defaultValue := value }] }

theorem readsBack_withDefault {value : Option VariableValue}
    (h : ∀ v, value = some v → v.ReadsBack) : (withDefault value).ReadsBack 120 :=
  CompileRequest.readsBack_ofDocument {
    options := by simp [Block.markdown]
    defaults := by simpa using h
    recipes := fun _ hv => absurd hv List.not_mem_nil
    settings := fun _ he => absurd he List.not_mem_nil }

/-- Each call comes to the result for the request as the worker has received it. That is the result
of compiling in place exactly if receiving makes no difference to it, as it does not for a request
that its encoding tells from all others. -/
theorem compileAll_parity {c : Channel} (hidle : c.Idle) {requests : List CompileRequest}
    (hread : ∀ r ∈ requests, r.ReadsBack 120) :
    (c.compileAll requests none).1.Idle ∧
      List.Forall₂ (fun r o => ∃ s : Settlement, o = some s ∧
        s.toOption = r.received.map compileDocument ∧
        (s = .ok (compileDocument r) ↔
          r.received.map compileDocument = some (compileDocument r)) ∧
        (r.Unambiguous → s = .ok (compileDocument r)))
      requests (c.compileAll requests none).2 := by
  obtain ⟨hidle', hsettled⟩ := compileAll_settles hidle hread
  refine ⟨hidle', hsettled.imp fun r o => ?_⟩
  rintro ⟨s, rfl, hs⟩
  have hexact (result : Compile.Result) :
      s = .ok result ↔ r.received.map compileDocument = some result := by
    rw [← hs]
    cases s with
    | ok found => simp [Except.toOption]
    | error fault => simp [Except.toOption]
  refine ⟨s, rfl, hs, hexact _, fun hplain => (hexact _).2 ?_⟩
  rw [hplain.received, Option.map_some, Compile.compileDocument_retimed]

theorem compileAll_parity_number :
    ((connect true).compileAll [withDefault (some (.number (.int 7)))] none).2 =
      [some (.ok (compileDocument (withDefault (some (.number (.int 7))))))] := by
  have hread : (withDefault (some (.number (.int 7)))).ReadsBack 120 :=
    readsBack_withDefault fun v hv => by
      obtain rfl := Option.some.inj hv
      exact Json.readsBack_int (by decide) (by decide)
  have hplain : (withDefault (some (.number (.int 7)))).Unambiguous :=
    ⟨by simp [withDefault, CompileRequest.ofDocument],
      by simp [withDefault, CompileRequest.ofDocument, Block.markdown]⟩
  obtain ⟨-, hsettled⟩ := compileAll_parity idle_connect
    (List.forall_mem_singleton.2 hread)
  generalize ((connect true).compileAll [withDefault (some (.number (.int 7)))] none).2 = settled
    at hsettled
  cases hsettled with
  | cons hcall hnil =>
    cases hnil
    obtain ⟨s, rfl, -, -, hs⟩ := hcall
    rw [hs hplain]

theorem diagnostics_withDefault (value : Option VariableValue) :
    (compileDocument (withDefault value)).diagnostics =
      (distinctSorted (substitute "\x7b\x7bx\x7d\x7d"
        ((withDefault value).document.effectiveVariables ∅)).missing).map
          fun key => (Finding.variableMissing key).toDiagnostic := by
  have hblocks : (withDefault value).document.orderedBlocks =
      [.markdown "b" 1 "\x7b\x7bx\x7d\x7d"] := List.mergeSort_singleton _
  have hrendering (index : Snippet.Index) :
      Compile.Rendering.of index (.markdown "b" 1 "\x7b\x7bx\x7d\x7d") =
        ⟨"\x7b\x7bx\x7d\x7d", [], []⟩ := by
    have hpieces : Transclusion.Token.pieces "\x7b\x7bx\x7d\x7d" =
        [.plain '\x7b', .plain '\x7b', .plain 'x', .plain '\x7d', .plain '\x7d'] := rfl
    simp only [Compile.Rendering.of, Block.markdown, Transclusion.expansionOf, hpieces,
      Transclusion.expandPieces]
    rfl
  show List.map _ (Compile.Draft.allFindings _) = _
  rw [Compile.Draft.allFindings, Compile.Draft.findings_of, Compile.Draft.missing_of, hblocks]
  have hsegment (isKnown : String → Bool) (text : String) :
      (Compile.Segment.of isKnown (.markdown "b" 1 "\x7b\x7bx\x7d\x7d") text).2 = [] := rfl
  simp only [List.flatMap_singleton, List.reverse_singleton, Compile.Draft.blockFindings,
    hrendering, hsegment, List.append_nil, List.nil_append, List.map_map]
  rfl

/-- A default that is null is not the default the worker sees. -/
theorem compileAll_null_default : (withDefault (some .null)).ReadsBack 120 ∧
    ((connect true).compileAll [withDefault (some .null)] none).2 ≠
      [some (.ok (compileDocument (withDefault (some .null))))] := by
  have hread : (withDefault (some .null)).ReadsBack 120 :=
    readsBack_withDefault fun v hv => by cases hv; trivial
  refine ⟨hread, ?_⟩
  intro heq
  obtain ⟨-, hsettled⟩ := compileAll_settles idle_connect (List.forall_mem_singleton.2 hread)
  rw [heq] at hsettled
  obtain ⟨s, hs, hresult⟩ := (List.forall₂_cons.1 hsettled).1
  obtain rfl := Option.some.inj hs
  have hreceived : (withDefault (some .null)).received = some (withDefault none) := rfl
  rw [SettlesAs, hreceived] at hresult
  have hdiagnostics := congrArg Compile.Result.diagnostics (Option.some.inj hresult)
  rw [diagnostics_withDefault, diagnostics_withDefault] at hdiagnostics
  have hnull : distinctSorted (substitute "\x7b\x7bx\x7d\x7d"
      ((withDefault (some .null)).document.effectiveVariables ∅)).missing = [] := by decide
  have hnone : distinctSorted (substitute "\x7b\x7bx\x7d\x7d"
      ((withDefault none).document.effectiveVariables ∅)).missing = ["x"] := by decide
  rw [hnull, hnone] at hdiagnostics
  cases hdiagnostics

end Channel
end DocCompiler.Worker
