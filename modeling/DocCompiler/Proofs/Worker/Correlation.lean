import DocCompiler.Proofs.Worker.Header
import DocCompiler.Proofs.Worker.Parity
import DocCompiler.Proofs.Worker.Steps

/-! Calls that are under way at the same time. At every moment a call either waits or has been
settled, once: by the response to its own text, by its timeout, or because the worker is gone. What
comes too late changes nothing. -/

namespace DocCompiler.Worker

open Compile (Pipeline)
open Settling (record)

def AnswerTo (p : Pipeline) (c : String × CompileRequest) (text : String) : Prop :=
  ∃ response, respond? p (Request.compile c.1 c.2).text = some response ∧ text = response.text

theorem AnswerTo.id_eq {p : Pipeline} {c : String × CompileRequest} {text id : String}
    {s : Settlement} (h : AnswerTo p c text) (hs : settlement? text = some (id, s)) : id = c.1 := by
  obtain ⟨response, hresponse, rfl⟩ := h
  exact (id_of_settlement? hs).trans (id_of_respond? hresponse)

def Settling.Own (p : Pipeline) (calls : List (String × CompileRequest)) : Settling → Prop
  | .response id text s =>
    ∃ r, (id, r) ∈ calls ∧ AnswerTo p (id, r) text ∧ settlement? text = some (id, s)
  | _ => True

theorem Settling.Own.mono {p : Pipeline} {calls more : List (String × CompileRequest)}
    {x : Settling} (h : x.Own p calls) : x.Own p (calls ++ more) := by
  cases x with
  | response id text s =>
    obtain ⟨r, hr, h⟩ := h
    exact ⟨r, List.mem_append_left _ hr, h⟩
  | timeout | closed => trivial

/-- A call has been made and has not been settled. -/
def Waits (calls : List (String × CompileRequest)) (done : List Settling) (id : String) : Prop :=
  id ∈ calls.map (·.1) ∧ id ∉ done.map (·.id)

namespace Link

/-- Every call of a list waits or has been settled, and all that is under way belongs to one of
them. -/
structure Accounted (p : Pipeline) (calls : List (String × CompileRequest)) (done : List Settling)
    (l : Link) : Prop where
  service : l.service = .serving p ∨ l.service = .closed
  inbox : ∀ text ∈ l.inbox, ∃ c ∈ calls, text = (Request.compile c.1 c.2).text
  outbox : ∀ text ∈ l.outbox, ∃ c ∈ calls, AnswerTo p c text
  pending : ∀ id call, l.pending.find? id = some call ↔ call = id ∧ Waits calls done id
  called : ∀ x ∈ done, x.id ∈ calls.map (·.1)
  once : (done.map (·.id)).Nodup
  own : ∀ x ∈ done, x.Own p calls

namespace Accounted

variable {p : Pipeline} {calls : List (String × CompileRequest)} {done xs : List Settling}
  {l l' : Link} {e : Event} {id : String}

theorem fresh (p : Pipeline) : Accounted p [] [] (serving p) where
  service := .inl rfl
  inbox _ h := nomatch h
  outbox _ h := nomatch h
  pending _ _ := ⟨nofun, fun h => nomatch h.2.1⟩
  called _ h := nomatch h
  once := .nil
  own _ h := nomatch h

theorem settle (h : Accounted p calls done l) (hwaiting : ∀ x ∈ xs, Waits calls done x.id)
    (hids : (xs.map (·.id)).Nodup) (hown : ∀ x ∈ xs, x.Own p calls)
    (hservice : l'.service = l.service) (hinbox : l'.inbox = l.inbox)
    (houtbox : ∀ text ∈ l'.outbox, text ∈ l.outbox)
    (hpending : ∀ id call, l'.pending.find? id = some call ↔
      l.pending.find? id = some call ∧ id ∉ xs.map (·.id)) :
    Accounted p calls (done ++ xs) l' where
  service := hservice ▸ h.service
  inbox := hinbox ▸ h.inbox
  outbox text htext := h.outbox text (houtbox text htext)
  pending id call := by
    rw [hpending, h.pending, Waits, Waits, List.map_append, List.mem_append, not_or, and_assoc,
      and_assoc]
  called x hx := by
    rcases List.mem_append.1 hx with hx | hx
    · exact h.called x hx
    · exact (hwaiting x hx).1
  once := by
    rw [List.map_append, List.nodup_append]
    refine ⟨h.once, hids, ?_⟩
    rintro _ hold _ hnew rfl
    obtain ⟨x, hx, heq⟩ := List.mem_map.1 hnew
    exact (hwaiting x hx).2 (heq ▸ hold)
  own x hx := by
    rcases List.mem_append.1 hx with hx | hx
    · exact h.own x hx
    · exact hown x hx

theorem call (h : Accounted p calls done l) {r : CompileRequest}
    (hnew : id ∉ calls.map (·.1)) {inbox : List String}
    (hinbox : ∀ text ∈ inbox, text ∈ l.inbox ∨ text = (Request.compile id r).text) :
    Accounted p (calls ++ [(id, r)]) done { l with
      inbox := inbox
      pending := l.pending.insert id id } where
  service := h.service
  inbox text htext := by
    rcases hinbox text htext with htext | htext
    · obtain ⟨c, hc, heq⟩ := h.inbox text htext
      exact ⟨c, List.mem_append_left _ hc, heq⟩
    · exact ⟨(id, r), by simp, htext⟩
  outbox text htext := by
    obtain ⟨c, hc, hanswer⟩ := h.outbox text htext
    exact ⟨c, List.mem_append_left _ hc, hanswer⟩
  pending key call := by
    rw [SortedMap.find?_insert, Waits, List.map_append, List.mem_append]
    split
    case isTrue heq =>
      subst heq
      have hnot : id ∉ done.map (·.id) := fun hdone => by
        obtain ⟨x, hx, rfl⟩ := List.mem_map.1 hdone
        exact hnew (h.called x hx)
      simp [hnot, eq_comm]
    case isFalse hne =>
      rw [h.pending, Waits]
      simp [Ne.symm hne]
  called x hx := by
    rw [List.map_append]
    exact List.mem_append_left _ (h.called x hx)
  once := h.once
  own x hx := (h.own x hx).mono

theorem pass (h : Accounted p calls done l) {service : Service} {inbox outbox : List String}
    {made : List Sandbox.Exchange} (hservice : service = .serving p ∨ service = .closed)
    (hinbox : ∀ text ∈ inbox, text ∈ l.inbox)
    (houtbox : ∀ text ∈ outbox, text ∈ l.outbox ∨ ∃ c ∈ calls, AnswerTo p c text) :
    Accounted p calls done { l with
      service := service, inbox := inbox, outbox := outbox, exchanges := made } where
  service := hservice
  inbox text htext := h.inbox text (hinbox text htext)
  outbox text htext := (houtbox text htext).elim (h.outbox text) fun hanswer => hanswer
  pending := h.pending
  called := h.called
  once := h.once
  own := h.own

theorem settle_one (h : Accounted p calls done l) {x : Settling} (hwaiting : Waits calls done x.id)
    (hown : x.Own p calls) {outbox : List String} (houtbox : ∀ text ∈ outbox, text ∈ l.outbox) :
    Accounted p calls (done ++ [x]) { l with
      outbox := outbox
      pending := l.pending.erase x.id
      settled := record l.settled [x] } := by
  refine h.settle (List.forall_mem_singleton.2 hwaiting) (List.nodup_singleton _)
    (List.forall_mem_singleton.2 hown) rfl rfl houtbox fun id call => ?_
  rw [SortedMap.find?_erase, List.map_singleton, List.mem_singleton]
  split
  case isTrue hne => exact (and_iff_left (bne_iff_ne.1 hne)).symm
  case isFalse heq => exact iff_of_false nofun fun hnot => heq (bne_iff_ne.2 hnot.2)

theorem mem_keys_iff (h : Accounted p calls done l) :
    id ∈ l.pending.keys ↔ Waits calls done id := by
  rw [← SortedMap.contains_iff_mem_keys, SortedMap.contains, Option.isSome_iff_exists]
  constructor
  · rintro ⟨call, hcall⟩
    exact ((h.pending id call).1 hcall).2
  · exact fun hwaiting => ⟨id, (h.pending id id).2 ⟨rfl, hwaiting⟩⟩

theorem call_refused (h : Accounted p calls done l) {r : CompileRequest}
    (hnew : id ∉ calls.map (·.1)) : Accounted p (calls ++ [(id, r)]) (done ++ [.closed id])
      { l with settled := record l.settled [.closed id] } := by
  have hcalled : Accounted p (calls ++ [(id, r)]) done { l with
      inbox := l.inbox
      pending := l.pending.insert id id } := h.call hnew fun text htext => .inl htext
  have hwaiting : Waits (calls ++ [(id, r)]) done id :=
    ((hcalled.pending id id).1 (by rw [SortedMap.find?_insert, if_pos rfl])).2
  have hsettled := hcalled.settle_one (x := .closed id) hwaiting trivial fun text htext => htext
  have habsent : l.pending.find? id = none := Option.eq_none_iff_forall_ne_some.2
    fun call hcall => hnew ((h.pending id call).1 hcall).2.1
  rw [Settling.id, SortedMap.erase_insert, SortedMap.erase_of_absent habsent] at hsettled
  exact hsettled

theorem work_answered (h : Accounted p calls done l) {p' : Pipeline} {text : String}
    {rest : List String} {m : Incoming} (hserving : l.service = .serving p')
    (hinbox : l.inbox = text :: rest) (hread : Incoming.ofText? text = some m) :
    Accounted p calls done { l with
      inbox := rest
      outbox := l.outbox ++ [(answer p' m).2.text]
      exchanges := l.exchanges ++ (answer p' m).1 } := by
  -- the worker keeps its pipeline for as long as it serves
  have hp : p' = p := by
    rcases h.service with hservice | hservice
    · exact Service.serving.inj (hserving.symm.trans hservice)
    · cases hserving.symm.trans hservice
  refine h.pass h.service (fun text htext => hinbox ▸ .tail _ htext) fun other hother => ?_
  rcases List.mem_append.1 hother with hother | hother
  · exact .inl hother
  · obtain ⟨c, hc, rfl⟩ := h.inbox text (hinbox ▸ .head _)
    refine .inr ⟨c, hc, (answer p m).2, ?_, hp ▸ List.mem_singleton.1 hother⟩
    rw [respond?, hread, Option.map_some]

theorem dispatch_abandoned (h : Accounted p calls done l) :
    Accounted p calls (done ++ l.pending.keys.map .closed) { l with
      pending := ∅
      settled := record l.settled (l.pending.keys.map .closed) } := by
  have hids : (l.pending.keys.map Settling.closed).map (·.id) = l.pending.keys := by
    rw [List.map_map]
    exact List.map_id _
  refine h.settle (List.forall_mem_map.2 fun id hid => h.mem_keys_iff.1 hid)
    (by rw [hids]; exact l.pending.nodup_keys) (List.forall_mem_map.2 fun id _ => trivial) rfl rfl
    (fun text htext => htext) fun id call => ?_
  rw [hids, h.mem_keys_iff, h.pending]
  exact iff_of_false nofun fun hnot => hnot.2 hnot.1.2

theorem dispatch_matched (h : Accounted p calls done l) {text call : String} {rest : List String}
    {s : Settlement} (houtbox : l.outbox = text :: rest)
    (hsettlement : settlement? text = some (id, s)) (hcall : l.pending.find? id = some call) :
    Accounted p calls (done ++ [.response call text s]) { l with
      outbox := rest
      pending := l.pending.erase id
      settled := record l.settled [.response call text s] } := by
  obtain ⟨rfl, hwaiting⟩ := (h.pending id call).1 hcall
  obtain ⟨c, hc, hanswer⟩ := h.outbox text (houtbox ▸ .head _)
  obtain rfl := hanswer.id_eq hsettlement
  exact h.settle_one (x := .response c.1 text s) hwaiting ⟨c.2, hc, hanswer, hsettlement⟩
    fun text htext => houtbox ▸ .tail _ htext

theorem expire_waiting (h : Accounted p calls done l) {afterMs : Nat}
    (hwaiting : l.pending.contains id = true) :
    Accounted p calls (done ++ [.timeout id afterMs]) { l with
      pending := l.pending.erase id
      settled := record l.settled [.timeout id afterMs] } :=
  h.settle_one (x := .timeout id afterMs)
    (h.mem_keys_iff.1 ((SortedMap.contains_iff_mem_keys _ _).1 hwaiting)) trivial
    fun _ htext => htext

/-- **A step keeps account of all calls.** -/
theorem step (h : Accounted p calls done l) (hstep : l.Step e xs l')
    (hids : ((calls ++ e.calls).map (·.1)).Nodup) :
    Accounted p (calls ++ e.calls) (done ++ xs) l' := by
  have hnew {id : String} {r : CompileRequest} (he : e = .call id r) : id ∉ calls.map (·.1) := by
    subst he
    rw [List.map_append, List.nodup_append] at hids
    exact fun hid => hids.2.2 id hid id (.head _) rfl
  cases hstep with
  | nothing hcalls =>
    rw [hcalls, List.append_nil, List.append_nil]
    exact h
  | called hopen =>
    rw [List.append_nil]
    exact h.call (hnew rfl) fun _ htext => by simpa using htext
  | refused hclosed => exact h.call_refused (hnew rfl)
  | dropped hinbox =>
    simp only [Event.calls, List.append_nil]
    exact h.pass h.service (fun text htext => hinbox ▸ .tail _ htext) fun text htext => .inl htext
  | answered hserving hinbox hread =>
    simp only [Event.calls, List.append_nil]
    exact h.work_answered hserving hinbox hread
  | abandoned houtbox hclosed =>
    simp only [Event.calls, List.append_nil]
    exact h.dispatch_abandoned
  | unmatched houtbox =>
    simp only [Event.calls, List.append_nil]
    exact h.pass h.service (fun text htext => htext) fun text htext => .inl (houtbox ▸ .tail _ htext)
  | matched houtbox hsettlement hcall =>
    simp only [Event.calls, List.append_nil]
    exact h.dispatch_matched houtbox hsettlement hcall
  | expired hwaiting =>
    simp only [Event.calls, List.append_nil]
    exact h.expire_waiting hwaiting
  | stopped =>
    simp only [Event.calls, List.append_nil]
    exact h.pass (.inr rfl) nofun fun text htext => .inl htext

theorem dispatch_late (h : Accounted p calls done l) {c : String × CompileRequest} {text : String}
    {rest : List String} (hanswer : AnswerTo p c text) (houtbox : l.outbox = text :: rest)
    (hsettled : c.1 ∈ done.map (·.id)) : l.dispatch = { l with outbox := rest } := by
  -- a call that the response could settle would be the one that it answers
  have hroute : route text l.pending = (l.pending, none) := by
    rcases route_cases text l.pending with hroute | ⟨id, call, s, hsettlement, hcall, -⟩
    · exact hroute
    · obtain rfl := hanswer.id_eq hsettlement
      exact absurd hsettled ((h.pending c.1 call).1 hcall).2.2
  have hdeliver : l.deliver = { l with outbox := rest } := by
    rw [deliver, houtbox]
    simp only [hroute]
  rw [← hdeliver, dispatch, houtbox]

theorem erase_settled (h : Accounted p calls done l) (hsettled : id ∈ done.map (·.id)) :
    l.pending.erase id = l.pending :=
  SortedMap.erase_of_absent <| Option.eq_none_iff_forall_ne_some.2 fun call hcall =>
    ((h.pending id call).1 hcall).2.2 hsettled

theorem run (h : Accounted p calls done l) (events : List Event)
    (hids : ((calls ++ events.flatMap Event.calls).map (·.1)).Nodup) :
    Accounted p (calls ++ events.flatMap Event.calls) (done ++ l.history events)
      (l.run events) := by
  induction events generalizing calls done l with
  | nil =>
    rw [List.flatMap_nil, List.append_nil, history, List.append_nil]
    exact h
  | cons e events ih =>
    rw [List.flatMap_cons, ← List.append_assoc] at hids ⊢
    have hstep : Accounted p (calls ++ e.calls) (done ++ l.settlings e) (l.after e) :=
      h.step (l.step_after e) (by
        rw [List.map_append, List.nodup_append] at hids
        exact hids.1)
    have hrest := ih hstep hids
    rwa [List.append_assoc done] at hrest

end Accounted

/-- How calls and what has settled them belong together. -/
structure Correlated (p : Pipeline) (calls : List (String × CompileRequest)) (done : List Settling)
    (l : Link) : Prop where
  /-- No call has been settled twice. -/
  once : (done.map (·.id)).Nodup
  /-- The link has recorded what has been settled, in this order and nothing else. -/
  recorded : l.settled = record ∅ done
  /-- What has settled a call is its outcome. -/
  outcome : ∀ id s, l.settled.find? id = some s ↔ ∃ x ∈ done, x.id = id ∧ x.settlement = s
  /-- Nothing but calls has been settled. -/
  called : ∀ x ∈ done, x.id ∈ calls.map (·.1)
  /-- A response that has settled a call is the worker's to this call, and to no other. -/
  own : ∀ id text s, .response id text s ∈ done → settlement? text = some (id, s) ∧
    (∃ r, (id, r) ∈ calls ∧ AnswerTo p (id, r) text) ∧
    ∀ c ∈ calls, AnswerTo p c text → c.1 = id
  /-- Those calls wait that have been made and have not been settled. -/
  waiting : ∀ id, id ∈ l.pending.keys ↔ Waits calls done id
  /-- Every response on its way is the worker's to some call. -/
  answers : ∀ text ∈ l.outbox, ∃ c ∈ calls, AnswerTo p c text
  /-- The response to a call that has been settled changes nothing when it is routed. -/
  late : ∀ c text rest, AnswerTo p c text → l.outbox = text :: rest → c.1 ∈ done.map (·.id) →
    l.dispatch = { l with outbox := rest }
  /-- Whatever else removes a call that has been settled finds nothing to remove. -/
  removed : ∀ id ∈ done.map (·.id), l.pending.erase id = l.pending

/-- **Responses are correlated with calls**, however calls of different ids, the worker, the
caller's end, timeouts and the end of the worker interleave. -/
theorem correlated_run (p : Pipeline) (events : List Event)
    (hids : ((events.flatMap Event.calls).map (·.1)).Nodup) :
    Correlated p (events.flatMap Event.calls) ((serving p).history events)
      ((serving p).run events) := by
  have haccounted := (Accounted.fresh p).run events hids
  rw [List.nil_append, List.nil_append] at haccounted
  have hrecorded : ((serving p).run events).settled = record ∅ ((serving p).history events) :=
    settled_run (serving p) events
  exact {
    once := haccounted.once
    recorded := hrecorded
    outcome := fun id s => by
      rw [hrecorded]
      exact Settling.find?_record haccounted.once
    called := haccounted.called
    own := fun id text s hx => by
      obtain ⟨r, hr, hanswer, hsettlement⟩ := haccounted.own _ hx
      exact ⟨hsettlement, ⟨r, hr, hanswer⟩, fun c _ hc => (hc.id_eq hsettlement).symm⟩
    waiting := fun id => haccounted.mem_keys_iff
    answers := haccounted.outbox
    late := fun c text rest hanswer => haccounted.dispatch_late hanswer
    removed := fun id hid => haccounted.erase_settled hid }

/-- Two calls, of which the first is answered and then runs out of time. -/
def overtaken (r : CompileRequest) : List Event :=
  [.call "a" r, .call "b" r, .work, .expire "a" 5]

theorem run_overtaken {r : CompileRequest} (h : r.ReadsBack 120) (scope : Sandbox.Scope) :
    ∃ response, respond? (defaultIn scope) (Request.compile "a" r).text = some response ∧
      (serving (defaultIn scope)).run (overtaken r) = {
        service := .serving (defaultIn scope)
        inbox := [(Request.compile "b" r).text]
        outbox := [response.text]
        pending := (((∅ : Pending String).insert "a" "a").insert "b" "b").erase "a"
        settled := (∅ : SortedMap Settlement).insert "a" (.error (.timeout "a" 5))
        exchanges := [] } := by
  obtain ⟨m, response, hread, hanswer, -, -, -⟩ := answer_request h "a" scope
  refine ⟨response, by rw [respond?, hread, Option.map_some, hanswer], ?_⟩
  have hcalled : ((serving (defaultIn scope)).request "a" r).request "b" r = {
      service := .serving (defaultIn scope)
      inbox := [(Request.compile "a" r).text, (Request.compile "b" r).text]
      outbox := []
      pending := ((∅ : Pending String).insert "a" "a").insert "b" "b"
      settled := ∅
      exchanges := [] } := rfl
  have hwaiting : SortedMap.contains (((∅ : Pending String).insert "a" "a").insert "b" "b") "a" =
    true := rfl
  simp only [run, overtaken, List.foldl_cons, List.foldl_nil, after, hcalled, serve, hread, hanswer,
    expire, hwaiting, if_true, List.nil_append]

theorem correlated_run_overtaken : ∃ response,
    respond? (defaultIn .plain) (Request.compile "a" (Channel.withDefault none)).text =
      some response ∧
    ((serving (defaultIn .plain)).run (overtaken (Channel.withDefault none))).outbox =
      [response.text] ∧
    ((serving (defaultIn .plain)).run (overtaken (Channel.withDefault none))).pending.keys =
      ["b"] ∧
    ((serving (defaultIn .plain)).run (overtaken (Channel.withDefault none))).dispatch =
      { (serving (defaultIn .plain)).run (overtaken (Channel.withDefault none)) with
        outbox := [] } := by
  have hread : (Channel.withDefault none).ReadsBack 120 := Channel.readsBack_withDefault nofun
  obtain ⟨response, hresponse, hlink⟩ := run_overtaken hread .plain
  have hcorrelated := correlated_run (defaultIn .plain) (overtaken (Channel.withDefault none))
    (by decide : ["a", "b"].Nodup)
  rw [hlink] at hcorrelated ⊢
  refine ⟨response, hresponse, rfl, rfl, ?_⟩
  obtain ⟨x, hx, hid, -⟩ := (hcorrelated.outcome "a" (.error (.timeout "a" 5))).1 rfl
  have hanswer : AnswerTo (defaultIn .plain) ("a", Channel.withDefault none) response.text :=
    ⟨response, hresponse, rfl⟩
  exact hcorrelated.late _ response.text [] hanswer rfl (List.mem_map.2 ⟨x, hx, hid⟩)

end Link
end DocCompiler.Worker
