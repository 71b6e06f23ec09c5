import DocCompiler.Proofs.Worker.Exchange
import DocCompiler.Proofs.Worker.Steps
import DocCompiler.Worker.Channel

/-! What formatters get to see of the network. Behind the guards every call of a script comes back
as disabled, so a script does what it would do if it were told so and made no call at all; and as
the runs of scripts are all that a worker owes to its scope, the same holds of the worker. Which
hosts there were before makes no difference to anything that the worker does. -/

namespace DocCompiler

namespace Sandbox

variable {s : Scope} {script : Script} {x : Exchange}

def Call.refused (c : Call) : Exchange := ⟨c, .error (.disabled c.primitive), false⟩

/-- What a script comes to when it is told at each call that the primitive is disabled. -/
def Script.offline : Script → Outcome String
  | .done text => ⟨[], .ok text⟩
  | .fail message => ⟨[], .error message⟩
  | .call c next =>
    let rest := (next (.error (.disabled c.primitive))).offline
    ⟨c.refused :: rest.exchanges, rest.result⟩

theorem Script.run_installGuards (s : Scope) (script : Script) :
    script.run s.installGuards = script.offline := by
  induction script with
  | done text => rfl
  | fail message => rfl
  | call c next ih =>
    have hrest := ih (.error (.disabled c.primitive))
    rw [offline, ← hrest]
    rfl

theorem Script.refused_of_mem_offline (hx : x ∈ script.offline.exchanges) : x = x.call.refused := by
  induction script with
  | done text => cases hx
  | fail message => cases hx
  | call c next ih =>
    rcases List.mem_cons.1 hx with rfl | hx
    · rfl
    · exact ih _ hx

theorem Script.refused_of_mem_runAll {scripts : List Script}
    (hx : x ∈ (runAll s.installGuards scripts).exchanges) : x = x.call.refused := by
  induction scripts with
  | nil => cases hx
  | cons script rest ih =>
    have hfirst : ∀ x ∈ script.offline.exchanges, x = x.call.refused :=
      fun _ hx => refused_of_mem_offline hx
    rw [runAll, run_installGuards] at hx
    generalize script.offline = outcome at hx hfirst
    obtain ⟨exchanges, message | text⟩ := outcome
    · exact hfirst x hx
    · rcases List.mem_append.1 hx with hx | hx
      · exact hfirst x hx
      · exact ih hx

/-- The script that makes no call and comes to the same as this one does offline. -/
def Script.unplugged (script : Script) : Script :=
  match script.offline.result with
  | .ok text => .done text
  | .error message => .fail message

theorem Script.run_unplugged (s : Scope) (script : Script) :
    script.unplugged.run s = ⟨[], script.offline.result⟩ := by
  rw [unplugged]
  cases script.offline.result <;> rfl

theorem Script.runAll_unplugged (s s' : Scope) (scripts : List Script) :
    runAll s' (scripts.map unplugged) = ⟨[], (runAll s.installGuards scripts).result⟩ := by
  induction scripts with
  | nil => rfl
  | cons script rest ih =>
    rw [List.map_cons, runAll, runAll, run_unplugged, run_installGuards, ih]
    rcases script.offline with ⟨exchanges, message | text⟩ <;> rfl

end Sandbox

open Sandbox (Exchange Scope Script)

namespace Compile

variable {p : Pipeline} {x : Exchange}

def Formatter.unplugged (f : Formatter) : Formatter :=
  ⟨f.id, fun text m => (f.script text m).unplugged⟩

namespace Pipeline

/-- The pipeline whose formatters make no calls, and do what they would do offline. -/
def unplugged (p : Pipeline) : Pipeline :=
  { p with formatters := p.formatters.map (·.unplugged) }

theorem formatter?_unplugged (p : Pipeline) (id : String) :
    p.unplugged.formatter? id = (p.formatter? id).map (·.unplugged) := by
  show (p.formatters.map (·.unplugged)).find? (·.id == id) = _
  rw [List.find?_map]
  rfl

theorem script_unplugged (p : Pipeline) (segment : Segment) :
    p.unplugged.script segment = (p.script segment).unplugged := by
  rw [script, script]
  cases segment.formatter with
  | none => rfl
  | some f =>
    dsimp only
    rw [formatter?_unplugged]
    cases p.formatter? f.1 <;> rfl

theorem runAll_script_unplugged {s : Scope} (hp : p.scope = s.installGuards)
    (segments : List Segment) :
    Script.runAll p.scope (segments.map p.unplugged.script) =
      ⟨[], (Script.runAll p.scope (segments.map p.script)).result⟩ := by
  have hscripts : segments.map p.unplugged.script = (segments.map p.script).map Script.unplugged := by
    rw [List.map_map]
    exact List.map_congr_left fun segment _ => script_unplugged p segment
  rw [hscripts, hp, Script.runAll_unplugged]

theorem compile_unplugged {s : Scope} (hp : p.scope = s.installGuards) (r : CompileRequest) :
    p.unplugged.compile r = ⟨[], (p.compile r).result⟩ := by
  have hknown : (fun id => (p.unplugged.formatter? id).isSome) =
      fun id => (p.formatter? id).isSome := by
    funext id
    rw [formatter?_unplugged, Option.isSome_map]
  have hscope : p.unplugged.scope = p.scope := rfl
  rw [compile, compile, hknown, hscope, runAll_script_unplugged hp]
  rfl

end Pipeline
end Compile

namespace Worker

open Compile (Pipeline)

variable {p q : Pipeline} {x : Exchange}

section Answer

variable {m : Incoming}

/-- What a worker does for a message is what compiling its request takes. -/
theorem fst_answer {r : CompileRequest} (h : m.payload = .ok r) :
    (answer p m).1 = (p.compile r).exchanges := by
  rw [answer, h]
  dsimp only
  split
  case h_1 hcompile => rw [hcompile]
  case h_2 hcompile => rw [hcompile]

variable {s : Scope} (hp : p.scope = s.installGuards)
include hp

theorem refused_of_mem_answer (hx : x ∈ (answer p m).1) : x = x.call.refused := by
  cases hpayload : m.payload with
  | error mismatch =>
    rw [answer, hpayload] at hx
    cases hx
  | ok r =>
    rw [fst_answer hpayload, Pipeline.compile, hp] at hx
    exact Script.refused_of_mem_runAll hx

theorem response_unplugged : (answer p m).2 = (answer p.unplugged m).2 := by
  rw [answer, answer]
  cases m.payload with
  | error mismatch => rfl
  | ok r =>
    dsimp only
    rw [Pipeline.compile_unplugged hp]
    rcases p.compile r with ⟨exchanges, message | result⟩ <;> rfl

end Answer

namespace Link

/-- Two links alike but for who serves, `p` on the one and `q` on the other, and for the calls that
their formatters make. -/
structure Alike (p q : Pipeline) (l k : Link) : Prop where
  service : l.service = .serving p ∧ k.service = .serving q ∨
    l.service = .closed ∧ k.service = .closed
  inbox : l.inbox = k.inbox
  outbox : l.outbox = k.outbox
  pending : l.pending = k.pending
  settled : l.settled = k.settled

section Alike

variable {l k : Link} (h : Alike p q l k)
include h

theorem Alike.request (id : String) (r : CompileRequest) :
    Alike p q (l.request id r) (k.request id r) := by
  obtain ⟨hservice, hinbox, houtbox, hpending, hsettled⟩ := h
  rw [Link.request, Link.request, hinbox, hpending, hsettled]
  rcases hservice with ⟨hl, hk⟩ | ⟨hl, hk⟩ <;> rw [hl, hk]
  · exact ⟨.inl ⟨rfl, rfl⟩, rfl, houtbox, rfl, rfl⟩
  · exact ⟨.inr ⟨rfl, rfl⟩, rfl, houtbox, rfl, rfl⟩

theorem Alike.serve (hresponse : ∀ m, (answer p m).2 = (answer q m).2) :
    Alike p q l.serve k.serve := by
  obtain ⟨hservice, hinbox, houtbox, hpending, hsettled⟩ := h
  rw [Link.serve, Link.serve, hinbox]
  rcases hservice with ⟨hl, hk⟩ | ⟨hl, hk⟩ <;> rw [hl, hk]
  case inr => exact ⟨.inr ⟨hl, hk⟩, hinbox, houtbox, hpending, hsettled⟩
  case inl =>
    cases hk' : k.inbox with
    | nil => exact ⟨.inl ⟨hl, hk⟩, hinbox, houtbox, hpending, hsettled⟩
    | cons text rest =>
      cases hread : Incoming.ofText? text with
      | none =>
        simp only [hread]
        exact ⟨.inl ⟨rfl, rfl⟩, rfl, houtbox, hpending, hsettled⟩
      | some m =>
        simp only [hread, hresponse, houtbox]
        exact ⟨.inl ⟨rfl, rfl⟩, rfl, rfl, hpending, hsettled⟩

theorem Alike.deliver : Alike p q l.deliver k.deliver := by
  obtain ⟨hservice, hinbox, houtbox, hpending, hsettled⟩ := h
  rw [Link.deliver, Link.deliver, houtbox]
  cases hk : k.outbox with
  | nil => exact ⟨hservice, hinbox, houtbox, hpending, hsettled⟩
  | cons text rest =>
    dsimp only
    rw [hpending, hsettled]
    rcases route text k.pending with ⟨pending, _ | ⟨id, settlement⟩⟩
    · exact ⟨hservice, hinbox, rfl, rfl, rfl⟩
    · exact ⟨hservice, hinbox, rfl, rfl, rfl⟩

theorem Alike.abandon : Alike p q l.abandon k.abandon := by
  obtain ⟨hservice, hinbox, houtbox, hpending, hsettled⟩ := h
  refine ⟨hservice, hinbox, houtbox, rfl, ?_⟩
  rw [Link.abandon, Link.abandon, hpending, hsettled]

theorem Alike.dispatch : Alike p q l.dispatch k.dispatch := by
  rw [Link.dispatch, Link.dispatch, h.outbox]
  cases k.outbox with
  | cons text rest => exact h.deliver
  | nil =>
    rcases h.service with ⟨hl, hk⟩ | ⟨hl, hk⟩ <;> rw [hl, hk]
    · exact h.deliver
    · exact h.abandon

theorem Alike.expire (id : String) (afterMs : Nat) :
    Alike p q (l.expire id afterMs) (k.expire id afterMs) := by
  obtain ⟨hservice, hinbox, houtbox, hpending, hsettled⟩ := h
  rw [Link.expire, Link.expire, hpending, hsettled]
  split
  case isTrue => exact ⟨hservice, hinbox, houtbox, rfl, rfl⟩
  case isFalse => exact ⟨hservice, hinbox, houtbox, hpending, hsettled⟩

theorem Alike.after (hresponse : ∀ m, (answer p m).2 = (answer q m).2) (e : Event) :
    Alike p q (l.after e) (k.after e) := by
  cases e with
  | call id r => exact h.request id r
  | work => exact h.serve hresponse
  | dispatch => exact h.dispatch
  | expire id afterMs => exact h.expire id afterMs
  | stop => exact ⟨.inr ⟨rfl, rfl⟩, rfl, h.outbox, h.pending, h.settled⟩

end Alike

theorem Alike.run {l k : Link} (h : Alike p q l k)
    (hresponse : ∀ m, (answer p m).2 = (answer q m).2) (events : List Event) :
    Alike p q (l.run events) (k.run events) := by
  induction events generalizing l k with
  | nil => exact h
  | cons e events ih => exact ih (h.after hresponse e)

theorem exchanges_serve {l : Link} {text : String} {rest : List String} {m : Incoming}
    (hserving : l.service = .serving p) (hinbox : l.inbox = text :: rest)
    (hread : Incoming.ofText? text = some m) :
    l.serve.exchanges = l.exchanges ++ (answer p m).1 := by
  simp only [Link.serve, hserving, hinbox, hread]

/-- A step adds to the calls on record those made for the message that is answered, if any. -/
theorem Step.exchanges {l l' : Link} {e : Event} {xs : List Settling} (h : l.Step e xs l') :
    l'.exchanges = l.exchanges ∨
      ∃ p m, l.service = .serving p ∧ l'.exchanges = l.exchanges ++ (answer p m).1 := by
  cases h with
  | answered hserving => exact .inr ⟨_, _, hserving, rfl⟩
  | _ => exact .inl rfl

theorem Step.service {l l' : Link} {e : Event} {xs : List Settling} (h : l.Step e xs l') :
    l'.service = l.service ∨ l'.service = .closed := by
  cases h with
  | stopped => exact .inr rfl
  | _ => exact .inl rfl

theorem exchanges_run {l : Link} (h : l.service = .serving p ∨ l.service = .closed)
    (events : List Event) : ∃ made, (l.run events).exchanges = l.exchanges ++ made ∧
      ∀ x ∈ made, ∃ m, x ∈ (answer p m).1 := by
  induction events generalizing l with
  | nil => exact ⟨[], (List.append_nil _).symm, nofun⟩
  | cons e events ih =>
    have hstep := l.step_after e
    have hserved : (l.after e).service = .serving p ∨ (l.after e).service = .closed := by
      rcases hstep.service with hservice | hservice
      · rwa [hservice]
      · exact .inr hservice
    obtain ⟨made, hrun, hmade⟩ := ih hserved
    rw [run, List.foldl_cons, ← run, hrun]
    rcases hstep.exchanges with hnone | ⟨p', m, hserving, hanswered⟩
    · exact ⟨made, by rw [hnone], hmade⟩
    · have hp : p' = p := by
        rcases h with h | h
        · exact Service.serving.inj (hserving.symm.trans h)
        · cases hserving.symm.trans h
      refine ⟨(answer p m).1 ++ made, by rw [hanswered, hp, List.append_assoc], fun x hx => ?_⟩
      rcases List.mem_append.1 hx with hx | hx
      · exact ⟨m, hx⟩
      · exact hmade x hx

end Link

namespace WorkerScope

variable {s s' : WorkerScope} {p' : Pipeline}

theorem register_ok (h : s.register p = (s', .ok p')) :
    s.registered = false ∧ s' = ⟨s.globals.installGuards, true⟩ ∧
      p' = { p with scope := s.globals.installGuards } := by
  rw [register] at h
  split at h
  case isTrue => cases h
  case isFalse hregistered =>
    cases h
    exact ⟨Bool.eq_false_iff.2 hregistered, rfl, rfl⟩

/-- **A worker has no network.** Let a scope be registered with a pipeline, whatever networks the two
had. In the scope that formatters are then handed, every script runs as it does when each of its
calls comes back as disabled. While the worker serves, all calls that are made come back so, no host
hears of any, and all that the worker does is what it does, in any scope, with formatters that make
no calls and do as if offline. With other networks the registration comes to the same, and so does
every run of the worker. To register the scope again is refused, and leaves it as it is. -/
theorem register_offline (h : s.register p = (s', .ok p')) :
    (∀ script : Script, script.run p'.scope = script.offline) ∧
    (∀ (l : Link) (events : List Event), l.service = .serving p' →
      (∃ made, (l.run events).exchanges = l.exchanges ++ made ∧
        ∀ x ∈ made, x.answer = .error (.disabled x.call.primitive) ∧ x.atHost = false) ∧
      (l.run events).calls = l.calls ∧
      Link.Alike p' p'.unplugged (l.run events)
        (Link.run { l with service := .serving p'.unplugged } events)) ∧
    (∀ globals scope : Scope, ∃ p'' : Pipeline,
      WorkerScope.register { s with globals } { p with scope } = (s', .ok p'') ∧
        ∀ (l : Link) (events : List Event),
          Link.run { l with service := .serving p'' } events =
            Link.run { l with service := .serving p' } events) ∧
    ∀ q : Pipeline, s'.register q = (s', .error .alreadyRegistered) := by
  obtain ⟨hregistered, rfl, rfl⟩ := register_ok h
  refine ⟨Script.run_installGuards s.globals, fun l events hserving => ?_, fun globals scope => ?_,
    fun q => rfl⟩
  · obtain ⟨made, hrun, hmade⟩ := Link.exchanges_run (.inl hserving) events
    have hscope : { p with scope := s.globals.installGuards }.scope = s.globals.installGuards := rfl
    have hrefused : ∀ x ∈ made, x = x.call.refused := fun x hx => by
      obtain ⟨m, hx⟩ := hmade x hx
      exact refused_of_mem_answer hscope hx
    refine ⟨⟨made, hrun, fun x hx => ?_⟩, ?_, ?_⟩
    · rw [hrefused x hx]
      exact ⟨rfl, rfl⟩
    · have hnone : Sandbox.hostCalls made = [] := by
        rw [Sandbox.hostCalls, List.map_eq_nil_iff, List.filter_eq_nil_iff]
        intro x hx
        rw [hrefused x hx]
        exact Bool.false_ne_true
      rw [Link.calls, hrun, Sandbox.hostCalls_append, hnone, List.append_nil, Link.calls]
    · have halike : Link.Alike { p with scope := s.globals.installGuards }
          (Pipeline.unplugged { p with scope := s.globals.installGuards }) l
          { l with service := .serving (Pipeline.unplugged _) } :=
        ⟨.inl ⟨hserving, rfl⟩, rfl, rfl, rfl, rfl⟩
      exact halike.run (fun m => response_unplugged hscope) events
  · refine ⟨{ p with scope := s.globals.installGuards }, ?_, fun l events => rfl⟩
    rw [register, if_neg (by rw [hregistered]; exact Bool.false_ne_true)]
    rfl

def probe : Compile.Formatter := ⟨"probe", fun _ _ => .call ⟨.fetch, "http://host"⟩ fun
  | .ok () => .done "online"
  | .error _ => .done "offline"⟩

def host : Scope := .onHost fun _ => .ok ()

def probing (scope : Scope) : Pipeline := { Pipeline.default.withFormatter probe with scope }

def probed : CompileRequest := .ofDocument { Document.empty "doc" "" "" with
  blocks := [⟨"block", 0, some (.ofFormatter "probe"), .divider .rule⟩] }

section Probe

theorem readsBack_probed : probed.ReadsBack 120 :=
  CompileRequest.readsBack_ofDocument {
    options := by
      intro b hb m hm e he
      obtain rfl := List.mem_singleton.1 hb
      obtain rfl := Option.some.inj hm
      cases he
    defaults := fun _ hv => absurd hv List.not_mem_nil
    recipes := fun _ hv => absurd hv List.not_mem_nil
    settings := fun _ he => absurd he List.not_mem_nil }

theorem exchanges_probed :
    ((probing host).compile probed).exchanges = [⟨⟨.fetch, "http://host"⟩, .ok (), true⟩] ∧
      ((probing host.installGuards).compile probed).exchanges =
        [⟨⟨.fetch, "http://host"⟩, .error (.disabled .fetch), false⟩] := by
  have hblocks : probed.document.orderedBlocks = probed.document.blocks :=
    List.mergeSort_singleton _
  rw [Pipeline.compile, Pipeline.compile, Compile.Draft.of, Compile.Draft.of, hblocks]
  exact ⟨rfl, rfl⟩

/-- The worker reads the request as it was made, so that the probe is run. -/
theorem exchanges_work_probed :
    (((Link.serving (probing host.installGuards)).request "0" probed).run [.work]).exchanges =
      ((probing host.installGuards).compile probed).exchanges := by
  obtain ⟨m, hm, -, hpayload⟩ := ofText?_request readsBack_probed "0"
  have hreceived : probed.received = some probed := rfl
  rw [hreceived] at hpayload
  have hpayload : m.payload = .ok probed := by
    cases hp : m.payload with
    | error mismatch => rw [hp] at hpayload; cases hpayload
    | ok r => rw [hp] at hpayload; rw [Option.some.inj hpayload]
  have hserving : ((Link.serving (probing host.installGuards)).request "0" probed).service =
      .serving (probing host.installGuards) := rfl
  have hinbox : ((Link.serving (probing host.installGuards)).request "0" probed).inbox =
      [(Request.compile "0" probed).text] := rfl
  have hserve := Link.exchanges_serve hserving hinbox hm
  rw [← fst_answer hpayload, Link.run, List.foldl_cons, List.foldl_nil, Link.after]
  exact hserve

end Probe

/-- On its host the probe is answered; in a worker, whose globals were on a host as well, it is
not. -/
theorem register_offline_probe :
    let l := (Link.serving (probing host.installGuards)).request "0" probed
    WorkerScope.register ⟨host, false⟩ (probing host) =
        (⟨host.installGuards, true⟩, .ok (probing host.installGuards)) ∧
      ((probing host).compile probed).exchanges = [⟨⟨.fetch, "http://host"⟩, .ok (), true⟩] ∧
      l.service = .serving (probing host.installGuards) ∧
      (l.run [.work]).exchanges.map (·.call) = [⟨.fetch, "http://host"⟩] ∧
      (∀ x ∈ (l.run [.work]).exchanges,
        x.answer = .error (.disabled x.call.primitive) ∧ x.atHost = false) ∧
      (l.run [.work]).calls = [] ∧
      Link.Alike (probing host.installGuards) (probing host.installGuards).unplugged (l.run [.work])
        (Link.run { l with service := .serving (probing host.installGuards).unplugged } [.work]) := by
  intro l
  have hregister : WorkerScope.register ⟨host, false⟩ (probing host) =
      (⟨host.installGuards, true⟩, .ok (probing host.installGuards)) := rfl
  have hserving : l.service = .serving (probing host.installGuards) := rfl
  obtain ⟨⟨made, hrun, hmade⟩, hcalls, halike⟩ := (register_offline hregister).2.1 l [.work] hserving
  have hmade' : made = (l.run [.work]).exchanges := hrun.symm
  refine ⟨hregister, exchanges_probed.1, hserving, ?_, hmade' ▸ hmade, hcalls, halike⟩
  rw [exchanges_work_probed, exchanges_probed.2]
  rfl

end WorkerScope
end Worker
end DocCompiler
