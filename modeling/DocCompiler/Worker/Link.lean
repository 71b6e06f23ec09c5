import DocCompiler.Worker.Service
import DocCompiler.Worker.Settlement

/-! A caller and a worker that pass texts to each other. Each end has a queue; requests, answers,
deliveries and timeouts may come in any order. -/

namespace DocCompiler.Worker

open Compile (Pipeline)

/-- The worker's end: not yet served, served, or gone. -/
inductive Service where
  | waiting
  | serving (p : Pipeline)
  | closed

/-- `inbox` holds the requests that have not been taken, `outbox` the responses that have not
been delivered, each with the oldest first. -/
structure Link where
  service : Service
  inbox : List String
  outbox : List String
  pending : Pending String
  settled : SortedMap Settlement
  /-- The calls of network primitives that formatters have made. -/
  exchanges : List Sandbox.Exchange

namespace Link

def fresh : Link := ⟨.waiting, [], [], ∅, ∅, []⟩

def calls (l : Link) : List Sandbox.Call := Sandbox.hostCalls l.exchanges

def request (id : String) (r : CompileRequest) (l : Link) : Link :=
  match l.service with
  | .closed => { l with settled := l.settled.insert id (.error .workerClosed) }
  | _ => { l with
      inbox := l.inbox ++ [(Request.compile id r).text]
      pending := l.pending.insert id id }

def serve (l : Link) : Link :=
  match l.service, l.inbox with
  | .serving p, text :: rest =>
    match Incoming.ofText? text with
    | none => { l with inbox := rest }
    | some m =>
      let (exchanges, response) := answer p m
      { l with
        inbox := rest
        outbox := l.outbox ++ [response.text]
        exchanges := l.exchanges ++ exchanges }
  | _, _ => l

def deliver (l : Link) : Link :=
  match l.outbox with
  | [] => l
  | text :: rest =>
    match route text l.pending with
    | (pending, none) => { l with outbox := rest, pending := pending }
    | (pending, some (id, settlement)) =>
      { l with
        outbox := rest
        pending := pending
        settled := l.settled.insert id settlement }

def expire (id : String) (afterMs : Nat) (l : Link) : Link :=
  if l.pending.contains id then
    { l with
      pending := l.pending.erase id
      settled := l.settled.insert id (.error (.timeout id afterMs)) }
  else l

/-- The worker's end goes away, and what has not been taken with it. -/
def stop (l : Link) : Link := { l with service := .closed, inbox := [] }

def abandon (l : Link) : Link :=
  { l with
    pending := ∅
    settled := l.settled.overlay (l.pending.map fun _ => .error .workerClosed) }

def close (l : Link) : Link := l.stop.abandon

/-- What the caller's end does next: it routes the oldest response. Once the worker's end is gone
and nothing is left to route, it gives up whoever still waits. -/
def dispatch (l : Link) : Link :=
  match l.outbox, l.service with
  | [], .closed => l.abandon
  | _, _ => l.deliver

def settle (l : Link) : Link :=
  let served := l.inbox.foldl (fun l _ => l.serve) l
  served.outbox.foldl (fun l _ => l.deliver) served

/-- Makes calls that are all under way at once, and lets them settle or, if there is a limit of
time, expire. A call that still waits has no settlement. -/
def callAll (calls : List (String × CompileRequest)) (timeoutMs : Option Nat) (l : Link) :
    Link × List (Option Settlement) :=
  let l := (calls.foldl (fun l c => l.request c.1 c.2) l).settle
  let l := match timeoutMs with
    | some ms => calls.foldl (fun l c => l.expire c.1 ms) l
    | none => l
  (l, calls.map fun c => l.settled.find? c.1)

end Link
end DocCompiler.Worker
