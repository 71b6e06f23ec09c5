/-! The network as formatters may see it. A scope hands out network primitives; once its guards
are installed, every call fails and no host is reached. A script is the run of a formatter: it
can do nothing but call primitives, yield a text or fail. -/

namespace DocCompiler.Sandbox

inductive Primitive where
  | fetch
  | xmlHttpRequest
  | webSocket
  | sendBeacon
  deriving DecidableEq

namespace Primitive

def all : List Primitive := [.fetch, .xmlHttpRequest, .webSocket, .sendBeacon]

def name : Primitive → String
  | .fetch => "fetch"
  | .xmlHttpRequest => "XMLHttpRequest"
  | .webSocket => "WebSocket"
  | .sendBeacon => "navigator.sendBeacon"

def label : Primitive → String
  | .fetch => "Fetch"
  | .xmlHttpRequest => "XmlHttpRequest"
  | .webSocket => "WebSocket"
  | .sendBeacon => "SendBeacon"

end Primitive

inductive Fault where
  | disabled (p : Primitive)
  | unavailable (p : Primitive)
  deriving DecidableEq

namespace Fault

def name : Fault → String
  | .disabled _ => "NetworkDisabled"
  | .unavailable _ => "NetworkUnavailable"

def primitive : Fault → Primitive
  | .disabled p => p
  | .unavailable p => p

def message : Fault → String
  | .disabled p => "Network access is disabled in the compiler sandbox (" ++ p.name ++ ")"
  | .unavailable p => "No network implementation available for " ++ p.name

end Fault

structure Call where
  primitive : Primitive
  target : String
  deriving DecidableEq

abbrev Answer := Except Fault Unit

/-- A call that has been made, with what it came back with and whether it reached a host. -/
structure Exchange where
  call : Call
  answer : Answer
  atHost : Bool

/-- The calls that reached a host, of those that have been made. -/
def hostCalls (xs : List Exchange) : List Call := (xs.filter (·.atHost)).map (·.call)

theorem hostCalls_append (xs ys : List Exchange) :
    hostCalls (xs ++ ys) = hostCalls xs ++ hostCalls ys := by
  rw [hostCalls, List.filter_append, List.map_append]
  rfl

/-- The network behind a scope: none, the guard that refuses all, or a host. -/
inductive Network where
  | absent
  | guarded
  | host (respond : Call → Answer)

structure Scope where
  network : Network
  sandboxed : Bool

namespace Scope

def plain : Scope := ⟨.absent, false⟩

def onHost (respond : Call → Answer) : Scope := ⟨.host respond, false⟩

/-- Puts the guard in the place of the network. -/
def installGuards (_ : Scope) : Scope := ⟨.guarded, true⟩

def exchange (s : Scope) (c : Call) : Exchange :=
  match s.network with
  | .absent => ⟨c, .error (.unavailable c.primitive), false⟩
  | .guarded => ⟨c, .error (.disabled c.primitive), false⟩
  | .host respond => ⟨c, respond c, true⟩

def answer (s : Scope) (c : Call) : Answer := (s.exchange c).answer

def reached (s : Scope) (c : Call) : List Call := hostCalls [s.exchange c]

def describe (s : Scope) : String :=
  "ExecutionScope \x7b sandboxed: " ++ (if s.sandboxed then "true" else "false") ++ " \x7d"

end Scope

inductive Script where
  | done (text : String)
  | fail (message : String)
  | call (c : Call) (next : Answer → Script)

/-- What a run comes to: the calls that were made, in order, and a value or the message of a
failure. -/
structure Outcome (α : Type) where
  exchanges : List Exchange
  result : Except String α

def Outcome.calls {α : Type} (o : Outcome α) : List Call := hostCalls o.exchanges

def Outcome.map {α β : Type} (f : α → β) (o : Outcome α) : Outcome β :=
  ⟨o.exchanges, o.result.map f⟩

def Script.run (s : Scope) : Script → Outcome String
  | .done text => ⟨[], .ok text⟩
  | .fail message => ⟨[], .error message⟩
  | .call c next =>
    let x := s.exchange c
    let rest := (next x.answer).run s
    ⟨x :: rest.exchanges, rest.result⟩

/-- Runs scripts one after the other, up to the first that fails. -/
def Script.runAll (s : Scope) : List Script → Outcome (List String)
  | [] => ⟨[], .ok []⟩
  | script :: rest =>
    match script.run s with
    | ⟨exchanges, .error message⟩ => ⟨exchanges, .error message⟩
    | ⟨exchanges, .ok text⟩ =>
      let more := Script.runAll s rest
      ⟨exchanges ++ more.exchanges, more.result.map (text :: ·)⟩

end DocCompiler.Sandbox
