import DocCompiler.Worker.Link

/-! The life of a worker channel. The worker's scope serves once it is registered, behind network
guards; the caller's end can be attached to once, and compiles go through it while it is
attached, else they are done in place. -/

namespace DocCompiler.Worker

open Compile (Pipeline Result compileDocument)
open Sandbox (Scope)

/-- The globals of a worker, and whether a worker serves in them. -/
structure WorkerScope where
  globals : Scope
  registered : Bool

namespace WorkerScope

def fresh : WorkerScope := ⟨.plain, false⟩

/-- Installs the guards and yields the pipeline that is to serve, whose own scope is replaced. -/
def register (s : WorkerScope) (p : Pipeline) : WorkerScope × Except Fault Pipeline :=
  if s.registered then (s, .error .alreadyRegistered)
  else
    let guarded := s.globals.installGuards
    (⟨guarded, true⟩, .ok { p with scope := guarded })

end WorkerScope

/-- The caller's end: nobody has attached to it, somebody has, or it is there no more. -/
inductive CallerEnd where
  | free
  | attached
  | gone
  deriving DecidableEq

structure Channel where
  /-- Nothing once the scope has been dropped. -/
  scope : Option WorkerScope
  caller : CallerEnd
  /-- Whether there is a worker that can be joined. -/
  joinable : Bool
  link : Link
  /-- How many calls have been made. -/
  calls : Nat

namespace Channel

def fresh : Channel := ⟨some .fresh, .free, false, .fresh, 0⟩

def setGlobals (globals : Scope) (c : Channel) : Option Channel :=
  c.scope.map fun s => { c with scope := some { s with globals := globals } }

/-- Registers a worker. It serves what it finds in its inbox, and goes away again when nobody can
send to it. -/
def register (p : Pipeline) (c : Channel) : Option (Except Fault Channel) :=
  c.scope.map fun s => do
    let (scope, registered) := s.register p
    let p ← registered
    let service := if c.caller = .gone then Service.closed else .serving p
    return { c with
      scope := some scope
      joinable := true
      link := { c.link with service := service }.settle }

/-- Drops the scope. Without a worker the far end of the channel goes with it. -/
def dropScope (c : Channel) : Option Channel :=
  c.scope.map fun s =>
    { c with
      scope := none
      link := if s.registered then c.link else c.link.close }

/-- Attaches to the caller's end, which is used up even if there is no runtime to attach in. -/
def attach (runtime : Bool) (c : Channel) : Option (Channel × Except Fault Unit) :=
  if c.caller ≠ .free then none
  else if runtime then some ({ c with caller := .attached }, .ok ())
  else some ({ c with caller := .gone, link := c.link.close }, .error .noRuntime)

def detach (c : Channel) : Option Channel :=
  if c.caller = .attached then some { c with caller := .gone, link := c.link.close } else none

def waiting (c : Channel) : Option Nat :=
  if c.caller = .attached then some c.link.pending.keys.length else none

def compileAll (requests : List CompileRequest) (timeoutMs : Option Nat) (c : Channel) :
    Channel × List (Option Settlement) :=
  if c.caller = .attached then
    let calls := requests.zipIdx c.calls |>.map fun (r, n) => (toString n, r)
    let (link, settled) := c.link.callAll calls timeoutMs
    ({ c with link := link, calls := c.calls + requests.length }, settled)
  else (c, requests.map fun r => some (.ok (compileDocument r)))

/-- Waits for the worker to end, which it does once the caller's end is gone. A worker can be joined
once. -/
def join (c : Channel) : Channel × Bool :=
  ({ c with joinable := false }, c.joinable && c.caller = .gone)

end Channel

/-- A caller with a worker of its own where there is a runtime for one. -/
def connect (runtime : Bool) : Channel :=
  let registered := ((Channel.fresh.register .default).bind (·.toOption)).getD .fresh
  ((registered.attach runtime).map (·.1)).getD registered

end DocCompiler.Worker
