import DocCompiler.Worker.Link
import Mathlib.Data.List.Induction
import Mathlib.Data.List.Nodup

/-! The steps of a link. Calls start, the worker takes requests, the caller's end routes responses,
calls run out of time and the worker ends, in any order. Each step is told by what it takes from the
queues, which calls it settles, and how. -/

namespace DocCompiler.Worker

open Compile (Pipeline)

inductive Event where
  | call (id : String) (r : CompileRequest)
  | work
  | dispatch
  | expire (id : String) (afterMs : Nat)
  | stop

def Event.calls : Event → List (String × CompileRequest)
  | .call id r => [(id, r)]
  | _ => []

/-- What settles a call: a response of some text, the time that has passed, or that there is no
worker any more. -/
inductive Settling where
  | response (id text : String) (settlement : Settlement)
  | timeout (id : String) (afterMs : Nat)
  | closed (id : String)

namespace Settling

def id : Settling → String
  | .response id .. | .timeout id _ | .closed id => id

def settlement : Settling → Settlement
  | .response _ _ settlement => settlement
  | .timeout id afterMs => .error (.timeout id afterMs)
  | .closed _ => .error .workerClosed

def record (settled : SortedMap Settlement) (xs : List Settling) : SortedMap Settlement :=
  xs.foldl (fun m x => m.insert x.id x.settlement) settled

theorem record_append (settled : SortedMap Settlement) (xs ys : List Settling) :
    record settled (xs ++ ys) = record (record settled xs) ys := List.foldl_append

/-- Where no call is settled twice, each has the settlement of its one settling. -/
theorem find?_record {xs : List Settling} (hids : (xs.map id).Nodup) {id : String} {s : Settlement} :
    (record ∅ xs).find? id = some s ↔ ∃ x ∈ xs, x.id = id ∧ x.settlement = s := by
  induction xs using List.reverseRecOn with
  | nil =>
    have hempty : (record ∅ []).find? id = none := rfl
    simp [hempty]
  | append_singleton xs x ih =>
    rw [List.map_append, List.nodup_append] at hids
    obtain ⟨hids, -, hnew⟩ := hids
    have hlast : record ∅ (xs ++ [x]) = (record ∅ xs).insert x.id x.settlement :=
      record_append ∅ xs [x]
    rw [hlast, SortedMap.find?_insert]
    split
    case isTrue heq =>
      constructor
      · rintro ⟨⟩
        exact ⟨x, by simp, heq, rfl⟩
      · rintro ⟨y, hy, hid, hs⟩
        rcases List.mem_append.1 hy with hy | hy
        · exact absurd (hid.trans heq.symm) (hnew _ (List.mem_map_of_mem hy) _ (by simp))
        · rw [← List.mem_singleton.1 hy, hs]
    case isFalse hne =>
      rw [ih hids]
      constructor
      · rintro ⟨y, hy, hy'⟩
        exact ⟨y, List.mem_append_left _ hy, hy'⟩
      · rintro ⟨y, hy, hid, hs⟩
        rcases List.mem_append.1 hy with hy | hy
        · exact ⟨y, hy, hid, hs⟩
        · exact absurd (List.mem_singleton.1 hy ▸ hid) hne

end Settling

open Settling (record)

def routed (text : String) (pending : Pending String) : List Settling :=
  (route text pending).2.toList.map fun x => .response x.1 text x.2

theorem route_cases {α : Type} (text : String) (pending : Pending α) :
    route text pending = (pending, none) ∨
      ∃ id call s, settlement? text = some (id, s) ∧ pending.find? id = some call ∧
        route text pending = (pending.erase id, some (call, s)) := by
  cases hsettlement : settlement? text with
  | none => exact .inl (by simp only [route, hsettlement])
  | some x =>
    obtain ⟨id, s⟩ := x
    cases hcall : pending.find? id with
    | none => exact .inl (by simp only [route, hsettlement, hcall])
    | some call => exact .inr ⟨id, call, s, rfl, hcall, by simp only [route, hsettlement, hcall]⟩

namespace Link

def serving (p : Pipeline) : Link := { fresh with service := .serving p }

def after (l : Link) : Event → Link
  | .call id r => l.request id r
  | .work => l.serve
  | .dispatch => l.dispatch
  | .expire id afterMs => l.expire id afterMs
  | .stop => l.stop

def run (l : Link) (events : List Event) : Link := events.foldl after l

def settlings (l : Link) : Event → List Settling
  | .call id _ =>
    match l.service with
    | .closed => [.closed id]
    | _ => []
  | .dispatch =>
    match l.outbox, l.service with
    | [], .closed => l.pending.keys.map .closed
    | [], _ => []
    | text :: _, _ => routed text l.pending
  | .expire id afterMs => if l.pending.contains id then [.timeout id afterMs] else []
  | .work | .stop => []

/-- All settlings, in the order in which they came about. -/
def history : Link → List Event → List Settling
  | _, [] => []
  | l, e :: es => l.settlings e ++ (l.after e).history es

/-- What an event may come to: the settlings that it brings about, and the link that it leads to. -/
inductive Step (l : Link) : Event → List Settling → Link → Prop where
  | nothing {e : Event} (hcalls : e.calls = []) : Step l e [] l
  | called {id : String} {r : CompileRequest} (hopen : l.service ≠ .closed) :
    Step l (.call id r) [] { l with
      inbox := l.inbox ++ [(Request.compile id r).text]
      pending := l.pending.insert id id }
  | refused {id : String} {r : CompileRequest} (hclosed : l.service = .closed) :
    Step l (.call id r) [.closed id] { l with settled := record l.settled [.closed id] }
  | dropped {text : String} {rest : List String} (hinbox : l.inbox = text :: rest) :
    Step l .work [] { l with inbox := rest }
  | answered {p : Pipeline} {text : String} {rest : List String} {m : Incoming}
      (hserving : l.service = .serving p) (hinbox : l.inbox = text :: rest)
      (hread : Incoming.ofText? text = some m) :
    Step l .work [] { l with
      inbox := rest
      outbox := l.outbox ++ [(answer p m).2.text]
      exchanges := l.exchanges ++ (answer p m).1 }
  | abandoned (houtbox : l.outbox = []) (hclosed : l.service = .closed) :
    Step l .dispatch (l.pending.keys.map .closed) { l with
      pending := ∅
      settled := record l.settled (l.pending.keys.map .closed) }
  | unmatched {text : String} {rest : List String} (houtbox : l.outbox = text :: rest) :
    Step l .dispatch [] { l with outbox := rest }
  | matched {text id call : String} {rest : List String} {s : Settlement}
      (houtbox : l.outbox = text :: rest) (hsettlement : settlement? text = some (id, s))
      (hcall : l.pending.find? id = some call) :
    Step l .dispatch [.response call text s] { l with
      outbox := rest
      pending := l.pending.erase id
      settled := record l.settled [.response call text s] }
  | expired {id : String} {afterMs : Nat} (hwaiting : l.pending.contains id = true) :
    Step l (.expire id afterMs) [.timeout id afterMs] { l with
      pending := l.pending.erase id
      settled := record l.settled [.timeout id afterMs] }
  | stopped : Step l .stop [] l.stop

theorem step_call (l : Link) (id : String) (r : CompileRequest) :
    l.Step (.call id r) (l.settlings (.call id r)) (l.request id r) := by
  rw [request]
  split
  case h_1 hclosed =>
    have hsettlings : l.settlings (.call id r) = [.closed id] := by rw [settlings, hclosed]
    exact hsettlings ▸ .refused hclosed
  case h_2 hopen =>
    have hsettlings : l.settlings (.call id r) = [] := by
      rw [settlings]
      split
      case h_1 hclosed => exact absurd hclosed hopen
      case h_2 => rfl
    exact hsettlings ▸ .called hopen

theorem step_work (l : Link) : l.Step .work [] l.serve := by
  rw [serve]
  split
  case h_1 p text rest hserving hinbox =>
    split
    case h_1 => exact .dropped hinbox
    case h_2 m hread => exact .answered hserving hinbox hread
  case h_2 => exact .nothing rfl

theorem step_abandon {l : Link} (houtbox : l.outbox = []) (hclosed : l.service = .closed) :
    l.Step .dispatch (l.pending.keys.map .closed) l.abandon := by
  have hsettled : l.settled.overlay (l.pending.map fun _ => .error .workerClosed) =
      record l.settled (l.pending.keys.map .closed) := by
    rw [SortedMap.overlay, record, SortedMap.keys, SortedMap.map, List.foldl_map, List.foldl_map,
      List.foldl_map]
    rfl
  rw [abandon, hsettled]
  exact .abandoned houtbox hclosed

theorem step_deliver {l : Link} {text : String} {rest : List String}
    (houtbox : l.outbox = text :: rest) : l.Step .dispatch (routed text l.pending) l.deliver := by
  rw [deliver, houtbox, routed]
  dsimp only
  rcases route_cases text l.pending with hroute | ⟨id, call, s, hsettlement, hcall, hroute⟩
  · rw [hroute]
    exact .unmatched houtbox
  · rw [hroute]
    exact .matched houtbox hsettlement hcall

theorem step_dispatch (l : Link) : l.Step .dispatch (l.settlings .dispatch) l.dispatch := by
  rw [dispatch, settlings]
  cases houtbox : l.outbox with
  | cons text rest => exact step_deliver houtbox
  | nil =>
    -- only once the worker is gone does an empty queue mean that nothing will come any more
    have hidle : l.Step .dispatch [] l.deliver := by
      rw [deliver, houtbox]
      exact .nothing rfl
    cases hservice : l.service with
    | closed => exact step_abandon houtbox hservice
    | waiting => exact hidle
    | serving p => exact hidle

theorem step_expire (l : Link) (id : String) (afterMs : Nat) :
    l.Step (.expire id afterMs) (l.settlings (.expire id afterMs)) (l.expire id afterMs) := by
  rw [expire, settlings]
  split
  case isTrue hwaiting => exact .expired hwaiting
  case isFalse => exact .nothing rfl

theorem step_after (l : Link) (e : Event) : l.Step e (l.settlings e) (l.after e) := by
  cases e with
  | call id r => exact step_call l id r
  | work => exact step_work l
  | dispatch => exact step_dispatch l
  | expire id afterMs => exact step_expire l id afterMs
  | stop => exact .stopped

theorem Step.settled {l l' : Link} {e : Event} {xs : List Settling} (h : l.Step e xs l') :
    l'.settled = record l.settled xs := by
  cases h <;> rfl

theorem settled_run (l : Link) (events : List Event) :
    (l.run events).settled = record l.settled (l.history events) := by
  induction events generalizing l with
  | nil => rfl
  | cons e events ih =>
    rw [run, List.foldl_cons, ← run, ih, (l.step_after e).settled, history, Settling.record_append]

end Link

end DocCompiler.Worker
