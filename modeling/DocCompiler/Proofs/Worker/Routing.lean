import DocCompiler.Proofs.Worker.Header
import DocCompiler.Proofs.Worker.Steps

/-! Texts of any kind that come from a worker. A text is passed over unless it is a response to a
call that waits; then it settles this call, and no other. So over any sequence of texts no call is
settled twice, and none by the response to another. -/

namespace DocCompiler.Worker

open Wire (Fields Variant)

variable {α : Type} {pending : Pending α} {text id : String} {message : Json} {s : Settlement}

/-- A text is a response to the call of an id: JSON, of one of the two types, with this id. -/
structure Addresses (text id : String) (message : Json) : Prop where
  parsed : Json.parse text = .ok message
  typed : message.field? "type" = some (.str "result") ∨ message.field? "type" = some (.str "error")
  called : message.field? "id" = some (.str id)

/-- The ways in which a text is nobody's response. -/
inductive Ignored (pending : Pending α) (text : String) : Prop where
  | unreadable {fault : Json.Fault} (hparse : Json.parse text = .error fault)
  | otherType {message : Json} (hparse : Json.parse text = .ok message)
      (hresult : message.field? "type" ≠ some (.str "result"))
      (herror : message.field? "type" ≠ some (.str "error"))
  | anonymous {message : Json} (hparse : Json.parse text = .ok message)
      (hid : ∀ id, message.field? "id" ≠ some (.str id))
  | unknown {message : Json} {id : String} (hparse : Json.parse text = .ok message)
      (hid : message.field? "id" = some (.str id)) (habsent : pending.find? id = none)

/-- What a call is settled with, by what its response decodes to under the same id. -/
structure Judges (message : Json) (id : String) (s : Settlement) : Prop where
  result : ∀ r, s = .ok r ↔ Response.decode message = .ok (.completed id r)
  failure : ∀ m, s = .error (.worker m) ↔ Response.decode message = .ok (.failed id m)
  malformed : ∀ m, s = .error (.malformedMessage m) ↔
    ∃ e, Response.decode message = .error e ∧ e.message = m

theorem Addresses.unique {id' : String} {message' : Json} (h : Addresses text id message)
    (h' : Addresses text id' message') : id' = id ∧ message' = message := by
  obtain rfl : message = message' := Except.ok.inj (h.parsed.symm.trans h'.parsed)
  exact ⟨Json.str.inj (Option.some.inj (h'.called.symm.trans h.called)), rfl⟩

theorem Addresses.not_ignored {call : α} (h : Addresses text id message)
    (hwaiting : pending.find? id = some call) : ¬ Ignored pending text := by
  intro hignored
  cases hignored with
  | unreadable hparse => cases h.parsed.symm.trans hparse
  | otherType hparse hresult herror =>
    obtain rfl := Except.ok.inj (h.parsed.symm.trans hparse)
    exact h.typed.elim hresult herror
  | anonymous hparse hid =>
    obtain rfl := Except.ok.inj (h.parsed.symm.trans hparse)
    exact hid id h.called
  | unknown hparse hid habsent =>
    obtain rfl := Except.ok.inj (h.parsed.symm.trans hparse)
    obtain rfl := Json.str.inj (Option.some.inj (h.called.symm.trans hid))
    cases hwaiting.symm.trans habsent

theorem exists_addresses_of_not_ignored (h : ¬ Ignored pending text) :
    ∃ id message call, Addresses text id message ∧ pending.find? id = some call := by
  cases hparse : Json.parse text with
  | error fault => exact absurd (.unreadable hparse) h
  | ok message =>
    by_cases htyped : message.field? "type" = some (.str "result") ∨
        message.field? "type" = some (.str "error")
    case neg =>
      rw [not_or] at htyped
      exact absurd (.otherType hparse htyped.1 htyped.2) h
    case pos =>
      by_cases hid : ∃ id, message.field? "id" = some (.str id)
      case neg => exact absurd (.anonymous hparse fun id heq => hid ⟨id, heq⟩) h
      case pos =>
        obtain ⟨id, hid⟩ := hid
        cases hcall : pending.find? id with
        | none => exact absurd (.unknown hparse hid hcall) h
        | some call => exact ⟨id, message, call, ⟨hparse, htyped, hid⟩, hcall⟩

theorem settlement?_eq_some_iff :
    settlement? text = some (id, s) ↔ ∃ message, Addresses text id message ∧ s = .of message := by
  constructor
  · intro h
    rw [settlement?] at h
    split at h
    case h_1 => cases h
    case h_2 message hparse =>
      split at h
      case h_3 => cases h
      case h_1 hheader =>
        cases h
        obtain ⟨htype, hid⟩ := fields_of_header? hheader
        exact ⟨message, ⟨hparse, .inl htype, hid⟩, rfl⟩
      case h_2 hheader =>
        cases h
        obtain ⟨htype, hid⟩ := fields_of_header? hheader
        exact ⟨message, ⟨hparse, .inr htype, hid⟩, rfl⟩
  · rintro ⟨message, ⟨hparse, htyped, hid⟩, rfl⟩
    have hheader {type : String} (htype : message.field? "type" = some (.str type)) :
        header? message = some (type, id) := by
      rw [header?, typeKey, htype, hid]
      rfl
    rw [settlement?, hparse]
    rcases htyped with htype | htype <;> simp only [hheader htype]

/-- A response that decodes has the id that routing goes by, though the two read it apart. -/
theorem Addresses.id_of_decode {r : Response} (h : Addresses text id message)
    (hdecode : Response.decode message = .ok r) : r.id = id := by
  cases message with
  | null | bool | num | str | arr => cases h.called
  | obj entries =>
    have hid : binding? "id" entries = some (.str id) := h.called
    have hread : (Response.decode (.obj entries)).toOption = some r := by rw [hdecode]; rfl
    rcases h.typed with htype | htype
    · have hvariant : (Response.decode (.obj entries)).toOption =
          (completedFields.decode .buffered (.named entries) 0).toOption :=
        toOption_decodeTagged_of_tag htype rfl
      rw [hvariant] at hread
      obtain ⟨result, rfl⟩ := exists_make_of_decode hid hread
      rfl
    · have hvariant : (Response.decode (.obj entries)).toOption =
          (failedFields.decode .buffered (.named entries) 0).toOption :=
        toOption_decodeTagged_of_tag htype rfl
      rw [hvariant] at hread
      obtain ⟨m, rfl⟩ := exists_make_of_decode hid hread
      rfl

theorem Addresses.judges (h : Addresses text id message) : Judges message id (.of message) := by
  cases hdecode : Response.decode message with
  | error e =>
    have hof : Settlement.of message = .error (.malformedMessage e.message) := by
      rw [Settlement.of, hdecode]
    rw [hof]
    exact ⟨by simp [hdecode], by simp [hdecode], by simp [hdecode]⟩
  | ok r =>
    obtain rfl := h.id_of_decode hdecode
    have hof : Settlement.of message = r.settlement := by
      rw [Settlement.of, hdecode]
      cases r <;> rfl
    rw [hof]
    cases r <;>
      exact ⟨by simp [hdecode, Response.id, Response.settlement],
        by simp [hdecode, Response.id, Response.settlement], by simp [hdecode, Response.settlement]⟩

theorem route_eq_of_ignored (h : Ignored pending text) : route text pending = (pending, none) := by
  rcases route_cases text pending with hroute | ⟨id, call, s, hsettlement, hcall, -⟩
  · exact hroute
  · obtain ⟨message, haddresses, -⟩ := settlement?_eq_some_iff.1 hsettlement
    exact absurd h (haddresses.not_ignored hcall)

theorem Addresses.route_eq {call : α} (h : Addresses text id message)
    (hwaiting : pending.find? id = some call) :
    route text pending = (pending.erase id, some (call, .of message)) := by
  have hsettlement : settlement? text = some (id, .of message) :=
    settlement?_eq_some_iff.2 ⟨message, h, rfl⟩
  simp only [route, hsettlement, hwaiting]

/-- A call that has been settled: the text that did it, the message it holds, the id of the call,
who made the call and what they are told. -/
structure Delivery (α : Type) where
  text : String
  message : Json
  id : String
  call : α
  settlement : Settlement

namespace Delivery

def entry (d : Delivery α) : String × α := (d.id, d.call)

def settled (d : Delivery α) : α × Settlement := (d.call, d.settlement)

/-- The text is a response to the call, and says what its caller is told. -/
structure Fair (d : Delivery α) : Prop where
  addresses : Addresses d.text d.id d.message
  judges : Judges d.message d.id d.settlement

end Delivery

def routeAll : Pending α → List String → Pending α × List (α × Settlement)
  | pending, [] => (pending, [])
  | pending, text :: texts =>
    let (waiting, settled) := route text pending
    let (rest, later) := routeAll waiting texts
    (rest, settled.toList ++ later)

/-- Whom a sequence of texts settles, and who is left. -/
structure Deliveries (pending : Pending α) (texts : List String) (rest : Pending α)
    (ds : List (Delivery α)) : Prop where
  /-- Every call is settled or is left, and none is both or is settled twice. -/
  once : (ds.map Delivery.entry ++ rest.entries).Perm pending.entries
  /-- Every text settles at most one call, and they do so in their order. -/
  inOrder : (ds.map Delivery.text).Sublist texts
  /-- What settles a call is a response to it. -/
  fair : ∀ d ∈ ds, d.Fair
  /-- Those calls are left that no text was a response to. -/
  left : ∀ id call, rest.find? id = some call ↔ pending.find? id = some call ∧
    ∀ text ∈ texts, ∀ message, ¬ Addresses text id message

namespace Deliveries

variable {texts : List String} {rest : Pending α} {ds : List (Delivery α)}

theorem nil (pending : Pending α) : Deliveries pending [] pending [] where
  once := .refl _
  inOrder := .slnil
  fair := nofun
  left _ _ := by simp

theorem skip (h : Deliveries pending texts rest ds) (hignored : Ignored pending text) :
    Deliveries pending (text :: texts) rest ds where
  once := h.once
  inOrder := h.inOrder.cons _
  fair := h.fair
  left id call := by
    rw [h.left, List.forall_mem_cons]
    refine and_congr_right fun hwaiting => (and_iff_right fun message haddresses => ?_).symm
    exact haddresses.not_ignored hwaiting hignored

theorem deliver {call : α} (haddresses : Addresses text id message)
    (hwaiting : pending.find? id = some call) (h : Deliveries (pending.erase id) texts rest ds) :
    Deliveries pending (text :: texts) rest (⟨text, message, id, call, .of message⟩ :: ds) where
  once := (h.once.cons (id, call)).trans (SortedMap.perm_cons_erase hwaiting)
  inOrder := h.inOrder.cons_cons _
  fair := List.forall_mem_cons.2 ⟨⟨haddresses, haddresses.judges⟩, h.fair⟩
  left id' call' := by
    rw [h.left, SortedMap.find?_erase, List.forall_mem_cons]
    split
    case isTrue hne =>
      refine and_congr_right fun _ => (and_iff_right fun message' haddresses' => ?_).symm
      exact bne_iff_ne.1 hne (haddresses.unique haddresses').1
    case isFalse heq =>
      obtain rfl : id' = id := by simpa using heq
      exact iff_of_false (fun h => nomatch h.1) fun h => h.2.1 message haddresses

theorem waiting (h : Deliveries pending texts rest ds) {d : Delivery α} (hd : d ∈ ds) :
    pending.find? d.id = some d.call := by
  have hentry : d.entry ∈ pending.entries :=
    h.once.mem_iff.1 (List.mem_append_left _ (List.mem_map_of_mem hd))
  exact SortedMap.mem_entries.1 hentry

theorem nodup_ids (h : Deliveries pending texts rest ds) : (ds.map Delivery.id).Nodup := by
  have hkeys := (h.once.map (·.1)).nodup_iff.2 pending.nodup_keys
  rw [List.map_append, List.map_map] at hkeys
  exact (List.nodup_append.1 hkeys).1

end Deliveries

theorem exists_deliveries (pending : Pending α) (texts : List String) :
    ∃ ds, (routeAll pending texts).2 = ds.map Delivery.settled ∧
      Deliveries pending texts (routeAll pending texts).1 ds := by
  induction texts generalizing pending with
  | nil => exact ⟨[], rfl, .nil pending⟩
  | cons text texts ih =>
    by_cases hignored : Ignored pending text
    case pos =>
      obtain ⟨ds, hsettled, h⟩ := ih pending
      simp only [routeAll, route_eq_of_ignored hignored]
      exact ⟨ds, hsettled, h.skip hignored⟩
    case neg =>
      obtain ⟨id, message, call, haddresses, hwaiting⟩ := exists_addresses_of_not_ignored hignored
      obtain ⟨ds, hsettled, h⟩ := ih (pending.erase id)
      simp only [routeAll, haddresses.route_eq hwaiting]
      refine ⟨_, ?_, h.deliver haddresses hwaiting⟩
      rw [hsettled]
      rfl

/-- **Routing withstands any texts.** A text that is nobody's response leaves all calls as they
are. Any other settles the call of its id, once and by what it decodes to, and leaves all others.
So over a sequence of texts nobody is settled twice, and everybody by a response to their own
call. -/
theorem routeAll_settles_addressed (pending : Pending α) (texts : List String) :
    (∀ (waiting : Pending α) (text : String),
      (Ignored waiting text → route text waiting = (waiting, none)) ∧
      (¬ Ignored waiting text → ∃ id message call s rest, Addresses text id message ∧
        waiting.find? id = some call ∧ Judges message id s ∧
        route text waiting = (rest, some (call, s)) ∧
        ∀ key, rest.find? key = if key = id then none else waiting.find? key)) ∧
    ∃ ds : List (Delivery α), (routeAll pending texts).2 = ds.map Delivery.settled ∧
      Deliveries pending texts (routeAll pending texts).1 ds ∧ (ds.map Delivery.id).Nodup ∧
      ∀ d ∈ ds, pending.find? d.id = some d.call := by
  refine ⟨fun waiting text => ⟨route_eq_of_ignored, fun h => ?_⟩, ?_⟩
  · obtain ⟨id, message, call, haddresses, hwaiting⟩ := exists_addresses_of_not_ignored h
    refine ⟨id, message, call, _, _, haddresses, hwaiting, haddresses.judges,
      haddresses.route_eq hwaiting, fun key => ?_⟩
    rw [SortedMap.find?_erase]
    by_cases hkey : key = id <;> simp [hkey]
  · obtain ⟨ds, hsettled, h⟩ := exists_deliveries pending texts
    exact ⟨ds, hsettled, h, h.nodup_ids, fun d hd => h.waiting hd⟩

/-- A text that is no JSON, a failure for a call that nobody made, one for a call, its copy, and a
result that holds none: two callers learn what went wrong. -/
example :
    (routeAll (.ofList [("a", 1), ("b", 2), ("c", 3)]) ["\x7b",
      "\x7b\"type\":\"error\",\"id\":\"d\",\"error\":\x7b\"message\":\"boom\"\x7d\x7d",
      "\x7b\"type\":\"error\",\"id\":\"a\",\"error\":\x7b\"message\":\"boom\"\x7d\x7d",
      "\x7b\"type\":\"error\",\"id\":\"a\",\"error\":\x7b\"message\":\"boom\"\x7d\x7d",
      "\x7b\"type\":\"result\",\"id\":\"b\"\x7d"]).2.map
        (fun x => (x.1, match x.2 with | .ok _ => "" | .error fault => fault.message)) =
      [(1, "Compiler worker failed: boom"),
        (2, "Malformed worker message: missing field `result`")] := by
  decide +kernel

namespace Link

def recorded (settled : SortedMap Settlement) (xs : List (String × Settlement)) :
    SortedMap Settlement :=
  xs.foldl (fun m x => m.insert x.1 x.2) settled

theorem dispatch_cons {l : Link} {texts : List String} (houtbox : l.outbox = text :: texts) :
    l.dispatch = { l with
      outbox := texts
      pending := (route text l.pending).1
      settled := recorded l.settled (route text l.pending).2.toList } := by
  have hdeliver : l.dispatch = l.deliver := by rw [dispatch, houtbox]
  rw [hdeliver, deliver, houtbox]
  dsimp only
  rcases hroute : route text l.pending with ⟨pending, _ | settled⟩ <;> rfl

/-- The caller's end of a link routes the texts of its queue. -/
theorem run_dispatch (l : Link) {texts later : List String} (houtbox : l.outbox = texts ++ later) :
    l.run (.replicate texts.length .dispatch) = { l with
      outbox := later
      pending := (routeAll l.pending texts).1
      settled := recorded l.settled (routeAll l.pending texts).2 } := by
  induction texts generalizing l with
  | nil =>
    obtain rfl : l.outbox = later := houtbox
    rfl
  | cons text texts ih =>
    have hstep := dispatch_cons houtbox
    rw [List.length_cons, List.replicate_succ, run, List.foldl_cons, ← run, after, hstep, ih _ rfl]
    simp only [routeAll, recorded, List.foldl_append]

end Link
end DocCompiler.Worker
