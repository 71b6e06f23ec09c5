import DocCompiler.Proofs.Json.Leftover
import DocCompiler.Proofs.Worker.Exchange

/-! The ids of messages. A message that can be read is read under the id that it was written with,
whatever else it holds; so a response has the id of the call that it answers, and settles that call
or none. -/

namespace DocCompiler.Worker

open Compile (Pipeline)
open Wire (Fields Origin Variant)

variable {v : Json} {type id : String} {r : CompileRequest} {response : Response}

/-- A message that can be read states the type and the id that it was written with. -/
theorem header?_of_parse {entries : List (String × Json)} (hkeys : (entries.map (·.1)).Nodup)
    (hparse : Json.parse (Json.obj entries).text = .ok v)
    (htype : binding? typeKey entries = some (.str type))
    (hid : binding? "id" entries = some (.str id)) : header? v = some (type, id) := by
  rw [header?, Json.field?_of_parse hkeys hparse htype, Json.field?_of_parse hkeys hparse hid]
  rfl

theorem header?_request (hparse : Json.parse (Request.compile id r).text = .ok v) :
    header? v = some ("compile", id) := by
  have hencode : (Request.compile id r).encode =
      .obj ((typeKey, .str "compile") :: requestFields.write (id, r)) := rfl
  rw [Request.text, Json.canonicalText, hencode, Json.canonical_obj] at hparse
  refine header?_of_parse (SortedMap.nodup_keys _) hparse ?_ ?_
  · rw [Json.binding?_sortedEntries]
    rfl
  · rw [Json.binding?_sortedEntries]
    rfl

theorem header?_response (hparse : Json.parse response.text = .ok v) :
    ∃ type, header? v = some (type, response.id) := by
  cases response with
  | completed id result =>
    have hkeys : (((typeKey, Json.str "result") :: completedFields.write (id, result)).map
        (·.1)).Nodup := (by decide : [typeKey, "id", "result"].Nodup)
    exact ⟨"result", header?_of_parse hkeys hparse rfl rfl⟩
  | failed id message =>
    have hkeys : (((typeKey, Json.str "error") :: failedFields.write (id, message)).map
        (·.1)).Nodup := (by decide : [typeKey, "id", "error"].Nodup)
    exact ⟨"error", header?_of_parse hkeys hparse rfl rfl⟩

theorem fields_of_header? (h : header? v = some (type, id)) :
    v.field? typeKey = some (.str type) ∧ v.field? "id" = some (.str id) := by
  have hstring {w : Option Json} {s : String} (hw : w.bind Json.str? = some s) :
      w = some (.str s) := by
    obtain ⟨w, rfl, hstr⟩ := Option.bind_eq_some_iff.1 hw
    cases w <;> cases hstr
    rfl
  obtain ⟨type', htype, hrest⟩ := Option.bind_eq_some_iff.1 h
  obtain ⟨id', hid, heq⟩ := Option.bind_eq_some_iff.1 hrest
  cases heq
  exact ⟨hstring htype, hstring hid⟩

theorem exists_make_of_decode {σ β γ : Type} {make : String → γ → β} {get : σ → String}
    {rest : Fields σ γ} {b : β} {origin : Origin} {entries : List (String × Json)} {index : Nat}
    (hid : binding? "id" entries = some (.str id))
    (h : ((make <$> .required "id" .string get <*> rest).decode origin (.named entries)
      index).toOption = some b) : ∃ c, b = make id c := by
  have hmake : ((make <$> Fields.required "id" Wire.Codec.string get).decode origin
      (.named entries) index).toOption = some (make id) := by
    have hget (i : Nat) : (Wire.Supply.named entries).get? i "id" = some (.str id) := hid
    have hmap : (make <$> Fields.required "id" Wire.Codec.string get) =
        pure make <*> .required "id" .string get := rfl
    rw [hmap, Fields.toOption_seq]
    simp only [Fields.required, Fields.field, hget]
    rfl
  rw [Fields.toOption_seq, hmake] at h
  obtain ⟨c, -, heq⟩ := Option.map_eq_some_iff.1 h
  exact ⟨c, heq.symm⟩

theorem toOption_decodeTagged_of_tag {σ β : Type} {name label variant : String}
    {source? : β → Option σ} {fields : Fields σ β} {variants : List (Variant β)}
    {entries : List (String × Json)} (htag : binding? typeKey entries = some (.str variant))
    (hnamed : Variant.named variants variant =
      .ok (Variant.of name label variant source? fields)) :
    (Wire.Codec.decodeTagged name typeKey variants (.obj entries)).toOption =
      (fields.decode .buffered (.named entries) 0).toOption := by
  rw [binding?] at htag
  simp only [Wire.Codec.decodeTagged, Variant.ofEntries, htag, hnamed]
  exact Fields.toOption_run fields _ .buffered (.named entries)

theorem id_of_incoming (h : header? v = some ("compile", id)) : (Incoming.of v id).id = id := by
  obtain ⟨htype, hid⟩ := fields_of_header? h
  rw [Incoming.of]
  cases hdecode : Request.decode v with
  | error m => rfl
  | ok m =>
    obtain ⟨id', r⟩ := m
    cases v with
    | null | bool | num | str | arr => cases hid
    | obj entries =>
      have hvariant : (Request.decode (.obj entries)).toOption =
          (requestFields.decode .buffered (.named entries) 0).toOption :=
        toOption_decodeTagged_of_tag htype rfl
      rw [hdecode] at hvariant
      obtain ⟨r', heq⟩ := exists_make_of_decode hid hvariant.symm
      exact (Request.compile.inj heq).1

theorem id_of_respond? {p : Pipeline}
    (h : respond? p (Request.compile id r).text = some response) : response.id = id := by
  obtain ⟨m, hread, rfl⟩ := Option.map_eq_some_iff.1 h
  have hid : m.id = id := by
    rw [Incoming.ofText?] at hread
    split at hread
    case h_1 => cases hread
    case h_2 v hparse =>
      rw [header?_request hparse] at hread
      cases hread
      exact id_of_incoming (header?_request hparse)
  rw [← hid, answer]
  split
  case h_1 => rfl
  case h_2 => split <;> rfl

theorem id_of_settlement? {settlement : Settlement}
    (h : settlement? response.text = some (id, settlement)) : id = response.id := by
  rw [settlement?] at h
  split at h
  case h_1 => cases h
  case h_2 v hparse =>
    obtain ⟨type, hheader⟩ := header?_response hparse
    rw [hheader] at h
    split at h
    case h_3 => cases h
    all_goals
      rename_i heq
      cases heq
      cases h
      rfl

end DocCompiler.Worker
