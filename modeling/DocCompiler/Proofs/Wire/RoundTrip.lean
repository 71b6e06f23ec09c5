import DocCompiler.Proofs.Compile.ExportGate
import DocCompiler.Proofs.Compile.Reported
import DocCompiler.Proofs.Wire.Decoded
import DocCompiler.Proofs.Wire.OpenObjects

/-! The wire format loses nothing: a request that has been decoded, and a result, come back as they
are from the JSON that is written for them. -/

namespace DocCompiler

def Block.PlainOptions (b : Block) : Prop :=
  ∀ m, b.metadata = some m → ∀ slot ∈ Wire.metadataFields.slots, m.options.find? slot.name = none

namespace Wire

open Codec

theorem Codec.Reads.of_all {α : Type} {c : Codec α} {Proper : α → Prop} (h : c.Reads Proper)
    (hall : ∀ a, Proper a) : c.Reads fun _ => True :=
  h.imp fun a _ => hall a

theorem Codec.Carries.decode_eq {α : Type} {c : Codec α} {depth : Nat} {a b : α}
    (h : c.Carries depth a (some b)) (origin : Origin) :
    c.decode origin (c.encode a).canonical = .ok b := by
  have hcarried := h.decode origin
  cases hdecode : c.decode origin (c.encode a).canonical with
  | ok b' => rw [hdecode] at hcarried; rw [Option.some.inj hcarried]
  | error m => rw [hdecode] at hcarried; cases hcarried

section Library

theorem reads_strings : (Codec.list .string).Reads fun _ => True :=
  (reads_list reads_string).of_all fun _ _ _ => trivial

theorem reads_object : (Codec.map .any).Reads fun _ => True :=
  (reads_map reads_any).of_all fun _ _ _ => trivial

theorem reads_snippet : snippet.Reads fun _ => True :=
  (reads_struct (((((((Fields.Reads.map _ (.field reads_string)).seq (.field reads_string)).seq
    (.optional reads_string)).seq (.field reads_uint32)).seq (.field reads_string)).seq
    (.field reads_object)).seq (.optional reads_timestamp)) (by decide)).of_all (by simp)

theorem reads_snippetVersion : snippetVersion.Reads fun _ => True :=
  (reads_struct ((((((Fields.Reads.map _ (.field reads_uint32)).seq (.optional reads_uint32)).seq
    (.field reads_string)).seq (.field reads_object)).seq (.field reads_string)).seq
    (.optional reads_timestamp)) (by decide)).of_all (by simp)

theorem reads_snippetBundle : snippetBundle.Reads fun _ => True :=
  (reads_struct ((Fields.Reads.map _ (.field reads_snippet)).seq
    (.field (reads_list reads_snippetVersion))) (by decide)).of_all (by simp)

end Library

section Document

theorem reads_edge : edge.Reads fun _ => True :=
  (reads_struct (((((((Fields.Reads.map _ (.field reads_string)).seq (.field reads_string)).seq
    (.field reads_string)).seq (.field (reads_choice fun k => by cases k <;> rfl))).seq
    (.optional reads_string)).seq (.optional reads_string)).seq (.optional reads_string))
    (by decide)).of_all (by simp)

theorem reads_value : variableValue.Reads fun _ => True where
  gives rounds depth := by
    refine (Json.Reader.gives_value false rounds (depth + 1)).bind fun v hv => .after fun _ => ?_
    exact .pure hv
  takes rounds depth v _ hread hrounds := by
    have hencode : variableValue.encode v = encodeValue v := rfl
    rw [hencode] at hread hrounds ⊢
    obtain ⟨hopens, htakes⟩ := hread.takes false hrounds
    refine ⟨hopens, fun rest hrest => ?_⟩
    have hdecode : decodeValue (encodeValue v).canonical = .ok v := by cases v <;> rfl
    show (Json.Reader.value false rounds depth >>= fun w => require (decodeValue w) >>= fun _ =>
      pure w) ((encodeValue v).chars ++ rest) = .ok ((encodeValue v).canonical, rest)
    rw [Json.Reader.bind_ok (htakes rest hrest)]
    exact Json.Reader.bind_ok (require_ok hdecode rest)

theorem reads_variableDefinition : variableDefinition.Reads fun _ => True :=
  (reads_struct ((((((Fields.Reads.map _ (.field reads_string)).seq (.field reads_string)).seq
    (.field (reads_choice fun t => by cases t <;> rfl))).seq (.optional reads_bool)).seq
    (.optional reads_value)).seq (.optional reads_strings)) (by decide)).of_all (by simp)

theorem reads_blockMetadata : blockMetadata.Reads fun m =>
    ∀ slot ∈ metadataFields.slots, m.options.find? slot.name = none :=
  have hown : metadataFields.Reads _ :=
    (Fields.Reads.map _ (.optional reads_string)).seq (.optional reads_string)
  (reads_withRest hown (by decide)).imp fun m hm => ⟨by simp, hm⟩

theorem accepted_blockContent (content : BlockContent) {slots : List Slot}
    (hslots : slots.map (·.name) = ["id", "sequence", "metadata"]) :
    Variant.Accepted "kind" blockVariants slots content := by
  have hothers {names : List String}
      (h : ∀ n ∈ ["id", "sequence", "metadata"], n ∉ names) : ∀ slot ∈ slots, slot.name ∉ names :=
    fun slot hslot => h slot.name (hslots ▸ List.mem_map_of_mem hslot)
  have hstring (s : String) : Codec.string.decode .buffered (Codec.string.encode s) = .ok s := rfl
  cases content with
  | markdown body =>
    exact Variant.accepted_of (s := body) (Fields.Reads.map _ (.field reads_string)) rfl rfl
      (by decide) (hothers (by decide)) (.map _ (.field (hstring body)))
  | snippet snippetId revision mode =>
    have hcarried (n : UInt32) : uint32.Carries 1 n (some n) := carries_uint32 n
    have hrevision (n : UInt32) : uint32.decode .buffered (uint32.encode n) = .ok n :=
      (hcarried n).decode_eq .buffered
    refine Variant.accepted_of (s := (snippetId, revision, mode))
      (((Fields.Reads.map _ (.field reads_string)).seq (.optional reads_uint32)).seq
        (.field (reads_choice fun m => by cases m <;> rfl))) rfl rfl (by decide)
      (hothers (by decide)) (((Fields.Checked.map _ (.field (hstring snippetId))).seq
        (.optional fun n _ => ⟨some n, ?_⟩)).seq (.field (b := mode) (by cases mode <;> rfl)))
    exact congrArg (Except.map some) (hrevision n)
  | group children collapsed =>
    have hchildren : (Codec.list .string).decode .buffered ((Codec.list .string).encode children) =
        .ok children := by
      have hplain : ((Codec.list .string).encode children).canonical =
          (Codec.list .string).encode children :=
        Json.canonical_arr fun v hv => by
          obtain ⟨s, -, rfl⟩ := List.mem_map.1 hv
          rfl
      have hcarried : (Codec.list .string).Carries 2 children (some children) :=
        carries_strings children
      rw [← hplain]
      exact hcarried.decode_eq .buffered
    exact Variant.accepted_of (s := (children, collapsed))
      ((Fields.Reads.map _ (.field reads_strings)).seq (.optional reads_bool)) rfl rfl (by decide)
      (hothers (by decide)) ((Fields.Checked.map _ (.field hchildren)).seq
        (.optional fun b _ => ⟨some b, rfl⟩))
  | comment body resolved =>
    exact Variant.accepted_of (s := (body, resolved))
      ((Fields.Reads.map _ (.field reads_string)).seq (.optional reads_bool)) rfl rfl (by decide)
      (hothers (by decide)) ((Fields.Checked.map _ (.field (hstring body))).seq
        (.optional fun b _ => ⟨some b, rfl⟩))
  | divider style =>
    exact Variant.accepted_of (s := style)
      (Fields.Reads.map _ (.field (reads_choice fun s => by cases s <;> rfl))) rfl rfl (by decide)
      (hothers (by decide)) (.map _ (.field (b := style) (by cases style <;> rfl)))

theorem reads_block : block.Reads Block.PlainOptions :=
  (reads_withVariant (((Fields.Reads.map _ (.field reads_string)).seq (.field reads_int64)).seq
    (.optional reads_blockMetadata)) (by decide) fun content => accepted_blockContent content rfl).imp
    fun _ hb => ⟨by simp, hb⟩

theorem reads_document : document.Reads fun d => ∀ b ∈ d.blocks, b.PlainOptions :=
  (reads_struct ((((((((((((Fields.Reads.map _ (.field reads_string)).seq (.field reads_uint32)).seq
    (.field reads_string)).seq (.field (reads_list reads_block))).seq
    (.field (reads_list reads_edge))).seq (.field (reads_list reads_variableDefinition))).seq
    (.field (reads_list reads_any))).seq (.field reads_strings)).seq (.field reads_string)).seq
    (.field reads_object)).seq (.optional reads_timestamp)).seq (.optional reads_timestamp))
    (by decide)).imp fun d hd => by simpa using hd

theorem reads_compileRequest :
    compileRequest.Reads fun r => ∀ b ∈ r.document.blocks, b.PlainOptions :=
  (reads_struct ((((Fields.Reads.map _ (.field reads_document)).seq
    (.field (reads_list reads_snippetBundle))).seq (.field (reads_map reads_value))).seq
    (.optional reads_strings)) (by decide)).imp fun r hr => by simpa using hr

end Document

section Result

theorem reads_severity : severity.Reads fun _ => True := reads_choice fun s => by cases s <;> rfl

theorem reads_diagnostic : diagnostic.Reads fun _ => True :=
  (reads_struct ((((Fields.Reads.map _ (.field reads_string)).seq (.field reads_string)).seq
    (.field reads_severity)).seq (.optional reads_any)) (by decide)).of_all (by simp)

theorem reads_issue : issue.Reads fun _ => True :=
  (reads_struct ((((Fields.Reads.map _ (.field reads_string)).seq (.field reads_string)).seq
    (.field reads_severity)).seq (.optional reads_any)) (by decide)).of_all (by simp)

theorem reads_summary : summary.Reads fun _ => True :=
  (reads_struct ((Fields.Reads.map _ (.field reads_uint64)).seq (.field reads_uint64))
    (by decide)).of_all (by simp)

theorem reads_report : report.Reads fun _ => True :=
  (reads_struct ((Fields.Reads.map _ (.field (reads_list reads_issue))).seq (.field reads_summary))
    (by decide)).of_all (by simp)

theorem reads_provenanceEntry : provenanceEntry.Reads fun _ => True :=
  (reads_struct (((((Fields.Reads.map _ (.field reads_string)).seq (.field reads_uint32)).seq
    (.field reads_string)).seq (.field (reads_choice fun m => by cases m <;> rfl))).seq
    (.field reads_string)) (by decide)).of_all (by simp)

theorem reads_result : result.Reads fun _ => True :=
  (reads_struct ((((((Fields.Reads.map _ (.field reads_string)).seq (.field reads_string)).seq
    (.field (reads_list reads_diagnostic))).seq (.field (reads_list reads_provenanceEntry))).seq
    (.field reads_report)).seq (.field reads_string)) (by decide)).of_all (by simp)

end Result

section Text

open Json (Fault)

variable {α : Type} {c : Codec α} {Proper : α → Prop}

theorem Codec.Reads.ofText_text (h : c.Reads Proper) {a b : α} (ha : Proper a)
    (hcarried : c.Carries 128 a (some b)) : c.ofText (c.text a) = .ok b := by
  have hread := (h.takes ((c.encode a).chars.length + 1) 128 a ha hcarried.readable
    (Nat.lt_succ_self _)).2 [] trivial
  rw [List.append_nil] at hread
  have hrun : Json.Reader.run c.read (c.text a) = .ok (c.encode a).canonical := by
    rw [Json.Reader.run, Codec.text, Json.text, String.toList_ofList]
    simp only [hread, bind, Except.bind]
    rfl
  rw [Codec.ofText, hrun]
  exact congrArg (Except.mapError Fault.mismatch) (hcarried.decode_eq .plain)

/-- What has been read from text was decoded from a value in memory of at most 127 containers
around each of its parts. -/
theorem Codec.Reads.kept_of_ofText (h : c.Reads Proper) {text : String} {a : α}
    (hread : c.ofText text = .ok a) :
    ∃ v : Json, v.Kept 128 ∧ c.decode .plain v = .ok a := by
  obtain ⟨v, hrun, hdecode⟩ := bind_eq_ok hread
  obtain ⟨⟨w, rest⟩, htaken, hrest⟩ := bind_eq_ok hrun
  have heq : w = v := by
    dsimp only at hrest
    split at hrest
    · exact Except.ok.inj hrest
    · cases hrest
  exact ⟨v, heq ▸ h.gives _ 127 _ _ _ htaken, mapError_eq_ok hdecode⟩

end Text

end Wire

namespace CompileRequest.Decoded

variable {depth : Nat} {r : CompileRequest} (h : r.Decoded depth)

include h

theorem plainOptions : ∀ b ∈ r.document.blocks, b.PlainOptions := by
  intro b hb m hm slot hslot
  have hm := h.document.metadata b hb m hm
  rcases List.mem_cons.1 hslot with rfl | hslot
  · exact hm.formatter
  · rw [List.mem_singleton.1 hslot]
    exact hm.language

end CompileRequest.Decoded

open Compile (Pipeline)
open Wire (Origin compileRequest result)

/-- Rules of the pipeline's own report details that are written as they are: not null, as values
are kept in memory, and with numbers that read back. -/
def Compile.Pipeline.PlainRules (p : Pipeline) (r : CompileRequest) : Prop :=
  ∀ rule ∈ p.rules, ∀ i ∈ rule.check r, ∀ v, i.details = some v →
    v ≠ .null ∧ v.canonical = v ∧ v.NumbersReadBack

/-- Text has room for the details that rules of the pipeline's own report; four containers stand
around them. -/
def Compile.Pipeline.ShallowRules (p : Pipeline) (r : CompileRequest) : Prop :=
  ∀ rule ∈ p.rules, ∀ i ∈ rule.check r, ∀ v, i.details = some v → v.Nested 124

theorem Compile.Pipeline.exists_nested_details (p : Pipeline) (r : CompileRequest) :
    ∃ depth, ∀ rule ∈ p.rules, ∀ i ∈ rule.check r, ∀ v, i.details = some v → v.Nested (depth + 3) := by
  obtain ⟨depth, h⟩ := Json.exists_forall_nested
    ((p.rules.flatMap (·.check r)).filterMap (·.details)) (f := id) fun v _ => Json.exists_nested v
  refine ⟨depth, fun rule hrule i hi v hv => (h v ?_).mono 2⟩
  exact List.mem_filterMap.2 ⟨i, List.mem_flatMap.2 ⟨rule, hrule, hi⟩, hv⟩

theorem decode_encode_compileRequest {origin : Origin} {v : Json} {r : CompileRequest}
    (h : compileRequest.decode origin v.canonical = .ok r)
    (hnumbers : (compileRequest.encode r).NumbersReadBack) (origin' : Origin) :
    compileRequest.decode origin' (compileRequest.encode r).canonical = .ok r := by
  obtain ⟨depth, hnested⟩ := Json.exists_nested v.canonical
  have hdecoded : r.Decoded depth :=
    Wire.yields_compileRequest origin _ r ⟨Json.canonical_canonical v, hnested.mono 7⟩ h
  exact (hdecoded.carries hnumbers).decode_eq origin'

theorem ofText_text_compileRequest {text : String} {r : CompileRequest}
    (h : compileRequest.ofText text = .ok r)
    (hnumbers : (compileRequest.encode r).NumbersReadBack) :
    compileRequest.ofText (compileRequest.text r) = .ok r := by
  obtain ⟨v, hv, hdecode⟩ := Wire.reads_compileRequest.kept_of_ofText h
  have hdecoded : r.Decoded 121 := Wire.yields_compileRequest .plain v r hv hdecode
  exact Wire.reads_compileRequest.ofText_text hdecoded.plainOptions (hdecoded.carries hnumbers)

theorem carries_compile {p : Pipeline} {r : CompileRequest} {compiled : Compile.Result} {depth : Nat}
    (h : (p.compile r).result = .ok compiled) (hplain : p.PlainRules r)
    (hnested : ∀ rule ∈ p.rules, ∀ i ∈ rule.check r, ∀ v, i.details = some v →
      v.Nested (depth + 3)) :
    result.Carries (depth + 7) compiled (some compiled) := by
  obtain ⟨texts, rfl⟩ := Compile.exists_texts_of_compile h
  refine Wire.carries_result (Compile.readsBack_result (fun rule hrule i hi v hv => ?_) ..)
  obtain ⟨hnull, hcanonical, hnumbers⟩ := hplain rule hrule i hi v hv
  exact ⟨hnull, hcanonical, (hnested rule hrule i hi v hv).readable hnumbers⟩

/-- **The wire format loses nothing.** A request that was decoded, from a value in memory or from
text, comes back from the JSON that is written for it if the numbers in that do, and so does every
result of a compilation. Values are kept in memory in canonical form. Nothing is asked of results
of the default pipeline, which has no rules of its own. -/
theorem wire_lossless :
    (∀ origin (v : Json) r, compileRequest.decode origin v.canonical = .ok r →
      (compileRequest.encode r).NumbersReadBack →
        ∀ origin', compileRequest.decode origin' (compileRequest.encode r).canonical = .ok r) ∧
    (∀ text r, compileRequest.ofText text = .ok r → (compileRequest.encode r).NumbersReadBack →
      compileRequest.ofText (compileRequest.text r) = .ok r) ∧
    ∀ (p : Pipeline) r compiled, (p.compile r).result = .ok compiled → p.PlainRules r →
      (∀ origin, result.decode origin (result.encode compiled).canonical = .ok compiled) ∧
        (p.ShallowRules r → result.ofText (result.text compiled) = .ok compiled) := by
  refine ⟨fun origin v r => decode_encode_compileRequest, fun text r => ofText_text_compileRequest, ?_⟩
  intro p r compiled h hplain
  obtain ⟨depth, hnested⟩ := p.exists_nested_details r
  refine ⟨(carries_compile h hplain hnested).decode_eq, fun hshallow => ?_⟩
  exact Wire.reads_result.ofText_text trivial (carries_compile h hplain hshallow)

namespace CompileRequest

def nullOption (default : Option VariableValue) : CompileRequest :=
  .ofDocument ⟨"d", 2, "T", [⟨"b", 1, some ⟨none, none, .ofList [("width", .null)]⟩, .markdown "Hi"⟩],
    [], [⟨"v", "x", .text, none, default, none⟩], [], [], "draft", ∅, none, none⟩

def nullOptionSent : Json :=
  .obj [("document", .obj [("title", .str "T"), ("statusKey", .str "draft"), ("id", .str "d"),
    ("variables", .arr [.obj [("type", .str "text"), ("key", .str "x"), ("id", .str "v")]]),
    ("blocks", .arr [.obj [("kind", .str "markdown"), ("body", .str "Hi"),
      ("metadata", .obj [("width", .null)]), ("sequence", .nat 1), ("id", .str "b")]])])]

theorem numbersReadBack_nullOption :
    (compileRequest.encode (nullOption none)).NumbersReadBack := by
  have hone : (Json.nat 1).NumbersReadBack := .num (Json.readsBack_int (by decide) (by decide))
  have htwo : (Json.nat 2).NumbersReadBack := .num (Json.readsBack_int (by decide) (by decide))
  have hencode : compileRequest.encode (nullOption none) = .obj [
      ("document", .obj [
        ("id", .str "d"), ("schemaVersion", .nat 2), ("title", .str "T"),
        ("blocks", .arr [.obj [("id", .str "b"), ("sequence", .nat 1),
          ("metadata", .obj [("width", .null)]), ("kind", .str "markdown"), ("body", .str "Hi")]]),
        ("edges", .arr []),
        ("variables", .arr [.obj [("id", .str "v"), ("key", .str "x"), ("type", .str "text")]]),
        ("exportRecipes", .arr []), ("tags", .arr []),
        ("statusKey", .str "draft"), ("settings", .obj [])]),
      ("snippets", .arr []), ("variables", .obj [])] := rfl
  rw [hencode]
  simp [hone, htwo]

/-- A default that is null is written, but it is not read as one. -/
theorem ofText_text_nullOption :
    compileRequest.ofText (compileRequest.text (nullOption (some .null))) = .ok (nullOption none) := by
  have hread : (nullOption (some .null)).ReadsBack 121 := CompileRequest.readsBack_ofDocument {
    options := fun b hb m hm e he => by
      rw [List.mem_singleton.1 hb] at hm
      obtain rfl := Option.some.inj hm
      rw [List.mem_singleton.1 he]
      exact ⟨rfl, .null _⟩
    defaults := fun v hv a ha => by
      rw [List.mem_singleton.1 hv] at ha
      obtain rfl := Option.some.inj ha
      trivial
    recipes := fun _ hv => absurd hv List.not_mem_nil
    settings := fun _ he => absurd he List.not_mem_nil }
  have hplain : ∀ b ∈ (nullOption (some .null)).document.blocks, b.PlainOptions := fun b hb => by
    rw [List.mem_singleton.1 hb]
    rintro _ ⟨⟩
    decide
  exact Wire.reads_compileRequest.ofText_text hplain (Wire.carries_compileRequest hread)

end CompileRequest

open CompileRequest

theorem wire_lossless_nullOption :
    compileRequest.decode .plain nullOptionSent.canonical = .ok (nullOption none) ∧
      compileRequest.decode .plain (compileRequest.encode (nullOption none)).canonical =
        .ok (nullOption none) ∧
      compileRequest.ofText (compileRequest.text (nullOption (some .null))) = .ok (nullOption none) ∧
      compileRequest.ofText (compileRequest.text (nullOption none)) = .ok (nullOption none) ∧
      result.ofText (result.text (Compile.compileDocument (nullOption none))) =
        .ok (Compile.compileDocument (nullOption none)) := by
  have hdecode : compileRequest.decode .plain nullOptionSent.canonical = .ok (nullOption none) := rfl
  have hcompiled : (Pipeline.default.compile (nullOption none)).result =
      .ok (Compile.compileDocument (nullOption none)) := by rw [Pipeline.compile_default]
  obtain ⟨hvalue, hread, hresult⟩ := wire_lossless
  refine ⟨hdecode, hvalue _ _ _ hdecode numbersReadBack_nullOption _, ofText_text_nullOption,
    hread _ _ ofText_text_nullOption numbersReadBack_nullOption, ?_⟩
  exact (hresult _ _ _ hcompiled (List.forall_mem_nil _)).2 (List.forall_mem_nil _)

end DocCompiler
