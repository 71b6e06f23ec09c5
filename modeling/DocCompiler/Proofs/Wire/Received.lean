import DocCompiler.Proofs.Time.Timestamp
import DocCompiler.Proofs.Wire.Passage
import DocCompiler.Wire.Request

/-! Requests as the far end of a codec has them. A default that is null comes out as no default,
and an option of a block that has the name of a field takes the field's place, if it can. All else
comes out as it went in, but for odd leap seconds. -/

namespace DocCompiler

namespace BlockMetadata

def nameOf : Json → Option (Option String)
  | .null => some none
  | .str s => some (some s)
  | _ => none

/-- An option with the name of a field takes the field's place. -/
def received (m : BlockMetadata) : Option BlockMetadata := do
  let formatter ← (m.options.find? "formatter").elim (some m.formatter) nameOf
  let language ← (m.options.find? "language").elim (some m.language) nameOf
  some ⟨formatter, language, (m.options.erase "formatter").erase "language"⟩

end BlockMetadata

def Block.received (b : Block) : Option Block :=
  (b.metadata.elim (some none) fun m => m.received.map some).map fun m => { b with metadata := m }

/-- A default that is null is as good as none. -/
def VariableDefinition.received (d : VariableDefinition) : VariableDefinition :=
  match d.defaultValue with
  | some .null => { d with defaultValue := none }
  | _ => d

theorem VariableDefinition.received_of_ne_null {d : VariableDefinition}
    (h : d.defaultValue ≠ some .null) : d.received = d := by
  unfold received
  split
  · exact absurd ‹_› h
  · rfl

namespace Snippet

def received (s : Snippet) : Snippet := { s with updatedAt := s.updatedAt.map (·.sent) }

def Version.received (v : Version) : Version := { v with timestamp := v.timestamp.map (·.sent) }

def Bundle.received (b : Bundle) : Bundle := ⟨b.snippet.received, b.versions.map (·.received)⟩

end Snippet

def Document.received (d : Document) : Option Document :=
  (d.blocks.mapM Block.received).map fun blocks =>
    { d with
      blocks := blocks
      definitions := d.definitions.map (·.received)
      createdAt := d.createdAt.map (·.sent)
      updatedAt := d.updatedAt.map (·.sent) }

def CompileRequest.received (r : CompileRequest) : Option CompileRequest :=
  r.document.received.map fun d =>
    { r with document := d, snippets := r.snippets.map (·.received) }

/-- The text of the value reads back as it where `128 - depth` lists and objects are around it. -/
def Json.ReadsBack (depth : Nat) (v : Json) : Prop := v.canonical = v ∧ Json.Readable depth v

def VariableValue.ReadsBack : VariableValue → Prop
  | .number n => n.ReadsBack
  | _ => True

structure Document.ReadsBack (depth : Nat) (d : Document) : Prop where
  options : ∀ b ∈ d.blocks, ∀ m, b.metadata = some m →
    ∀ e ∈ m.options.entries, e.2.ReadsBack (depth + 1)
  defaults : ∀ v ∈ d.definitions, ∀ a, v.defaultValue = some a → a.ReadsBack
  recipes : ∀ v ∈ d.exportRecipes, v.ReadsBack (depth + 3)
  settings : ∀ e ∈ d.settings.entries, e.2.ReadsBack (depth + 3)

structure CompileRequest.ReadsBack (depth : Nat) (r : CompileRequest) : Prop where
  document : r.document.ReadsBack (depth + 1)
  heads : ∀ b ∈ r.snippets, ∀ e ∈ b.snippet.frontmatter.entries, e.2.ReadsBack (depth + 2)
  versions : ∀ b ∈ r.snippets, ∀ v ∈ b.versions, ∀ e ∈ v.frontmatter.entries,
    e.2.ReadsBack (depth + 1)
  values : ∀ e ∈ r.values.entries, e.2.ReadsBack

theorem CompileRequest.readsBack_ofDocument {depth : Nat} {d : Document}
    (h : d.ReadsBack (depth + 1)) : (CompileRequest.ofDocument d).ReadsBack depth where
  document := h
  heads := fun _ hb => absurd hb List.not_mem_nil
  versions := fun _ hb => absurd hb List.not_mem_nil
  values := fun _ he => absurd he List.not_mem_nil

namespace Wire

open Codec Fields.Carries

variable {depth : Nat}

theorem decode_timestamp (origin : Origin) (s : String) : Codec.timestamp.decode origin (.str s) =
    (Time.Timestamp.read s).mapError Json.Mismatch.timestamp := rfl

theorem carries_timestamp (t : Time.Timestamp) :
    Codec.timestamp.Carries (depth + 1) t (some t.sent) where
  readable := .str depth t.text
  decode origin := by
    have hencode : (Codec.timestamp.encode t).canonical = .str t.text := rfl
    rw [hencode, decode_timestamp, Time.Timestamp.read_text]
    rfl

theorem carries_all {c : Codec α} {l : List α} {f : α → α}
    (h : ∀ a ∈ l, c.Carries (depth + 1) a (some (f a))) :
    (Codec.list c).Carries (depth + 2) l (some (l.map f)) := by
  have hpure : l.mapM (fun a => some (f a)) = some (l.map f) := List.mapM_pure
  have hlist := carries_list h
  rwa [hpure] at hlist

theorem carries_strings (l : List String) :
    (Codec.list .string).Carries (depth + 2) l (some l) := by
  have hlist := carries_all (f := id) fun s (_ : s ∈ l) => carries_string depth s
  rwa [List.map_id] at hlist

theorem carries_object {m : SortedMap Json} (h : ∀ e ∈ m.entries, e.2.ReadsBack (depth + 1)) :
    (Codec.map .any).Carries (depth + 2) m (some m) := by
  have hmap := carries_map (f := id) fun e he => carries_any (h e he).1 (h e he).2
  rwa [show m.map id = m from SortedMap.ext_entries (List.map_id' _)] at hmap

theorem carries_snippet {s : Snippet}
    (h : ∀ e ∈ s.frontmatter.entries, e.2.ReadsBack (depth + 1)) :
    snippet.Carries (depth + 3) s (some s.received) :=
  carries_struct (((((((Fields.Carries.map _ (.field (carries_string _ _))).seq
    (.field (carries_string _ _)) (by decide)).seq
    (.optional fun b _ => ⟨carries_string _ b, Json.noConfusion⟩) (by decide)).seq
    (.field (carries_uint32 _)) (by decide)).seq
    (.field (carries_string _ _)) (by decide)).seq
    (.field (carries_object h)) (by decide)).seq
    (.optional_map fun t _ => ⟨carries_timestamp t, Json.noConfusion⟩) (by decide)) rfl

theorem carries_snippetVersion {v : Snippet.Version}
    (h : ∀ e ∈ v.frontmatter.entries, e.2.ReadsBack (depth + 1)) :
    snippetVersion.Carries (depth + 3) v (some v.received) :=
  carries_struct ((((((Fields.Carries.map _ (.field (carries_uint32 _))).seq
    (.optional fun b _ => ⟨carries_uint32 b, Json.noConfusion⟩) (by decide)).seq
    (.field (carries_string _ _)) (by decide)).seq
    (.field (carries_object h)) (by decide)).seq
    (.field (carries_string _ _)) (by decide)).seq
    (.optional_map fun t _ => ⟨carries_timestamp t, Json.noConfusion⟩) (by decide)) rfl

theorem carries_snippetBundle {b : Snippet.Bundle}
    (hsnippet : ∀ e ∈ b.snippet.frontmatter.entries, e.2.ReadsBack (depth + 2))
    (hversions : ∀ v ∈ b.versions, ∀ e ∈ v.frontmatter.entries, e.2.ReadsBack (depth + 1)) :
    snippetBundle.Carries (depth + 5) b (some b.received) :=
  carries_struct ((Fields.Carries.map _ (.field (carries_snippet hsnippet))).seq
    (.field (carries_all fun v hv => carries_snippetVersion (hversions v hv))) (by decide)) rfl

theorem carries_edge (e : Edge) : edge.Carries (depth + 2) e (some e) :=
  carries_struct (((((((Fields.Carries.map _ (.field (carries_string _ _))).seq
    (.field (carries_string _ _)) (by decide)).seq
    (.field (carries_string _ _)) (by decide)).seq
    (.field (carries_choice (by cases e.kind <;> rfl))) (by decide)).seq
    (.optional fun b _ => ⟨carries_string _ b, Json.noConfusion⟩) (by decide)).seq
    (.optional fun b _ => ⟨carries_string _ b, Json.noConfusion⟩) (by decide)).seq
    (.optional fun b _ => ⟨carries_string _ b, Json.noConfusion⟩) (by decide)) rfl

theorem carries_value {v : VariableValue} (h : v.ReadsBack) :
    variableValue.Carries (depth + 1) v (some v) := by
  cases v with
  | null => exact ⟨.null depth, fun _ => rfl⟩
  | bool b => exact ⟨.bool depth b, fun _ => rfl⟩
  | number n => exact ⟨.num depth h, fun _ => rfl⟩
  | text s => exact ⟨.str depth s, fun _ => rfl⟩

theorem carries_values {m : Variables} (h : ∀ e ∈ m.entries, e.2.ReadsBack) :
    variableValues.Carries (depth + 2) m (some m) := by
  have hmap : variableValues.Carries (depth + 2) m (some (m.map id)) :=
    carries_map fun e he => carries_value (h e he)
  rwa [show m.map id = m from SortedMap.ext_entries (List.map_id' _)] at hmap

theorem carries_default {d : VariableDefinition}
    (h : ∀ v, d.defaultValue = some v → v.ReadsBack) :
    (Fields.optional "defaultValue" variableValue VariableDefinition.defaultValue).Carries
      (depth + 1) ["defaultValue"] d (some d.received.defaultValue) := by
  by_cases hnull : d.defaultValue = some .null
  · have hnone : d.received.defaultValue = none := by rw [VariableDefinition.received, hnull]
    rw [hnone]
    exact .optional_null hnull rfl
  · rw [d.received_of_ne_null hnull]
    refine .optional fun v hv => ⟨carries_value (h v hv), ?_⟩
    cases v with
    | null => exact absurd hv hnull
    | _ => exact Json.noConfusion

theorem carries_variableDefinition {d : VariableDefinition}
    (h : ∀ v, d.defaultValue = some v → v.ReadsBack) :
    variableDefinition.Carries (depth + 3) d (some d.received) :=
  carries_struct ((((((Fields.Carries.map _ (.field (carries_string _ _))).seq
    (.field (carries_string _ _)) (by decide)).seq
    (.field (carries_choice (by cases d.type <;> rfl))) (by decide)).seq
    (.optional fun b _ => ⟨carries_bool _ b, Json.noConfusion⟩) (by decide)).seq
    (carries_default h) (by decide)).seq
    (.optional fun l _ => ⟨carries_strings l, Json.noConfusion⟩) (by decide))
    (by rw [VariableDefinition.received]; split <;> rfl)

def metadataFields : Fields BlockMetadata (SortedMap Json → BlockMetadata) :=
  BlockMetadata.mk
    <$> .optional "formatter" .string (·.formatter)
    <*> .optional "language" .string (·.language)

theorem decode_blockMetadata (origin : Origin) (entries : List (String × Json)) :
    blockMetadata.decode origin (.obj entries) = (do
      let make ← metadataFields.run "struct BlockMetadata" origin (.named entries)
      return make (.ofList (entries.filter fun e =>
        metadataFields.slots.all (·.name != e.1)))) := rfl

theorem run_metadataFields (origin : Origin) (entries : List (String × Json)) :
    (metadataFields.run "struct BlockMetadata" origin (.named entries)).toOption =
      ((binding? "formatter" entries).elim (some none) BlockMetadata.nameOf).bind fun formatter =>
        ((binding? "language" entries).elim (some none) BlockMetadata.nameOf).map fun language =>
          BlockMetadata.mk formatter language := by
  have hfield (name : String) (get : BlockMetadata → Option String) (index : Nat) :
      ((Fields.optional name .string get).decode origin (.named entries) index).toOption =
        (binding? name entries).elim (some none) BlockMetadata.nameOf := by
    have hname (v : Json) :
        (Codec.string.option.decode origin v).toOption = BlockMetadata.nameOf v := by
      cases v <;> rfl
    have hget : (Supply.named entries).get? index name = binding? name entries := rfl
    simp only [Fields.optional, Fields.field, hget]
    cases binding? name entries with
    | none => rfl
    | some v =>
      rw [Option.elim, ← hname]
      show Except.toOption (Except.mapError _ _) = _
      cases Codec.string.option.decode origin v <;> rfl
  rw [Fields.toOption_run, metadataFields, Fields.toOption_seq, hfield]
  show ((Fields.nothing BlockMetadata.mk <*> _ : Fields BlockMetadata _).decode _ _ _).toOption.bind _ = _
  rw [Fields.toOption_seq, hfield]
  cases (binding? "formatter" entries).elim (some none) BlockMetadata.nameOf <;> rfl

theorem write_metadataFields (m : BlockMetadata) : metadataFields.write m =
    (m.formatter.map fun s => ("formatter", Json.str s)).toList ++
      (m.language.map fun s => ("language", Json.str s)).toList := rfl

theorem mem_metadataFields {m : BlockMetadata} {e : String × Json}
    (h : e ∈ metadataFields.write m) : ∃ s, e.2 = .str s := by
  rw [write_metadataFields] at h
  rcases List.mem_append.1 h with h | h <;>
  · obtain ⟨s, -, rfl⟩ := Option.map_eq_some_iff.1 (Option.mem_toList.1 h)
    exact ⟨s, rfl⟩

theorem nodup_metadataFields (m : BlockMetadata) :
    ((metadataFields.write m).map (·.1)).Nodup := by
  rw [write_metadataFields]
  cases m.formatter <;> cases m.language <;> simp

/-- The options stand behind the fields, so that they count where both have a name. -/
theorem binding?_metadata {m : BlockMetadata} (h : ∀ e ∈ m.options.entries, e.2.canonical = e.2)
    (key : String) :
    binding? key (Json.sortedEntries (metadataFields.write m ++ m.options.entries)).entries =
      (m.options.find? key).or (binding? key (metadataFields.write m)) := by
  have hfields : ∀ e ∈ metadataFields.write m, e.2.canonical = e.2 := by
    intro e he
    obtain ⟨s, hs⟩ := mem_metadataFields he
    rw [hs]
    rfl
  rw [Json.binding?_sortedEntries, List.reverse_append, binding?_append,
    binding?_reverse m.options.nodup_keys, binding?_reverse (nodup_metadataFields m),
    Option.map_or, Json.map_canonical h, Json.map_canonical hfields]
  rfl

theorem rest_metadata {m : BlockMetadata} (h : ∀ e ∈ m.options.entries, e.2.canonical = e.2) :
    SortedMap.ofList
        ((Json.sortedEntries (metadataFields.write m ++ m.options.entries)).entries.filter fun e =>
          metadataFields.slots.all (·.name != e.1)) =
      (m.options.erase "formatter").erase "language" := by
  apply SortedMap.ext_find?
  intro key
  have hnodup (l : SortedMap Json) (p : String × Json → Bool) :
      ((l.entries.filter p).map (·.1)).Nodup :=
    l.nodup_keys.sublist (List.filter_sublist.map _)
  have hslots : metadataFields.slots.all (·.name != key) =
      (key != "formatter" && key != "language") := by
    show ("formatter" != key && ("language" != key && true)) = _
    rw [Bool.and_true, bne_comm, bne_comm (a := "language")]
  rw [SortedMap.find?_ofList, binding?_reverse (hnodup _ _),
    binding?_filter (fun k => metadataFields.slots.all (·.name != k)), binding?_metadata h,
    SortedMap.find?_erase, SortedMap.find?_erase, hslots]
  by_cases hformatter : key = "formatter"
  · simp [hformatter]
  · by_cases hlanguage : key = "language"
    · simp [hlanguage]
    · have habsent : binding? key (metadataFields.write m) = none := by
        rw [write_metadataFields]
        cases m.formatter <;> cases m.language <;>
          simp [binding?_cons, Ne.symm hformatter, Ne.symm hlanguage]
      simp [hformatter, hlanguage, habsent]

theorem carries_blockMetadata {m : BlockMetadata}
    (h : ∀ e ∈ m.options.entries, e.2.ReadsBack (depth + 1)) :
    blockMetadata.Carries (depth + 2) m m.received := by
  have hencode : blockMetadata.encode m =
      .obj (metadataFields.write m ++ m.options.entries) := rfl
  have hcanonical : ∀ e ∈ m.options.entries, e.2.canonical = e.2 := fun e he => (h e he).1
  have hentry {name : String} {field : Option String}
      (hfield : (binding? name (metadataFields.write m)).elim (some none)
        BlockMetadata.nameOf = some field) :
      ((m.options.find? name).or (binding? name (metadataFields.write m))).elim (some none)
        BlockMetadata.nameOf = (m.options.find? name).elim (some field) BlockMetadata.nameOf := by
    cases m.options.find? name with
    | none => exact hfield
    | some v => rfl
  have hformatter : (binding? "formatter" (metadataFields.write m)).elim (some none)
      BlockMetadata.nameOf = some m.formatter := by
    rw [write_metadataFields]
    cases m.formatter <;> cases m.language <;> rfl
  have hlanguage : (binding? "language" (metadataFields.write m)).elim (some none)
      BlockMetadata.nameOf = some m.language := by
    rw [write_metadataFields]
    cases m.formatter <;> cases m.language <;> rfl
  refine ⟨?_, fun origin => ?_⟩
  · rw [hencode]
    refine .obj fun e he => ?_
    rcases List.mem_append.1 he with he | he
    · obtain ⟨s, hs⟩ := mem_metadataFields he
      rw [hs]
      exact .str depth s
    · exact (h e he).2
  · rw [hencode, Json.canonical_obj, decode_blockMetadata, rest_metadata hcanonical, toOption_bind,
      run_metadataFields, binding?_metadata hcanonical, binding?_metadata hcanonical,
      hentry hformatter, hentry hlanguage, BlockMetadata.received]
    cases (m.options.find? "formatter").elim (some m.formatter) BlockMetadata.nameOf with
    | none => rfl
    | some formatter =>
      cases (m.options.find? "language").elim (some m.language) BlockMetadata.nameOf <;> rfl

theorem carries_metadata {b : Block}
    (h : ∀ m, b.metadata = some m → ∀ e ∈ m.options.entries, e.2.ReadsBack (depth + 1)) :
    (Fields.optional "metadata" blockMetadata Block.metadata).Carries (depth + 2) ["metadata"] b
      (b.metadata.elim (some none) fun m => m.received.map some) := by
  cases hmetadata : b.metadata with
  | none => exact .optional_none hmetadata
  | some m =>
    exact .optional_some hmetadata (carries_blockMetadata (h m hmetadata)) Json.noConfusion

theorem carries_block_of {b : Block} {σ : Type} {s : σ} {label variant : String}
    {source? : BlockContent → Option σ} {fields : Fields σ BlockContent} {names : List String}
    (h : ∀ m, b.metadata = some m → ∀ e ∈ m.options.entries, e.2.ReadsBack (depth + 1))
    (hnamed : Variant.named blockVariants variant =
      .ok (Variant.of "BlockContent" label variant source? fields))
    (hwrite : Variant.write "kind" blockVariants b.content = ("kind", .str variant) :: fields.write s)
    (hfields : fields.Carries (depth + 2) names s (some b.content))
    (hdisjoint : ∀ n ∈ names, n ∉ ["kind", "id", "sequence", "metadata"]) :
    block.Carries (depth + 3) b b.received := by
  refine carries_withVariant hnamed hwrite (((Fields.Carries.map _ (.field (carries_string _ _))).seq
    (.field (carries_int64 _)) (by decide)).seq (carries_metadata h) (by decide)) hfields
    ⟨by decide, fun hkind => hdisjoint _ hkind (.head _)⟩
    (fun n hn hmem => hdisjoint n hn (.tail _ hmem)) ?_
  obtain ⟨id, sequence, metadata, content⟩ := b
  cases metadata with
  | none => rfl
  | some m =>
    simp only [Block.received, Option.elim]
    cases m.received <;> rfl

theorem carries_block {b : Block}
    (h : ∀ m, b.metadata = some m → ∀ e ∈ m.options.entries, e.2.ReadsBack (depth + 1)) :
    block.Carries (depth + 3) b b.received := by
  obtain ⟨id, sequence, metadata, content⟩ := b
  cases content with
  | markdown body =>
    exact carries_block_of (s := body) h rfl rfl
      (Fields.Carries.map _ (.field (carries_string _ _))) (by decide)
  | snippet snippetId revision mode =>
    exact carries_block_of (s := (snippetId, revision, mode)) h rfl rfl
      (((Fields.Carries.map _ (.field (carries_string _ _))).seq
        (.optional fun n _ => ⟨carries_uint32 n, Json.noConfusion⟩) (by decide)).seq
        (.field (carries_choice (by cases mode <;> rfl))) (by decide)) (by decide)
  | group children collapsed =>
    exact carries_block_of (s := (children, collapsed)) h rfl rfl
      ((Fields.Carries.map _ (.field (carries_strings _))).seq
        (.optional fun b _ => ⟨carries_bool _ b, Json.noConfusion⟩) (by decide)) (by decide)
  | comment body resolved =>
    exact carries_block_of (s := (body, resolved)) h rfl rfl
      ((Fields.Carries.map _ (.field (carries_string _ _))).seq
        (.optional fun b _ => ⟨carries_bool _ b, Json.noConfusion⟩) (by decide)) (by decide)
  | divider style =>
    exact carries_block_of (s := style) h rfl rfl
      (Fields.Carries.map _ (.field (carries_choice (by cases style <;> rfl)))) (by decide)

theorem carries_document {d : Document} (h : d.ReadsBack depth) :
    document.Carries (depth + 5) d d.received := by
  refine carries_struct ((((((((((((Fields.Carries.map _ (.field (carries_string _ _))).seq
    (.field (carries_uint32 _)) (by decide)).seq
    (.field (carries_string _ _)) (by decide)).seq
    (.field (carries_list fun b hb => carries_block (h.options b hb))) (by decide)).seq
    (.field (carries_all (f := id) fun e _ => carries_edge e)) (by decide)).seq
    (.field (carries_all fun d hd => carries_variableDefinition (h.defaults d hd))) (by decide)).seq
    (.field (carries_all (f := id) fun v hv => carries_any (h.recipes v hv).1 (h.recipes v hv).2))
      (by decide)).seq
    (.field (carries_strings _)) (by decide)).seq
    (.field (carries_string _ _)) (by decide)).seq
    (.field (carries_object h.settings)) (by decide)).seq
    (.optional_map fun t _ => ⟨carries_timestamp t, Json.noConfusion⟩) (by decide)).seq
    (.optional_map fun t _ => ⟨carries_timestamp t, Json.noConfusion⟩) (by decide)) ?_
  simp only [Document.received, List.map_id]
  cases d.blocks.mapM Block.received <;> rfl

theorem carries_compileRequest {r : CompileRequest} (h : r.ReadsBack depth) :
    compileRequest.Carries (depth + 7) r r.received := by
  refine carries_struct ((((Fields.Carries.map _ (.field (carries_document h.document))).seq
    (.field (carries_all fun b hb =>
      carries_snippetBundle (h.heads b hb) (h.versions b hb))) (by decide)).seq
    (.field (carries_values h.values)) (by decide)).seq
    (.optional fun l _ => ⟨carries_strings l, Json.noConfusion⟩) (by decide)) ?_
  simp only [CompileRequest.received]
  cases r.document.received <;> rfl

end Wire
end DocCompiler
