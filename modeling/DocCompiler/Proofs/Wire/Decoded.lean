import DocCompiler.Proofs.Compile.Untimed
import DocCompiler.Proofs.Json.Nested

/-! What a request is like that has been decoded. Its dynamic values are parts of the value that it
comes from, no default is null, no option of a block has the name of a field, and its points in time
are as they are sent. So it is sent as it is. -/

namespace DocCompiler

namespace BlockMetadata

/-- Options that nest no deeper than there is room for them, none with the name of a field. -/
structure Decoded (depth : Nat) (m : BlockMetadata) : Prop where
  options : ∀ e ∈ m.options.entries, e.2.Kept depth
  formatter : m.options.find? "formatter" = none
  language : m.options.find? "language" = none

end BlockMetadata

def SentAsIs (t : Option Time.Timestamp) : Prop := ∀ time, t = some time → time.sent = time

theorem SentAsIs.map {t : Option Time.Timestamp} (h : SentAsIs t) : t.map (·.sent) = t := by
  cases t with
  | none => rfl
  | some time => exact congrArg some (h time rfl)

structure Document.Decoded (depth : Nat) (d : Document) : Prop where
  metadata : ∀ b ∈ d.blocks, ∀ m, b.metadata = some m → m.Decoded (depth + 1)
  defaults : ∀ v ∈ d.definitions, v.defaultValue ≠ some .null
  recipes : ∀ v ∈ d.exportRecipes, v.Kept (depth + 3)
  settings : ∀ e ∈ d.settings.entries, e.2.Kept (depth + 3)
  createdAt : SentAsIs d.createdAt
  updatedAt : SentAsIs d.updatedAt

namespace Snippet

structure Decoded (depth : Nat) (s : Snippet) : Prop where
  frontmatter : ∀ e ∈ s.frontmatter.entries, e.2.Kept depth
  updatedAt : SentAsIs s.updatedAt

structure Version.Decoded (depth : Nat) (v : Version) : Prop where
  frontmatter : ∀ e ∈ v.frontmatter.entries, e.2.Kept depth
  timestamp : SentAsIs v.timestamp

structure Bundle.Decoded (depth : Nat) (b : Bundle) : Prop where
  snippet : b.snippet.Decoded (depth + 1)
  versions : ∀ v ∈ b.versions, v.Decoded depth

end Snippet

structure CompileRequest.Decoded (depth : Nat) (r : CompileRequest) : Prop where
  document : r.document.Decoded (depth + 1)
  snippets : ∀ b ∈ r.snippets, b.Decoded (depth + 1)

namespace Wire

variable {α β σ : Type} {P : Json → Prop} {Q : α → Prop}

/-- Whatever the codec decodes a value with `P` into has `Q`. -/
def Codec.Yields (c : Codec α) (P : Json → Prop) (Q : α → Prop) : Prop :=
  ∀ origin v a, P v → c.decode origin v = .ok a → Q a

def Supply.All (P : Json → Prop) : Supply → Prop
  | .named entries => ∀ e ∈ entries, P e.2
  | .listed items => ∀ v ∈ items, P v

theorem Supply.All.get? {s : Supply} (h : s.All P) {index : Nat} {name : String} {v : Json}
    (hget : s.get? index name = some v) : P v := by
  cases s with
  | named entries => exact h _ (mem_of_binding? hget)
  | listed items => exact h v (List.mem_of_getElem? hget)

def Fields.Yields (x : Fields σ α) (P : Json → Prop) (Q : α → Prop) : Prop :=
  ∀ origin supply index a, supply.All P → x.decode origin supply index = .ok a → Q a

namespace Fields

theorem Yields.any {x : Fields σ α} : x.Yields P fun _ => True := fun _ _ _ _ _ _ => trivial

theorem Yields.pure {a : α} (h : Q a) : (Pure.pure a : Fields σ α).Yields P Q := by
  rintro origin supply index _ _ ⟨⟩
  exact h

theorem Yields.seq {f : Fields σ (α → β)} {x : Fields σ α} {R : β → Prop}
    (hf : f.Yields P fun g => ∀ a, Q a → R (g a)) (hx : x.Yields P Q) :
    (f <*> x).Yields P R := by
  intro origin supply index b hall hdecode
  have hseq := toOption_seq f x origin supply index
  rw [hdecode] at hseq
  cases hg : f.decode origin supply index with
  | error e => rw [hg] at hseq; cases hseq
  | ok g =>
    cases ha : x.decode origin supply (index + f.slots.length) with
    | error e => rw [hg, ha] at hseq; cases hseq
    | ok a =>
      rw [hg, ha] at hseq
      have hb : b = g a := Option.some.inj hseq
      rw [hb]
      exact hf origin supply index g hall hg a (hx origin supply _ a hall ha)

theorem Yields.map {x : Fields σ α} {R : β → Prop} {g : α → β} (hx : x.Yields P Q)
    (h : ∀ a, Q a → R (g a)) : (g <$> x).Yields P R := Yields.seq (Yields.pure h) hx

theorem Yields.field {name : String} {c : Codec α} {absent : Option α} {get : σ → α}
    (h : c.Yields P Q) (habsent : ∀ a, absent = some a → Q a) :
    (Fields.field name c absent get).Yields P Q := by
  intro origin supply index a hall hdecode
  simp only [Fields.field] at hdecode
  cases hget : supply.get? index name with
  | some v =>
    rw [hget] at hdecode
    exact h origin v a (hall.get? hget) (mapError_eq_ok hdecode)
  | none =>
    rw [hget] at hdecode
    cases absent with
    | some b =>
      cases hdecode
      exact habsent a rfl
    | none => cases hdecode

theorem Yields.required {name : String} {c : Codec α} {get : σ → α} (h : c.Yields P Q) :
    (Fields.required name c get).Yields P Q := .field h nofun

theorem Yields.defaulted {name : String} {c : Codec α} {default : α} {get : σ → α}
    (h : c.Yields P Q) (hdefault : Q default) : (Fields.defaulted name c default get).Yields P Q :=
  .field h fun _ ha => Option.some.inj ha ▸ hdefault

theorem Yields.optional {name : String} {c : Codec α} {get : σ → Option α}
    (h : c.Yields (fun v => P v ∧ v ≠ .null) Q) :
    (Fields.optional name c get).Yields P fun o => ∀ a, o = some a → Q a := by
  have hoption : c.option.Yields P fun o => ∀ a, o = some a → Q a := by
    rintro origin v _ hv hdecode a rfl
    have hne : v ≠ .null := by rintro rfl; cases hdecode
    have hsome : c.option.decode origin v = (do return some (← c.decode origin v)) := by
      cases v <;> first | rfl | exact absurd rfl hne
    rw [hsome] at hdecode
    obtain ⟨b, hd, hb⟩ := bind_eq_ok hdecode
    cases hb
    exact h origin v a ⟨hv, hne⟩ hd
  have hfield : (Fields.field name c.option (some none) get).Yields P
      fun o => ∀ a, o = some a → Q a := by
    refine .field hoption ?_
    rintro _ ⟨⟩
    exact nofun
  exact hfield

theorem Yields.run {x : Fields σ α} (hx : x.Yields P Q) {title : String} {origin : Origin}
    {supply : Supply} {a : α} (hall : supply.All P) (h : x.run title origin supply = .ok a) :
    Q a := by
  have hrun := toOption_run x title origin supply
  rw [h] at hrun
  cases hd : x.decode origin supply 0 with
  | error e => rw [hd] at hrun; cases hrun
  | ok b =>
    rw [hd] at hrun
    cases hrun
    exact hx origin supply 0 a hall hd

end Fields

namespace Codec

variable {depth : Nat}

theorem Yields.imp {c : Codec α} {P' : Json → Prop} {Q' : α → Prop} (h : c.Yields P Q)
    (hP : ∀ v, P' v → P v) (hQ : ∀ a, Q a → Q' a) : c.Yields P' Q' :=
  fun origin v a hv hdecode => hQ a (h origin v a (hP v hv) hdecode)

theorem yields_any : any.Yields P P := by
  rintro _ _ _ hv ⟨⟩
  exact hv

theorem yields_timestamp : timestamp.Yields P fun t => t.sent = t := by
  intro origin v t _ hdecode
  cases v with
  | str s =>
    rw [decode_timestamp] at hdecode
    exact Time.Timestamp.sent_of_read (mapError_eq_ok hdecode)
  | _ => cases hdecode

theorem exists_of_mem_mapM {ε : Type} {f : α → Except ε β} {l : List α} {m : List β}
    (h : l.mapM f = .ok m) : ∀ b ∈ m, ∃ a ∈ l, f a = .ok b := by
  induction l generalizing m with
  | nil =>
    cases h
    exact nofun
  | cons a l ih =>
    rw [List.mapM_cons] at h
    obtain ⟨b, hfirst, h⟩ := bind_eq_ok h
    obtain ⟨m', hrest, h⟩ := bind_eq_ok h
    cases h
    intro b' hb'
    rcases List.mem_cons.1 hb' with rfl | hb'
    · exact ⟨a, .head _, hfirst⟩
    · obtain ⟨a', ha', heq⟩ := ih hrest b' hb'
      exact ⟨a', .tail _ ha', heq⟩

theorem yields_list {c : Codec α} (h : c.Yields (Json.Kept (depth + 1)) Q) :
    (list c).Yields (Json.Kept (depth + 2)) fun l => ∀ a ∈ l, Q a := by
  intro origin v l hv hdecode
  cases v with
  | arr items =>
    intro a ha
    obtain ⟨w, hw, hd⟩ := exists_of_mem_mapM hdecode a ha
    exact h origin w a (hv.items w hw) hd
  | _ => cases hdecode

theorem mem_of_mem_ofList {l : List (String × α)} {e : String × α}
    (h : e ∈ (SortedMap.ofList l).entries) : e ∈ l := by
  have hfound := SortedMap.mem_entries.1 h
  rw [SortedMap.find?_ofList] at hfound
  exact List.mem_reverse.1 (mem_of_binding? hfound)

theorem yields_object :
    (map any).Yields (Json.Kept (depth + 2)) fun m => ∀ e ∈ m.entries, e.2.Kept (depth + 1) := by
  intro origin v m hv hdecode
  cases v with
  | obj entries =>
    obtain ⟨es, hes, hm⟩ := bind_eq_ok hdecode
    cases hm
    intro e he
    obtain ⟨e', he', hd⟩ := exists_of_mem_mapM hes e (mem_of_mem_ofList he)
    cases hd
    exact hv.entries e' he'
  | _ => cases hdecode

theorem yields_struct {name : String} {fields : Fields α α}
    (h : fields.Yields (Json.Kept (depth + 1)) Q) :
    (Codec.struct name fields).Yields (Json.Kept (depth + 2)) Q := by
  intro origin v a hv hdecode
  cases v with
  | obj entries =>
    have hall : (Supply.named entries).All (Json.Kept (depth + 1)) := hv.entries
    exact h.run hall hdecode
  | arr items =>
    have hall : (Supply.listed items).All (Json.Kept (depth + 1)) := hv.items
    obtain ⟨b, hrun, hb⟩ := bind_eq_ok hdecode
    have heq : b = a := by
      split at hb
      · exact Except.ok.inj hb
      · cases hb
    exact heq ▸ h.run hall hrun
  | _ => cases hdecode

theorem yields_withRest {name : String} {own : Fields α (SortedMap Json → α)}
    {rest : α → SortedMap Json}
    (h : own.Yields (Json.Kept (depth + 1)) fun make => ∀ m : SortedMap Json,
      (∀ e ∈ m.entries, e.2.Kept (depth + 1)) →
        (∀ slot ∈ own.slots, m.find? slot.name = none) → Q (make m)) :
    (Codec.withRest name own rest).Yields (Json.Kept (depth + 2)) Q := by
  intro origin v a hv hdecode
  cases v with
  | obj entries =>
    have hall : (Supply.named entries).All (Json.Kept (depth + 1)) := hv.entries
    obtain ⟨make, hrun, hmake⟩ := bind_eq_ok hdecode
    cases hmake
    refine h.run hall hrun _ ?_ ?_
    · intro e he
      exact hv.entries e (List.mem_of_mem_filter (mem_of_mem_ofList he))
    · -- entries with the name of a field are not among those that are left
      intro slot hslot
      rw [SortedMap.find?_ofList, binding?_eq_none]
      intro e he hkey
      have hother := (List.mem_filter.1 (List.mem_reverse.1 he)).2
      have hne := List.all_eq_true.1 hother slot hslot
      rw [hkey, bne_self_eq_false] at hne
      cases hne
  | _ => cases hdecode

theorem yields_withVariant {name tag : String} {own : Fields α (β → α)} {part : α → β}
    {variants : List (Variant β)}
    (h : own.Yields (Json.Kept (depth + 1)) fun make => ∀ b, Q (make b)) :
    (Codec.withVariant name tag own part variants).Yields (Json.Kept (depth + 2)) Q := by
  intro origin v a hv hdecode
  cases v with
  | obj entries =>
    have hall : (Supply.named entries).All (Json.Kept (depth + 1)) := hv.entries
    rw [decode_withVariant] at hdecode
    obtain ⟨make, hrun, hdecode⟩ := bind_eq_ok hdecode
    obtain ⟨variant, -, hdecode⟩ := bind_eq_ok hdecode
    obtain ⟨b, -, hb⟩ := bind_eq_ok hdecode
    cases hb
    exact h.run hall hrun b
  | _ => cases hdecode

end Codec

open Codec Fields.Yields

variable {depth : Nat}

theorem yields_blockMetadata :
    blockMetadata.Yields (Json.Kept (depth + 2)) fun m => m.Decoded (depth + 1) := by
  refine yields_withRest (.seq (.map any fun formatter _ language _ m hm hnames => ?_) any)
  exact ⟨hm, hnames _ (.head _), hnames _ (.tail _ (.head _))⟩

theorem yields_block : block.Yields (Json.Kept (depth + 3))
    fun b => ∀ m, b.metadata = some m → m.Decoded (depth + 1) := by
  have hmetadata : blockMetadata.Yields (fun v => v.Kept (depth + 2) ∧ v ≠ .null)
      fun m => m.Decoded (depth + 1) := yields_blockMetadata.imp (fun _ h => h.1) fun _ h => h
  refine yields_withVariant (.seq (.seq (.map any fun id _ sequence _ metadata h content => ?_) any)
    (.optional hmetadata))
  exact h

theorem yields_variableDefinition :
    variableDefinition.Yields (Json.Kept (depth + 2)) fun d => d.defaultValue ≠ some .null := by
  have hvalue : variableValue.Yields (fun v => v.Kept (depth + 1) ∧ v ≠ .null) (· ≠ .null) := by
    rintro origin v _ ⟨-, hv⟩ hdecode rfl
    cases v <;> first | exact hv rfl | cases hdecode
  refine yields_struct (.seq (.seq (.seq (.seq (.seq (.map any
    fun id _ key _ type _ required _ default h options _ => ?_) any) any) any)
    (.optional hvalue)) any)
  exact fun heq => h _ heq rfl

theorem yields_sentAsIs {σ : Type} {name : String} {get : σ → Option Time.Timestamp}
    {P : Json → Prop} : (Fields.optional name .timestamp get).Yields P SentAsIs :=
  .optional yields_timestamp

theorem yields_listField {α σ : Type} {Q : α → Prop} {name : String} {c : Codec α}
    {get : σ → List α} (h : c.Yields (Json.Kept (depth + 1)) Q) :
    (Fields.defaulted name (.list c) [] get).Yields (Json.Kept (depth + 2)) fun l => ∀ a ∈ l, Q a :=
  .defaulted (yields_list h) (List.forall_mem_nil Q)

theorem yields_objectField {σ : Type} {name : String} {get : σ → SortedMap Json} :
    (Fields.defaulted name (.map .any) ∅ get).Yields (Json.Kept (depth + 2))
      fun m => ∀ e ∈ m.entries, e.2.Kept (depth + 1) :=
  .defaulted yields_object (List.forall_mem_nil _)

theorem yields_document :
    document.Yields (Json.Kept (depth + 5)) fun d => d.Decoded depth := by
  refine yields_struct (.seq (.seq (.seq (.seq (.seq (.seq (.seq (.seq (.seq (.seq (.seq (.map any
    fun id _ version _ title _ blocks hblocks edges _ definitions hdefinitions recipes hrecipes
      tags _ status _ settings hsettings createdAt hcreated updatedAt hupdated => ?_)
    any) any) (yields_listField yields_block)) any)
    (yields_listField yields_variableDefinition))
    (yields_listField yields_any)) any) any)
    yields_objectField) yields_sentAsIs) yields_sentAsIs)
  exact ⟨hblocks, hdefinitions, hrecipes, hsettings, hcreated, hupdated⟩

theorem yields_snippet : snippet.Yields (Json.Kept (depth + 3)) fun s => s.Decoded (depth + 1) := by
  refine yields_struct (.seq (.seq (.seq (.seq (.seq (.seq (.map any
    fun id _ path _ title _ rev _ body _ frontmatter hfrontmatter updatedAt hupdated => ?_)
    any) any) any) any) yields_objectField) yields_sentAsIs)
  exact ⟨hfrontmatter, hupdated⟩

theorem yields_snippetVersion :
    snippetVersion.Yields (Json.Kept (depth + 3)) fun v => v.Decoded (depth + 1) := by
  refine yields_struct (.seq (.seq (.seq (.seq (.seq (.map any
    fun rev _ parent _ body _ frontmatter hfrontmatter hash _ timestamp htimestamp => ?_)
    any) any) yields_objectField) any) yields_sentAsIs)
  exact ⟨hfrontmatter, htimestamp⟩

theorem yields_snippetBundle :
    snippetBundle.Yields (Json.Kept (depth + 5)) fun b => b.Decoded (depth + 1) := by
  refine yields_struct (.seq (.map (.required yields_snippet)
    fun snippet hsnippet versions hversions => ?_)
    (yields_listField yields_snippetVersion))
  exact ⟨hsnippet, hversions⟩

/-- **What a decoded request is like.** -/
theorem yields_compileRequest :
    compileRequest.Yields (Json.Kept (depth + 7)) fun r => r.Decoded depth := by
  refine yields_struct (.seq (.seq (.seq (.map (.required yields_document)
    fun document hdocument snippets hsnippets values _ statuses _ => ?_)
    (yields_listField yields_snippetBundle)) any) any)
  exact ⟨hdocument, hsnippets⟩

end Wire

section Numbers

open Json (NumbersReadBack)

theorem Json.Kept.readsBack {depth : Nat} {v : Json} (h : v.Kept depth)
    (hnumbers : v.NumbersReadBack) : v.ReadsBack depth := ⟨h.1, h.2.readable hnumbers⟩

namespace Json.NumbersReadBack

theorem field {v w : Json} (h : v.NumbersReadBack) (key : String) (hfield : v.field? key = some w) :
    w.NumbersReadBack := by
  cases h with
  | obj h => exact h _ (mem_of_binding? hfield)
  | _ => cases hfield

theorem list {α : Type} {v : Json} (h : v.NumbersReadBack) (key : String) {l : List α}
    {encode : α → Json} (hfield : v.field? key = some (.arr (l.map encode))) :
    ∀ a ∈ l, (encode a).NumbersReadBack :=
  fun _ ha => Json.numbersReadBack_arr.1 (h.field key hfield) _ (List.mem_map_of_mem ha)

theorem object {v : Json} (h : v.NumbersReadBack) (key : String) {m : SortedMap Json}
    (hfield : v.field? key = some ((Wire.Codec.map .any).encode m)) :
    ∀ e ∈ m.entries, e.2.NumbersReadBack :=
  fun _ he => Json.numbersReadBack_obj.1 (h.field key hfield) _ (List.mem_map_of_mem he)

end Json.NumbersReadBack

variable {depth : Nat}

theorem VariableValue.readsBack_of_numbers {v : VariableValue}
    (h : (Wire.encodeValue v).NumbersReadBack) : v.ReadsBack := by
  cases v with
  | number n =>
    cases h with
    | num h => exact h
  | null | bool | text => trivial

theorem Document.Decoded.readsBack {d : Document} (h : d.Decoded depth)
    (hnumbers : (Wire.document.encode d).NumbersReadBack) : d.ReadsBack depth where
  options b hb m hm e he := by
    have hblock := hnumbers.list "blocks" rfl b hb
    have hmetadata : (Wire.block.encode b).field? "metadata" = some (Wire.blockMetadata.encode m) := by
      obtain ⟨id, sequence, metadata, content⟩ := b
      subst hm
      rfl
    exact ((h.metadata b hb m hm).options e he).readsBack
      (Json.numbersReadBack_obj.1 (hblock.field "metadata" hmetadata) e (List.mem_append_right _ he))
  defaults v hv a ha := by
    have hdefinition := hnumbers.list "variables" rfl v hv
    have hdefault : (Wire.variableDefinition.encode v).field? "defaultValue" =
        some (Wire.encodeValue a) := by
      obtain ⟨id, key, type, required, default, options⟩ := v
      subst ha
      cases required <;> rfl
    exact VariableValue.readsBack_of_numbers (hdefinition.field "defaultValue" hdefault)
  recipes v hv := (h.recipes v hv).readsBack (hnumbers.list "exportRecipes" rfl v hv)
  settings e he := (h.settings e he).readsBack (hnumbers.object "settings" rfl e he)

/-- What is decoded reads back where it stands, if the numbers written for it do. -/
theorem CompileRequest.Decoded.readsBack {r : CompileRequest} (h : r.Decoded depth)
    (hnumbers : (Wire.compileRequest.encode r).NumbersReadBack) : r.ReadsBack depth where
  document := h.document.readsBack (hnumbers.field "document" rfl)
  heads b hb e he := by
    have hsnippet := (hnumbers.list "snippets" rfl b hb).field "snippet" rfl
    have hfrontmatter : (Wire.snippet.encode b.snippet).field? "frontmatter" =
        some ((Wire.Codec.map .any).encode b.snippet.frontmatter) := by
      obtain ⟨⟨id, path, title, rev, body, frontmatter, updatedAt⟩, versions⟩ := b
      cases title <;> rfl
    exact ((h.snippets b hb).snippet.frontmatter e he).readsBack
      (hsnippet.object "frontmatter" hfrontmatter e he)
  versions b hb v hv e he := by
    have hversion := (hnumbers.list "snippets" rfl b hb).list "versions" rfl v hv
    have hfrontmatter : (Wire.snippetVersion.encode v).field? "frontmatter" =
        some ((Wire.Codec.map .any).encode v.frontmatter) := by
      obtain ⟨rev, parentRev, body, frontmatter, hash, timestamp⟩ := v
      cases parentRev <;> rfl
    exact (((h.snippets b hb).versions v hv).frontmatter e he).readsBack
      (hversion.object "frontmatter" hfrontmatter e he)
  values e he :=
    VariableValue.readsBack_of_numbers
      (Json.numbersReadBack_obj.1 (hnumbers.field "variables" rfl) _ (List.mem_map_of_mem he))

theorem CompileRequest.Decoded.unambiguous {r : CompileRequest} (h : r.Decoded depth) :
    r.Unambiguous where
  defaults := h.document.defaults
  options b hb m hm :=
    have hm := h.document.metadata b hb m hm
    ⟨hm.formatter, hm.language⟩

theorem CompileRequest.Decoded.retimed {r : CompileRequest} (h : r.Decoded depth) :
    r.retimed = r := by
  have hbundle : ∀ b ∈ r.snippets, b.received = b := by
    intro b hb
    have hb := h.snippets b hb
    have hversions : b.versions.map (·.received) = b.versions := by
      refine (List.map_congr_left fun v hv => ?_).trans (List.map_id _)
      rw [Snippet.Version.received, (hb.versions v hv).timestamp.map]
      rfl
    rw [Snippet.Bundle.received, Snippet.received, hb.snippet.updatedAt.map, hversions]
  have hsnippets : r.snippets.map (·.received) = r.snippets :=
    (List.map_congr_left hbundle).trans (List.map_id _)
  rw [CompileRequest.retimed, h.document.createdAt.map, h.document.updatedAt.map, hsnippets]

theorem CompileRequest.Decoded.carries {r : CompileRequest} (h : r.Decoded depth)
    (hnumbers : (Wire.compileRequest.encode r).NumbersReadBack) :
    Wire.compileRequest.Carries (depth + 7) r (some r) := by
  have hcarried := Wire.carries_compileRequest (h.readsBack hnumbers)
  rwa [h.unambiguous.received, h.retimed] at hcarried

end Numbers
end DocCompiler
