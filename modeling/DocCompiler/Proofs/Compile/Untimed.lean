import DocCompiler.Proofs.Compile.Lookups
import DocCompiler.Proofs.Wire.Received

/-! Compilation does not look at points in time: a library whose points in time have been sent to
and fro resolves the same references to the same bodies, and logs the same uses. -/

namespace DocCompiler

namespace Snippet

def Resolved.received (r : Resolved) : Resolved := ⟨r.snippet.received, r.version.received⟩

theorem pick?_received (b : Bundle) (revision : Option UInt32) :
    b.received.pick? revision = (b.pick? revision).map Resolved.received := by
  simp only [Bundle.pick?, Bundle.version?, Bundle.received, List.find?_map, Option.map_map]
  rfl

/-- `index'` resolves what `index` resolves, to the same but for points in time. -/
structure Index.Receives (index' index : Index) : Prop where
  resolve?_eq : ∀ reference revision,
    index'.resolve? reference revision = (index.resolve? reference revision).map Resolved.received
  resolveById?_eq : ∀ id revision,
    index'.resolveById? id revision = (index.resolveById? id revision).map Resolved.received

theorem receives_ofBundles (bundles : List Bundle) :
    (Index.ofBundles (bundles.map (·.received))).Receives (Index.ofBundles bundles) := by
  have hid (id : String) : (Index.ofBundles (bundles.map (·.received))).byId[id]? =
      (Index.ofBundles bundles).byId[id]?.map (·.received) := by
    rw [Index.byId_eq, Index.byId_eq]
    exact List.find?_map
  have hpath (key : String) : (Index.ofBundles (bundles.map (·.received))).byPath[key]? =
      (Index.ofBundles bundles).byPath[key]?.map (·.received) := by
    rw [Index.byPath_eq, Index.byPath_eq]
    exact List.find?_map
  have hpick (b : Option Bundle) (revision : Option UInt32) :
      (b.map (·.received)).bind (·.pick? revision) =
        (b.bind (·.pick? revision)).map Resolved.received := by
    cases b with
    | none => rfl
    | some b => exact pick?_received b revision
  refine ⟨fun reference revision => ?_, fun id revision => ?_⟩
  · simp only [Index.resolve?, Index.resolveByPath?, hid, hpath]
    cases (Index.ofBundles bundles).byId[reference]? with
    | none => exact hpick _ revision
    | some b => exact pick?_received b revision
  · simp only [Index.resolveById?, hid]
    exact hpick _ revision

theorem Index.Receives.alike {index index' : Index} (h : index'.Receives index) :
    index'.Alike index := by
  have hrel (found : Option Resolved) :
      Option.Rel Resolved.Alike (found.map Resolved.received) found := by
    cases found with
    | none => exact .none
    | some r => exact .some ⟨rfl, rfl, rfl, rfl, rfl⟩
  refine ⟨fun reference revision => ?_, fun id revision => ?_⟩
  · rw [h.resolve?_eq]
    exact hrel _
  · rw [h.resolveById?_eq]
    exact hrel _

end Snippet

/-- The request with its points in time as they come out at the far end. -/
def CompileRequest.retimed (r : CompileRequest) : CompileRequest :=
  { r with
    document := { r.document with
      createdAt := r.document.createdAt.map (·.sent)
      updatedAt := r.document.updatedAt.map (·.sent) }
    snippets := r.snippets.map (·.received) }

theorem CompileRequest.alike_received (r : CompileRequest) :
    (Snippet.Index.ofBundles (r.snippets.map (·.received))).Alike (.ofBundles r.snippets) :=
  (Snippet.receives_ofBundles r.snippets).alike

theorem Preflight.run_retimed (r : CompileRequest) : run [] r.retimed = run [] r := by
  have hproblems : problems r.retimed =
      problems { r with snippets := r.snippets.map (·.received) } := rfl
  exact run_congr (hproblems.trans (problems_alike r.alike_received)) (List.forall_mem_nil _)

namespace Compile

theorem draft_retimed (isKnown : String → Bool) (r : CompileRequest) :
    Draft.of isKnown r.retimed = Draft.of isKnown r := by
  have hdraft : Draft.of isKnown r.retimed =
      Draft.of isKnown { r with snippets := r.snippets.map (·.received) } := rfl
  rw [hdraft, draft_alike r.alike_received]

theorem compileDocument_retimed (r : CompileRequest) :
    compileDocument r.retimed = compileDocument r := by
  simp only [compileDocument, draft_retimed, Result.of, Preflight.run_retimed]
  rfl

end Compile

/-- The encoding of the request tells it from all others: no default is null, and no option of a
block has the name of a field. -/
structure CompileRequest.Unambiguous (r : CompileRequest) : Prop where
  defaults : ∀ d ∈ r.document.definitions, d.defaultValue ≠ some .null
  options : ∀ b ∈ r.document.blocks, ∀ m, b.metadata = some m →
    m.options.find? "formatter" = none ∧ m.options.find? "language" = none

theorem BlockMetadata.received_of_none {m : BlockMetadata}
    (hformatter : m.options.find? "formatter" = none)
    (hlanguage : m.options.find? "language" = none) : m.received = some m := by
  have herase : (m.options.erase "formatter").erase "language" = m.options := by
    apply SortedMap.ext_find?
    intro key
    rw [SortedMap.find?_erase, SortedMap.find?_erase]
    by_cases hkey : key = "language"
    · simp [hkey, hlanguage]
    · by_cases hkey' : key = "formatter"
      · simp [hkey', hformatter]
      · simp [hkey, hkey']
  rw [received, hformatter, hlanguage, herase]
  rfl

theorem CompileRequest.Unambiguous.received {r : CompileRequest} (h : r.Unambiguous) :
    r.received = some r.retimed := by
  have hblock : ∀ b ∈ r.document.blocks, b.received = some b := by
    intro b hb
    have hoptions := h.options b hb
    obtain ⟨id, sequence, metadata, content⟩ := b
    cases metadata with
    | none => rfl
    | some m =>
      obtain ⟨hformatter, hlanguage⟩ := hoptions m rfl
      simp only [Block.received, Option.elim, m.received_of_none hformatter hlanguage]
      rfl
  have hblocks : r.document.blocks.mapM Block.received = some r.document.blocks := by
    generalize r.document.blocks = blocks at hblock
    induction blocks with
    | nil => rfl
    | cons b rest ih =>
      rw [List.mapM_cons, hblock b (.head _), ih fun b hb => hblock b (.tail _ hb)]
      rfl
  have hdefinitions : r.document.definitions.map (·.received) = r.document.definitions :=
    (List.map_congr_left fun d hd => d.received_of_ne_null (h.defaults d hd)).trans
      (List.map_id' _)
  rw [CompileRequest.received, Document.received, hblocks, hdefinitions]
  rfl

end DocCompiler
