import DocCompiler.Proofs.Compile.Agreement
import DocCompiler.Proofs.Snippet.Integrity

/-! Where the provenance of a result comes from. Every entry is a use of a version of the library,
made by a block or by a body that it opens, before any value is put in. So in a library of intact
bundles the entries tell the truth about what went into the document, and neither values nor
formatters can add to them. -/

namespace DocCompiler

open Snippet (Bundle IntegrityFault Index Resolved)
open Transclusion (ProvenanceEntry)

def Snippet.Resolved.IsOf (bundles : List Bundle) (r : Resolved) : Prop :=
  ∃ b ∈ bundles, r.snippet = b.snippet ∧ r.version ∈ b.versions

/-- Some bundle of this id and path has a version of this revision, and the hash that is recorded is
the hash of its body and frontmatter. -/
def Transclusion.ProvenanceEntry.Authentic (bundles : List Bundle) (e : ProvenanceEntry) : Prop :=
  ∃ b ∈ bundles, b.snippet.id = e.snippetId ∧ b.snippet.path = e.path ∧
    ∃ v ∈ b.versions, v.rev = e.revision ∧ sealHash v.body v.frontmatter = e.hash

theorem Snippet.Resolved.IsOf.authentic {bundles : List Bundle} {r : Resolved}
    (h : r.IsOf bundles) (hintact : ∀ b ∈ bundles, b.Intact) (mode : SnippetMode) :
    (ProvenanceEntry.of r mode).Authentic bundles := by
  obtain ⟨b, hb, hsnippet, hversion⟩ := h
  refine ⟨b, hb, ?_, ?_, r.version, hversion, rfl, ?_⟩
  · rw [← hsnippet]
    rfl
  · rw [← hsnippet]
    rfl
  · exact ((hintact b hb).hashes r.version hversion).symm

theorem Transclusion.isOf_of_mem_opened {index : Index} (stack : List String)
    (pieces : List (Text.Piece Token)) :
    ∀ r ∈ (expandPieces index stack pieces).opened, r.IsOf index.bundles := by
  induction stack, pieces using expandPieces.induct index with
  | case1 stack =>
    intro r hr
    rw [expandPieces] at hr
    cases hr
  | case2 stack c rest ih =>
    intro r hr
    rw [expandPieces] at hr
    exact ih r hr
  | case3 stack t rest hnone ih =>
    intro r hr
    rw [expandPieces_missing hnone] at hr
    exact ih r hr
  | case4 stack t rest v hv hs ih =>
    intro r hr
    rw [expandPieces_cycle hv hs] at hr
    exact ih r hr
  | case5 stack t rest v hv hs ih_body ih =>
    intro r hr
    rw [expandPieces_inside hv hs] at hr
    rcases List.mem_append.1 hr with hr | hr
    · rcases List.mem_cons.1 hr with rfl | hr
      · exact bundle_of_target? hv
      · exact ih_body r hr
    · exact ih r hr

namespace Compile

theorem isOf_of_mem_uses {index : Index} {b : Block} :
    ∀ u ∈ (Rendering.of index b).uses, u.1.IsOf index.bundles := by
  obtain ⟨id, sequence, metadata, content⟩ := b
  intro u hu
  have hopened {stack : List String} {text : String}
      (hu : u ∈ (Transclusion.expansionOf index stack text).opened.map (·, .transclude)) :
      u.1.IsOf index.bundles := by
    obtain ⟨r, hr, rfl⟩ := List.mem_map.1 hu
    exact Transclusion.isOf_of_mem_opened _ _ r hr
  cases content with
  | markdown body => exact hopened hu
  | snippet snippetId revision mode =>
    cases hres : index.resolve? snippetId revision with
    | some r =>
      simp only [Rendering.of, hres] at hu
      rcases List.mem_cons.1 hu with rfl | hu
      · exact Transclusion.bundle_of_resolve? hres
      · exact hopened hu
    | none =>
      simp only [Rendering.of, hres] at hu
      cases hu
  | divider | group | comment => cases hu

theorem isOf_of_mem_entries {isKnown : String → Bool} {r : CompileRequest} {e : ProvenanceEntry}
    (he : e ∈ (Draft.of isKnown r).log.entries.toList) :
    ∃ v mode, v.IsOf r.snippets ∧ e = .of v mode := by
  rw [Draft.entries_of] at he
  obtain ⟨b, -, he⟩ := List.mem_flatMap.1 (Transclusion.mem_of_mem_firstOfEachKey he)
  obtain ⟨u, hu, rfl⟩ := List.mem_map.1 he
  exact ⟨u.1, u.2, isOf_of_mem_uses u hu, rfl⟩

section Verified

variable {b : Bundle} {rest bundles : List Bundle} {f : IntegrityFault}

theorem forM_verify_of_ok (h : b.verify = .ok ()) :
    (b :: rest).forM (·.verify) = rest.forM (·.verify) := by
  show (b.verify >>= fun _ => rest.forM (·.verify)) = _
  rw [h]
  rfl

theorem forM_verify_of_error (h : b.verify = .error f) :
    (b :: rest).forM (·.verify) = .error f := by
  show (b.verify >>= fun _ => rest.forM (·.verify)) = _
  rw [h]
  rfl

theorem forM_verify_eq_ok :
    bundles.forM (·.verify) = .ok () ↔ ∀ b ∈ bundles, b.verify = .ok () := by
  induction bundles with
  | nil => exact ⟨fun _ => List.forall_mem_nil _, fun _ => rfl⟩
  | cons b rest ih =>
    rw [List.forall_mem_cons]
    cases hb : b.verify with
    | error f => simp [forM_verify_of_error hb]
    | ok => rw [forM_verify_of_ok hb, ih, and_iff_right rfl]

theorem forM_verify_eq_error :
    bundles.forM (·.verify) = .error f ↔ ∃ before b after, bundles = before ++ b :: after ∧
      (∀ a ∈ before, a.verify = .ok ()) ∧ b.verify = .error f := by
  constructor
  · intro h
    induction bundles with
    | nil => cases h
    | cons b rest ih =>
      cases hb : b.verify with
      | error g =>
        rw [forM_verify_of_error hb] at h
        exact ⟨[], b, rest, rfl, List.forall_mem_nil _, hb.trans h⟩
      | ok =>
        rw [forM_verify_of_ok hb] at h
        obtain ⟨before, c, after, rfl, hbefore, hc⟩ := ih h
        exact ⟨b :: before, c, after, rfl, List.forall_mem_cons.2 ⟨hb, hbefore⟩, hc⟩
  · rintro ⟨before, b, after, rfl, hbefore, hb⟩
    induction before with
    | nil => exact forM_verify_of_error hb
    | cons a before ih =>
      obtain ⟨ha, hbefore⟩ := List.forall_mem_cons.1 hbefore
      exact (forM_verify_of_ok ha).trans (ih hbefore)

variable {p : Pipeline} {r : CompileRequest}

theorem compileVerified_eq_ok {o : Sandbox.Outcome Result} :
    p.compileVerified r = .ok o ↔ (∀ b ∈ r.snippets, b.verify = .ok ()) ∧ o = p.compile r := by
  rw [← forM_verify_eq_ok]
  show (Pipeline.verify r >>= fun _ => .ok (p.compile r)) = .ok o ↔ Pipeline.verify r = .ok () ∧ _
  cases Pipeline.verify r with
  | error f => simp [bind, Except.bind]
  | ok => simp [bind, Except.bind, eq_comm]

theorem compileVerified_eq_error :
    p.compileVerified r = .error f ↔ r.snippets.forM (·.verify) = .error f := by
  show (Pipeline.verify r >>= fun _ => .ok (p.compile r)) = .error f ↔ Pipeline.verify r = .error f
  cases Pipeline.verify r with
  | error g => simp [bind, Except.bind]
  | ok => simp [bind, Except.bind]

end Verified

/-- **Verified provenance is authentic.** A pipeline compiles with a check if every bundle passes,
and stops at the fault of the first bundle that does not. What it compiles then is what it compiles
without the check, and every entry of the provenance is that of a version of the library, with the
hash of its body and frontmatter. The default pipeline comes to a result. -/
theorem compileVerified_authentic (p : Pipeline) (r : CompileRequest) :
    ((∃ o, p.compileVerified r = .ok o) ↔ ∀ b ∈ r.snippets, b.verify = .ok ()) ∧
    (∀ f, p.compileVerified r = .error f ↔ ∃ before b after, r.snippets = before ++ b :: after ∧
      (∀ a ∈ before, a.verify = .ok ()) ∧ b.verify = .error f) ∧
    (∀ o, p.compileVerified r = .ok o → o = p.compile r ∧
      ∀ result, o.result = .ok result → ∀ e ∈ result.provenance, e.Authentic r.snippets) ∧
    (Pipeline.default.compileVerified r = .ok ⟨[], .ok (compileDocument r)⟩ ↔
      ∀ b ∈ r.snippets, b.verify = .ok ()) := by
  refine ⟨?_, fun f => ?_, fun o ho => ?_, ?_⟩
  · simp only [compileVerified_eq_ok, exists_and_left, exists_eq, and_true]
  · rw [compileVerified_eq_error, forM_verify_eq_error]
  · obtain ⟨hok, rfl⟩ := compileVerified_eq_ok.1 ho
    refine ⟨rfl, fun result hresult e he => ?_⟩
    obtain ⟨texts, rfl⟩ := exists_texts_of_compile hresult
    obtain ⟨v, mode, hv, rfl⟩ := isOf_of_mem_entries he
    exact hv.authentic (fun b hb => b.verify_eq_ok.1 (hok b hb)) mode
  · rw [compileVerified_eq_ok, Pipeline.compile_default, and_iff_left rfl]

theorem intact_atPath (id path body : String) : (atPath id path body).Intact where
  distinct := List.nodup_singleton _
  hashes v hv := by
    rw [List.mem_singleton.1 hv]
    rfl
  parents v hv parent hparent := by
    rw [List.mem_singleton.1 hv] at hparent
    cases hparent
  head := ⟨_, List.mem_singleton_self _, rfl⟩

theorem compileVerified_authentic_shadowed :
    let r := shadowed "old" "new"
    Pipeline.default.compileVerified r = .ok ⟨[], .ok (compileDocument r)⟩ ∧
      ∃ e ∈ (compileDocument r).provenance, e.path = "new.md" ∧ e.Authentic r.snippets := by
  intro r
  obtain ⟨-, -, hauthentic, hreturns⟩ := compileVerified_authentic Pipeline.default r
  have hok : ∀ b ∈ r.snippets, b.verify = .ok () := by
    intro b hb
    refine b.verify_eq_ok.2 ?_
    rcases List.mem_pair.1 hb with rfl | rfl
    · exact intact_atPath ..
    · exact intact_atPath ..
  have hcompiled := hreturns.2 hok
  have hres : (Index.ofBundles r.snippets).resolve? "new.md" none =
      some ⟨(atPath "a" "new.md" "new").snippet, .sealed 1 none "new" ∅⟩ :=
    Index.resolve?_of_path (b := atPath "a" "new.md" "new") rfl (find?_shadowed "old" "new")
  have hentry : .of ⟨(atPath "a" "new.md" "new").snippet, .sealed 1 none "new" ∅⟩ .transclude ∈
      (compileDocument r).provenance := by
    show _ ∈ (Draft.of _ r).log.entries.toList
    rw [Draft.entries_of, show r.document.orderedBlocks = _ from orderedBlocks_requestOf,
      List.flatMap_singleton]
    simp only [Rendering.of, Block.snippet, hres, Rendering.ofExpansion, List.cons_append,
      List.map_cons, Transclusion.firstOfEachKey_cons]
    exact List.mem_cons_self ..
  exact ⟨hcompiled, _, hentry, rfl, (hauthentic _ hcompiled).2 _ rfl _ hentry⟩

end Compile

/-- What is reported is a reference that leads nowhere, or one to a snippet being expanded. -/
def Diagnostic.isOnReference (d : Diagnostic) : Bool :=
  d.code = Finding.snippetNotFoundCode || d.code = Finding.snippetCycleCode

theorem Finding.isOnReference_toDiagnostic (f : Finding) :
    f.toDiagnostic.isOnReference = true ↔
      (∃ reference revision stack, f = .snippetNotFound reference revision stack) ∨
        ∃ id stack, f = .snippetCycle id stack := by
  simp only [Diagnostic.isOnReference, Bool.or_eq_true, decide_eq_true_eq,
    code_eq_snippetNotFoundCode, code_eq_snippetCycleCode]

namespace Compile

/-- Results in which the same snippets are used, and the same references are reported. -/
structure Result.SameSnippets (a b : Result) : Prop where
  provenance : a.provenance = b.provenance
  diagnostics : a.diagnostics.filter (·.isOnReference) = b.diagnostics.filter (·.isOnReference)

theorem isOnReference_of_mem_rendering {index : Index} {b : Block} :
    ∀ f ∈ (Rendering.of index b).findings, f.toDiagnostic.isOnReference = true := by
  have hnotFound (reference : String) (revision : Json) (stack : List String) :
      (Finding.snippetNotFound reference revision stack).toDiagnostic.isOnReference = true :=
    (Finding.isOnReference_toDiagnostic _).2 (.inl ⟨_, _, _, rfl⟩)
  exact Rendering.forall_mem_findings (fun _ _ => hnotFound _ _ _) (fun _ _ => hnotFound _ _ _)
    fun _ _ => (Finding.isOnReference_toDiagnostic _).2 (.inr ⟨_, _, rfl⟩)

/-- What a draft reports of references is found in its blocks before any value is put in. -/
theorem filter_allFindings (isKnown : String → Bool) (r : CompileRequest) :
    (Draft.of isKnown r).allFindings.filter (·.toDiagnostic.isOnReference) =
      r.document.orderedBlocks.flatMap fun b =>
        (Rendering.of (Index.ofBundles r.snippets) b).findings := by
  have hblock (values : Variables) (b : Block) :
      (Draft.blockFindings (Index.ofBundles r.snippets) values isKnown b).filter
        (·.toDiagnostic.isOnReference) = (Rendering.of (Index.ofBundles r.snippets) b).findings := by
    rw [Draft.blockFindings, List.filter_append,
      List.filter_eq_self.2 isOnReference_of_mem_rendering, List.filter_eq_nil_iff.2,
      List.append_nil]
    intro f hf
    obtain ⟨id, rfl⟩ := Draft.eq_of_mem_segment hf
    simp [Finding.isOnReference_toDiagnostic]
  have hmissing (keys : List String) :
      (keys.map Finding.variableMissing).filter (·.toDiagnostic.isOnReference) = [] := by
    rw [List.filter_eq_nil_iff]
    intro f hf
    obtain ⟨key, -, rfl⟩ := List.mem_map.1 hf
    simp [Finding.isOnReference_toDiagnostic]
  rw [Draft.allFindings, Draft.findings_of, List.filter_append, List.filter_flatMap, hmissing,
    List.append_nil]
  simp only [hblock]

section Compiled

variable {p : Pipeline} {r : CompileRequest} {result : Result}
  (h : (p.compile r).result = .ok result)
include h

theorem filter_diagnostics :
    result.diagnostics.filter (·.isOnReference) =
      (r.document.orderedBlocks.flatMap fun b =>
        (Rendering.of (Index.ofBundles r.snippets) b).findings).map (·.toDiagnostic) := by
  obtain ⟨texts, rfl⟩ := exists_texts_of_compile h
  show List.filter _ (List.map _ _) = _
  rw [List.filter_map, ← filter_allFindings]
  rfl

theorem provenance_eq :
    result.provenance = Transclusion.firstOfEachKey (r.document.orderedBlocks.flatMap fun b =>
      (Rendering.of (Index.ofBundles r.snippets) b).uses.map fun u => .of u.1 u.2) := by
  obtain ⟨texts, rfl⟩ := exists_texts_of_compile h
  exact Draft.entries_of _ r

end Compiled

/-- **Values pull in no snippets.** Whatever two requests with the same blocks and the same library
have otherwise, be it values and defaults of variables, settings or statuses, and whatever
formatters they go through, the same snippets go into both documents, and the same references are
reported. -/
theorem sameSnippets_of_blocks {r r' : CompileRequest}
    (hblocks : r'.document.blocks = r.document.blocks) (hsnippets : r'.snippets = r.snippets) :
    (compileDocument r').SameSnippets (compileDocument r) ∧
      ∀ (p p' : Pipeline) (result result' : Result), (p.compile r).result = .ok result →
        (p'.compile r').result = .ok result' → result'.SameSnippets result := by
  have hordered : r'.document.orderedBlocks = r.document.orderedBlocks := by
    rw [Document.orderedBlocks, hblocks, Document.orderedBlocks]
  have hsame : ∀ (p p' : Pipeline) (result result' : Result), (p.compile r).result = .ok result →
      (p'.compile r').result = .ok result' → result'.SameSnippets result := by
    intro p p' result result' h h'
    constructor
    · rw [provenance_eq h, provenance_eq h', hordered, hsnippets]
    · rw [filter_diagnostics h, filter_diagnostics h', hordered, hsnippets]
  refine ⟨hsame .default .default _ _ ?_ ?_, hsame⟩
  · rw [Pipeline.compile_default]
  · rw [Pipeline.compile_default]

theorem sameSnippets_of_blocks_value :
    let r := requestOf (.markdown "block" 0 "\x7b\x7bx\x7d\x7d \x7b\x7b> c\x7d\x7d")
      [.single "a" "text of a"]
    let r' := { r with values := SortedMap.ofList [("x", .text "\x7b\x7b> a\x7d\x7d")] }
    r'.document.blocks = r.document.blocks ∧ r'.snippets = r.snippets ∧
      (compileDocument r').SameSnippets (compileDocument r) := by
  intro r r'
  have hblocks : r'.document.blocks = r.document.blocks := rfl
  have hsnippets : r'.snippets = r.snippets := rfl
  exact ⟨hblocks, hsnippets, (sameSnippets_of_blocks hblocks hsnippets).1⟩

end Compile
end DocCompiler
