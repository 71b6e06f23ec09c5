import DocCompiler.Compile.Draft
import DocCompiler.Proofs.Transclusion.Recursion
import DocCompiler.Proofs.Transclusion.Uses

/-! What the blocks of a document come to, each by itself. A block is rendered in a context in
which nothing is being expanded, so its text, its findings and its uses of snippets do not depend
on the blocks before it; a draft only lines them up. -/

namespace DocCompiler.Compile

open Snippet (Index Resolved)
open Transclusion (Context Expansion ProvenanceLog expand expansionOf)

/-- A block with its snippets expanded, what is found in it, and the uses it logs. -/
structure Rendering where
  text : String
  findings : List Finding
  uses : List (Resolved × SnippetMode)

namespace Rendering

def ofExpansion (before : List (Resolved × SnippetMode)) (e : Expansion) : Rendering :=
  ⟨e.text, e.findings, before ++ e.opened.map (·, .transclude)⟩

def of (index : Index) (b : Block) : Rendering :=
  match b.content with
  | .markdown body => .ofExpansion [] (expansionOf index [] body)
  | .snippet snippetId revision mode =>
    match index.resolve? snippetId revision with
    | some r => .ofExpansion [(r, mode)] (expansionOf index [r.snippet.id] r.body)
    | none =>
      ⟨missingPlaceholder snippetId,
        [.snippetNotFound snippetId (revision.elim .null (.nat ·.toNat)) []], []⟩
  | .divider style => ⟨style.markdown, [], []⟩
  | .group .. | .comment .. => ⟨"", [], []⟩

theorem forall_mem_findings {index : Index} {b : Block} {P : Finding → Prop}
    (hblock : ∀ (snippetId : String) (revision : Option UInt32),
      P (.snippetNotFound snippetId (revision.elim .null (.nat ·.toNat)) []))
    (htoken : ∀ (t : Transclusion.Token) (stack : List String),
      P (.snippetNotFound t.identifier t.shownRevision stack))
    (hcycle : ∀ (id : String) (stack : List String), P (.snippetCycle id stack)) :
    ∀ f ∈ (of index b).findings, P f := by
  have hexpanded (stack : List String) (text : String) :
      ∀ f ∈ (expansionOf index stack text).findings, P f :=
    Transclusion.forall_mem_findings htoken hcycle _ _
  obtain ⟨id, sequence, metadata, content⟩ := b
  intro f hf
  cases content with
  | markdown body => exact hexpanded _ _ f hf
  | snippet snippetId revision mode =>
    cases hres : index.resolve? snippetId revision with
    | some r =>
      simp only [of, hres] at hf
      exact hexpanded _ _ f hf
    | none =>
      simp only [of, hres, List.mem_singleton] at hf
      subst hf
      exact hblock snippetId revision
  | divider | group | comment => cases hf

end Rendering

theorem agrees_fresh (log : ProvenanceLog) (findings : Array Finding) :
    (Context.fresh log findings).Agrees := Transclusion.Context.agrees_empty

theorem foldl_record_ofExpansion (before : List (Resolved × SnippetMode)) (e : Expansion)
    (log : ProvenanceLog) :
    (Rendering.ofExpansion before e).uses.foldl (fun log u => log.record u.1 u.2) log =
      e.opened.foldl (·.record · .transclude)
        (before.foldl (fun log u => log.record u.1 u.2) log) := by
  rw [Rendering.ofExpansion, List.foldl_append, List.foldl_map]

theorem renderBlock_fresh (index : Index) (b : Block) (log : ProvenanceLog)
    (findings : Array Finding) :
    (renderBlock index b (.fresh log findings)).1 = (Rendering.of index b).text ∧
    (renderBlock index b (.fresh log findings)).2.findings =
      findings ++ (Rendering.of index b).findings ∧
    (renderBlock index b (.fresh log findings)).2.log =
      (Rendering.of index b).uses.foldl (fun log u => log.record u.1 u.2) log := by
  have hfresh := agrees_fresh log findings
  obtain ⟨id, sequence, metadata, content⟩ := b
  cases content with
  | markdown body =>
    obtain ⟨onStack, -, heq, -⟩ := Transclusion.exists_expand_eq index body hfresh
    simp only [renderBlock, Rendering.of, foldl_record_ofExpansion, heq]
    exact ⟨rfl, rfl, rfl⟩
  | snippet snippetId revision mode =>
    cases hres : index.resolve? snippetId revision with
    | some r =>
      have hctx := (hfresh.record r mode).enter r.snippet.id
      obtain ⟨onStack, -, heq, -⟩ := Transclusion.exists_expand_eq index r.body hctx
      simp only [renderBlock, Rendering.of, hres, Transclusion.includeSnippet,
        foldl_record_ofExpansion, heq]
      exact ⟨rfl, rfl, rfl⟩
    | none =>
      simp only [renderBlock, Rendering.of, hres]
      exact ⟨trivial, rfl, rfl⟩
  | divider | group | comment => exact ⟨rfl, Array.appendList_nil.symm, rfl⟩

namespace Draft

/-- What is found in a block, the formatter it names included. -/
def blockFindings (index : Index) (values : Variables) (isKnown : String → Bool) (b : Block) :
    List Finding :=
  (Rendering.of index b).findings ++
    (Segment.of isKnown b (substitute (Rendering.of index b).text values).result).2

theorem findings_add (index : Index) (values : Variables) (isKnown : String → Bool) (d : Draft)
    (b : Block) : (d.add index values isKnown b).findings =
      d.findings ++ blockFindings index values isKnown b := by
  obtain ⟨segments, log, findings, missing⟩ := d
  obtain ⟨htext, hfindings, -⟩ := renderBlock_fresh index b log findings
  rw [add, blockFindings, ← htext]
  dsimp only
  rw [hfindings]
  exact Array.ext' (by simp)

def blockSegment (index : Index) (values : Variables) (isKnown : String → Bool) (b : Block) :
    Segment :=
  (Segment.of isKnown b (substitute (Rendering.of index b).text values).result).1

theorem segments_add (index : Index) (values : Variables) (isKnown : String → Bool) (d : Draft)
    (b : Block) : (d.add index values isKnown b).segments =
      d.segments.push (blockSegment index values isKnown b) := by
  obtain ⟨segments, log, findings, missing⟩ := d
  rw [add, blockSegment, ← (renderBlock_fresh index b log findings).1]

theorem log_add (index : Index) (values : Variables) (isKnown : String → Bool) (d : Draft)
    (b : Block) : (d.add index values isKnown b).log =
      (Rendering.of index b).uses.foldl (fun log u => log.record u.1 u.2) d.log := by
  obtain ⟨segments, log, findings, missing⟩ := d
  rw [add, ← (renderBlock_fresh index b log findings).2.2]

/-- Where each block adds a part of its own, the draft has the parts one after the other. -/
theorem foldl_add {α : Type} (view : Draft → List α) {part : Block → List α} {index : Index}
    {values : Variables} {isKnown : String → Bool}
    (h : ∀ d b, view (add index values isKnown d b) = view d ++ part b) (blocks : List Block)
    (d : Draft) :
    view (blocks.foldl (add index values isKnown) d) = view d ++ blocks.flatMap part := by
  induction blocks generalizing d with
  | nil => simp
  | cons b rest ih => rw [List.foldl_cons, ih, h, List.flatMap_cons, List.append_assoc]

theorem findings_of (isKnown : String → Bool) (r : CompileRequest) :
    (of isKnown r).findings.toList = r.document.orderedBlocks.flatMap
      (blockFindings (Index.ofBundles r.snippets) (r.document.effectiveVariables r.values)
        isKnown) :=
  foldl_add (·.findings.toList) (fun d b => by rw [findings_add]; simp) _ empty

theorem segments_of (isKnown : String → Bool) (r : CompileRequest) :
    (of isKnown r).segments.toList = r.document.orderedBlocks.map
      (blockSegment (Index.ofBundles r.snippets) (r.document.effectiveVariables r.values)
        isKnown) := by
  rw [List.map_eq_flatMap]
  exact foldl_add (·.segments.toList) (fun d b => by rw [segments_add]; simp) _ empty

theorem log_of (isKnown : String → Bool) (r : CompileRequest) :
    (of isKnown r).log = (r.document.orderedBlocks.flatMap fun b =>
      (Rendering.of (Index.ofBundles r.snippets) b).uses).foldl
        (fun log u => log.record u.1 u.2) .empty := by
  have hfold : ∀ (blocks : List Block) (index : Index) (values : Variables) (d : Draft),
      (blocks.foldl (add index values isKnown) d).log = (blocks.flatMap fun b =>
        (Rendering.of index b).uses).foldl (fun log u => log.record u.1 u.2) d.log := by
    intro blocks index values
    induction blocks with
    | nil => intro d; rfl
    | cons b rest ih =>
      intro d
      rw [List.foldl_cons, ih, log_add, List.flatMap_cons, List.foldl_append]
  exact hfold _ _ _ empty

/-- The entries of a draft are the first ones of each key among the uses of its blocks. -/
theorem entries_of (isKnown : String → Bool) (r : CompileRequest) :
    (of isKnown r).log.entries.toList = Transclusion.firstOfEachKey
      (r.document.orderedBlocks.flatMap fun b =>
        (Rendering.of (Index.ofBundles r.snippets) b).uses.map fun u => .of u.1 u.2) := by
  rw [log_of, ProvenanceLog.entries_foldl_record, List.map_flatMap]

/-- The keys without a value are those of the blocks, the last block first. -/
theorem missing_of (isKnown : String → Bool) (r : CompileRequest) :
    (of isKnown r).missing = (r.document.orderedBlocks.reverse.flatMap fun b =>
      (substitute (Rendering.of (Index.ofBundles r.snippets) b).text
        (r.document.effectiveVariables r.values)).missing) := by
  have hadd (index : Index) (values : Variables) (d : Draft) (b : Block) :
      (d.add index values isKnown b).missing =
        (substitute (Rendering.of index b).text values).missing ++ d.missing := by
    obtain ⟨segments, log, findings, missing⟩ := d
    rw [add, ← (renderBlock_fresh index b log findings).1]
  have hfold : ∀ (blocks : List Block) (index : Index) (values : Variables) (d : Draft),
      (blocks.foldl (add index values isKnown) d).missing =
        (blocks.reverse.flatMap fun b =>
          (substitute (Rendering.of index b).text values).missing) ++ d.missing := by
    intro blocks index values
    induction blocks with
    | nil => intro d; rfl
    | cons b rest ih =>
      intro d
      rw [List.foldl_cons, ih, hadd, List.reverse_cons, List.flatMap_append]
      simp
  rw [of, hfold, empty, List.append_nil]

theorem eq_of_mem_segment {isKnown : String → Bool} {b : Block} {text : String} {f : Finding}
    (hf : f ∈ (Segment.of isKnown b text).2) : ∃ id, f = .formatterNotFound b.id id := by
  unfold Segment.of at hf
  split at hf
  case h_1 => cases hf
  case h_2 id m _ =>
    split at hf
    case isTrue => cases hf
    case isFalse =>
      split at hf
      case isTrue => cases hf
      case isFalse => exact ⟨id, List.mem_singleton.1 hf⟩

theorem mem_allFindings {isKnown : String → Bool} {r : CompileRequest} {f : Finding}
    (hf : f ∈ (of isKnown r).allFindings) :
    (∃ b ∈ r.document.orderedBlocks, f ∈ (Rendering.of (Index.ofBundles r.snippets) b).findings) ∨
      (∃ blockId id, f = .formatterNotFound blockId id) ∨ ∃ key, f = .variableMissing key := by
  rcases List.mem_append.1 hf with hf | hf
  · rw [findings_of] at hf
    obtain ⟨b, hb, hf⟩ := List.mem_flatMap.1 hf
    rcases List.mem_append.1 hf with hf | hf
    · exact .inl ⟨b, hb, hf⟩
    · obtain ⟨id, rfl⟩ := eq_of_mem_segment hf
      exact .inr (.inl ⟨b.id, id, rfl⟩)
  · obtain ⟨key, -, rfl⟩ := List.mem_map.1 hf
    exact .inr (.inr ⟨key, rfl⟩)

end Draft
end DocCompiler.Compile
