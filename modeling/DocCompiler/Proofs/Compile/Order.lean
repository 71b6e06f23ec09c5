import DocCompiler.Proofs.Compile.Agreement
import DocCompiler.Proofs.Compile.Lookups

/-! What the order of things in a request means for its result. Where no two bundles claim one
reference, and no two versions one revision, the order of the library means nothing. The order of
the blocks counts among blocks of the same sequence number, and nowhere else. -/

namespace DocCompiler

namespace Compile

/-- Requests that come to the same: without any further rules, and in each pipeline whose further
rules do not tell them apart. -/
structure ComesToSame (r' r : CompileRequest) : Prop where
  compileDocument : compileDocument r' = compileDocument r
  compile : ∀ p : Pipeline, (∀ rule ∈ p.rules, rule.check r' = rule.check r) →
    p.compile r' = p.compile r

/-- All that a compilation takes from a request are drafts, the line ending and the problems. -/
theorem ComesToSame.of_parts {r' r : CompileRequest}
    (hdraft : ∀ isKnown, Draft.of isKnown r' = Draft.of isKnown r)
    (hending : r'.document.lineEnding = r.document.lineEnding)
    (hproblems : Preflight.problems r' = Preflight.problems r) : ComesToSame r' r := by
  have hcompile (p : Pipeline) (hrules : ∀ rule ∈ p.rules, rule.check r' = rule.check r) :
      p.compile r' = p.compile r := by
    have hresult : Result.of p.filters p.rules r' = Result.of p.filters p.rules r := by
      funext d texts
      simp only [Result.of, hending, Preflight.run_congr hproblems hrules]
    simp only [Pipeline.compile, hdraft, hresult]
  refine ⟨?_, hcompile⟩
  have hdefault := hcompile .default (List.forall_mem_nil _)
  rw [Pipeline.compile_default, Pipeline.compile_default] at hdefault
  simpa using hdefault

end Compile

theorem find?_perm {α κ : Type} [BEq κ] [LawfulBEq κ] {key : α → κ} {l' l : List α}
    (hperm : l'.Perm l) (hkeys : (l.map key).Nodup) (k : κ) :
    l'.find? (key · == k) = l.find? (key · == k) := by
  have hkeys' : (l'.map key).Nodup := (hperm.map key).nodup_iff.2 hkeys
  cases hfound : l.find? (key · == k) with
  | some a =>
    obtain rfl : key a = k := by simpa using List.find?_some hfound
    exact find?_key_eq_some hkeys' (hperm.mem_iff.2 (List.mem_of_find?_eq_some hfound))
  | none =>
    rw [List.find?_eq_none] at hfound ⊢
    exact fun a ha => hfound a (hperm.mem_iff.1 ha)

namespace Snippet

/-- The same snippet with the same versions, in whatever order. -/
structure Bundle.Reordered (b' b : Bundle) : Prop where
  snippet : b'.snippet = b.snippet
  versions : b'.versions.Perm b.versions

def Reordered (bundles' bundles : List Bundle) : Prop :=
  ∃ listed, listed.Perm bundles ∧ List.Forall₂ Bundle.Reordered bundles' listed

/-- No two bundles have the same id, or the same path but for what does not count in a path, and no
two versions of a bundle the same revision. -/
structure Distinct (bundles : List Bundle) : Prop where
  ids : (bundles.map (·.snippet.id)).Nodup
  paths : (bundles.map (pathKey ·.snippet.path)).Nodup
  revisions : ∀ b ∈ bundles, (b.versions.map (·.rev)).Nodup

theorem Bundle.Reordered.pick?_eq {b' b : Bundle} (h : b'.Reordered b)
    (hrevisions : (b.versions.map (·.rev)).Nodup) : b'.pick? = b.pick? := by
  funext revision
  rw [pick?, pick?, version?, version?, h.snippet, find?_perm h.versions hrevisions]

variable {bundles' bundles : List Bundle}

theorem map_pick?_find? (key : Snippet → String)
    (h : List.Forall₂ Bundle.Reordered bundles' bundles)
    (hrevisions : ∀ b ∈ bundles, (b.versions.map (·.rev)).Nodup) (k : String) :
    (bundles'.find? (key ·.snippet == k)).map (·.pick?) =
      (bundles.find? (key ·.snippet == k)).map (·.pick?) := by
  induction h with
  | nil => rfl
  | cons hb hrest ih =>
    obtain ⟨hrevision, hrevisions⟩ := List.forall_mem_cons.1 hrevisions
    rw [List.find?_cons, List.find?_cons, hb.snippet]
    split
    · rw [Option.map_some, Option.map_some, hb.pick?_eq hrevision]
    · exact ih hrevisions

theorem Reordered.map_pick?_find? (h : Reordered bundles' bundles) (key : Snippet → String)
    (hkeys : (bundles.map (key ·.snippet)).Nodup)
    (hrevisions : ∀ b ∈ bundles, (b.versions.map (·.rev)).Nodup) (k : String) :
    (bundles'.find? (key ·.snippet == k)).map (·.pick?) =
      (bundles.find? (key ·.snippet == k)).map (·.pick?) := by
  obtain ⟨listed, hperm, hlisted⟩ := h
  rw [← find?_perm hperm hkeys]
  exact Snippet.map_pick?_find? key hlisted (fun b hb => hrevisions b (hperm.mem_iff.1 hb)) k

theorem Reordered.alike {index' index : Index} (h : Reordered index'.bundles index.bundles)
    (hdistinct : Distinct index.bundles) : index'.Alike index := by
  have hid := h.map_pick?_find? (·.id) hdistinct.ids hdistinct.revisions
  have hpath := h.map_pick?_find? (pathKey ·.path) hdistinct.paths hdistinct.revisions
  have hbind (found : Option Bundle) (revision : Option UInt32) :
      found.bind (·.pick? revision) = (found.map (·.pick?)).bind (· revision) := by
    cases found <;> rfl
  refine .of_eq (fun reference revision => ?_) fun id revision => ?_
  · rw [Index.resolve?_eq, Index.resolve?_eq, hbind, hbind, bundle?, bundle?, Option.map_or,
      Option.map_or, hid, hpath]
  · rw [Index.resolveById?, Index.resolveById?, Index.byId_eq, Index.byId_eq, hbind, hbind, hid]

end Snippet

namespace Compile

open Snippet (Bundle Index Reordered)

/-- **The order of the library means nothing.** Whatever the order of the bundles of a request, and
of the versions in each of them, it comes to the same, if no two bundles have the same id or path
and no two versions of a bundle the same revision. -/
theorem comesToSame_of_reordered (r : CompileRequest) (bundles : List Bundle)
    (hreordered : Reordered bundles r.snippets) (hdistinct : Snippet.Distinct r.snippets) :
    ComesToSame { r with snippets := bundles } r := by
  have halike : (Index.ofBundles bundles).Alike (Index.ofBundles r.snippets) :=
    Reordered.alike hreordered hdistinct
  exact .of_parts (draft_alike halike) rfl (Preflight.problems_alike halike)

theorem comesToSame_of_reordered_crossedPaths :
    let r := requestOf
      (.markdown "block" 0 "\x7b\x7b> a@1\x7d\x7d \x7b\x7b> b\x7d\x7d \x7b\x7b> c\x7d\x7d")
      [twoBodies "a" "old" "new", atPath "b" "c" "B", atPath "c" "b" "C"]
    let a := twoBodies "a" "old" "new"
    let bundles := [atPath "c" "b" "C", ⟨a.snippet, a.versions.reverse⟩, atPath "b" "c" "B"]
    Reordered bundles r.snippets ∧ Snippet.Distinct r.snippets ∧
      ComesToSame { r with snippets := bundles } r := by
  intro r a bundles
  have hreordered : Reordered bundles r.snippets := by
    refine ⟨[atPath "c" "b" "C", a, atPath "b" "c" "B"], ?_, ?_⟩
    · exact (List.Perm.swap ..).trans (.cons _ (.swap ..))
    · exact .cons ⟨rfl, .rfl⟩ (.cons ⟨rfl, List.reverse_perm _⟩ (.cons ⟨rfl, .rfl⟩ .nil))
  have hdistinct : Snippet.Distinct r.snippets := by
    refine ⟨?_, ?_, ?_⟩
    · show ["a", "b", "c"].Nodup
      decide
    · show [Snippet.pathKey "a", Snippet.pathKey "c", Snippet.pathKey "b"].Nodup
      decide
    · show ∀ b ∈ [a, atPath "b" "c" "B", atPath "c" "b" "C"], _
      rw [List.forall_mem_cons, List.forall_mem_cons, List.forall_mem_singleton]
      exact ⟨by decide, List.nodup_singleton 1, List.nodup_singleton 1⟩
  exact ⟨hreordered, hdistinct, comesToSame_of_reordered r bundles hreordered hdistinct⟩

end Compile

/-- The same blocks in another order, in which those of the same sequence number keep theirs. -/
structure KeepsTies (blocks' blocks : List Block) : Prop where
  perm : blocks'.Perm blocks
  ties : ∀ s, blocks'.filter (·.sequence = s) = blocks.filter (·.sequence = s)

theorem KeepsTies.swap {a b : Block} (h : a.sequence ≠ b.sequence) (rest : List Block) :
    KeepsTies (b :: a :: rest) (a :: b :: rest) := by
  refine ⟨.swap .., fun s => ?_⟩
  by_cases ha : a.sequence = s
  · have hb : b.sequence ≠ s := fun hb => h (ha.trans hb.symm)
    simp [ha, hb]
  · simp [List.filter_cons, ha]

def InSequence (blocks : List Block) : Prop := blocks.Pairwise (·.sequence ≤ ·.sequence)

theorem InSequence.head_le {b c : Block} {rest : List Block} (h : InSequence (b :: rest))
    (hc : c ∈ b :: rest) : b.sequence ≤ c.sequence := by
  rcases List.mem_cons.1 hc with rfl | hc
  · exact Int64.le_refl _
  · exact List.rel_of_pairwise_cons h hc

theorem subset_of_filter_eq {blocks' blocks : List Block}
    (h : ∀ s, blocks'.filter (·.sequence = s) = blocks.filter (·.sequence = s)) :
    blocks' ⊆ blocks := by
  intro b hb
  have hmem : b ∈ blocks'.filter (·.sequence = b.sequence) := List.mem_filter.2 ⟨hb, by simp⟩
  rw [h] at hmem
  exact (List.mem_filter.1 hmem).1

theorem InSequence.eq_of_filter_eq {blocks' blocks : List Block} (h' : InSequence blocks')
    (h : InSequence blocks)
    (hfilter : ∀ s, blocks'.filter (·.sequence = s) = blocks.filter (·.sequence = s)) :
    blocks' = blocks := by
  induction blocks' generalizing blocks with
  | nil => exact (List.subset_nil.1 (subset_of_filter_eq fun s => (hfilter s).symm)).symm
  | cons b' rest' ih =>
    cases blocks with
    | nil => exact List.subset_nil.1 (subset_of_filter_eq hfilter)
    | cons b rest =>
      -- both lists have the same members, and each head is below all of them
      have hseq : b'.sequence = b.sequence :=
        Int64.le_antisymm
          (h'.head_le (subset_of_filter_eq (fun s => (hfilter s).symm) (.head _)))
          (h.head_le (subset_of_filter_eq hfilter (.head _)))
      obtain rfl : b' = b := by
        have hhead := hfilter b.sequence
        rw [List.filter_cons_of_pos (by simpa using hseq),
          List.filter_cons_of_pos (by simp)] at hhead
        exact (List.cons.inj hhead).1
      rw [ih (List.Pairwise.of_cons h') (List.Pairwise.of_cons h) fun s => ?_]
      have htail := hfilter s
      by_cases hs : b'.sequence = s
      · simpa [hs] using htail
      · simpa [List.filter_cons, hs] using htail

theorem Block.sequence_le_trans (a b c : Block) (hab : decide (a.sequence ≤ b.sequence) = true)
    (hbc : decide (b.sequence ≤ c.sequence) = true) : decide (a.sequence ≤ c.sequence) = true := by
  simp only [decide_eq_true_eq] at hab hbc ⊢
  exact Int64.le_trans hab hbc

theorem Block.sequence_le_total (a b : Block) :
    (decide (a.sequence ≤ b.sequence) || decide (b.sequence ≤ a.sequence)) = true := by
  simpa using Int64.le_total a.sequence b.sequence

namespace Document

variable (d : Document)

theorem inSequence_orderedBlocks : InSequence d.orderedBlocks := by
  have h := List.pairwise_mergeSort Block.sequence_le_trans Block.sequence_le_total d.blocks
  exact h.imp fun hab => by simpa using hab

theorem filter_orderedBlocks (s : Int64) :
    d.orderedBlocks.filter (·.sequence = s) = d.blocks.filter (·.sequence = s) := by
  -- blocks of one sequence number are in sequence already, so a stable sort keeps them as they are
  have hequal : (d.blocks.filter (·.sequence = s)).Pairwise
      fun a b => decide (a.sequence ≤ b.sequence) = true := by
    refine List.pairwise_of_forall_mem_list fun a ha b hb => ?_
    have ha : a.sequence = s := by simpa using (List.mem_filter.1 ha).2
    have hb : b.sequence = s := by simpa using (List.mem_filter.1 hb).2
    simp [ha, hb]
  have hkept : (d.blocks.filter (·.sequence = s)).Sublist d.orderedBlocks :=
    List.sublist_mergeSort Block.sequence_le_trans Block.sequence_le_total hequal
      List.filter_sublist
  have hfiltered := hkept.filter (·.sequence = s)
  rw [List.filter_filter] at hfiltered
  simp only [Bool.and_self] at hfiltered
  have hperm : d.orderedBlocks.Perm d.blocks := List.mergeSort_perm ..
  exact (hfiltered.eq_of_length ((hperm.filter _).length_eq).symm).symm

end Document

theorem KeepsTies.orderedBlocks_eq {d : Document} {blocks : List Block}
    (h : KeepsTies blocks d.blocks) :
    { d with blocks := blocks }.orderedBlocks = d.orderedBlocks := by
  refine (Document.inSequence_orderedBlocks _).eq_of_filter_eq d.inSequence_orderedBlocks fun s => ?_
  rw [Document.filter_orderedBlocks, Document.filter_orderedBlocks]
  exact h.ties s

namespace Compile

/-- **Only the order in which blocks are rendered counts.** A request comes to the same however its
blocks are written down, as long as those of the same sequence number keep their order. Their ids
may repeat. -/
theorem comesToSame_of_keepsTies (r : CompileRequest) (blocks : List Block)
    (h : KeepsTies blocks r.document.blocks) :
    ComesToSame { r with document := { r.document with blocks := blocks } } r := by
  have hordered := h.orderedBlocks_eq
  refine .of_parts (fun isKnown => ?_) rfl ?_
  · rw [Draft.of, Draft.of]
    simp only [hordered]
    rfl
  · have hdependencies : Preflight.checkDependencies
        { r with document := { r.document with blocks := blocks } } =
          Preflight.checkDependencies r := by
      simp only [Preflight.checkDependencies, Preflight.Worklist.start, Preflight.mentionsOf, hordered]
    have hgraph : Preflight.checkBlockGraph
        { r with document := { r.document with blocks := blocks } } =
          Preflight.checkBlockGraph r :=
      Preflight.checkBlockGraph_congr (fun id => (h.perm.map _).mem_iff) hordered rfl
    rw [Preflight.problems, hdependencies, hgraph]
    rfl

theorem comesToSame_of_keepsTies_sameId :
    let late : Block := .markdown "x" 1 "late"
    let first : Block := .markdown "x" 0 "first"
    let second : Block := ⟨"x", 0, none, .group ["x", "y"] none⟩
    let r := CompileRequest.ofDocument { Document.empty "doc" "Title" "draft" with
      blocks := [late, first, second], edges := [.between "loop" "x" "x"] }
    KeepsTies [first, late, second] r.document.blocks ∧
      ComesToSame
        { r with document := { r.document with blocks := [first, late, second] } } r := by
  intro late first second r
  have h : KeepsTies [first, late, second] r.document.blocks := .swap (by decide) [second]
  exact ⟨h, comesToSame_of_keepsTies r _ h⟩

end Compile
end DocCompiler
