import DocCompiler.Proofs.Graph.FinishOrder
import DocCompiler.Proofs.Preflight.Rounds

/-! The dependency check misses nothing: every mention that a document reaches and that does not
resolve is reported, and if reached bodies contain each other in a circle, so is a cycle. -/

namespace DocCompiler.Preflight

open Snippet (Index)

/-- What has been found when the worklist is empty. -/
theorem Worklist.complete_run (r : CompileRequest) :
    let w := (Worklist.start r).run (Index.ofBundles r.snippets)
    w.deps.Truthful ∧
      (∀ m, Mentioned (Index.ofBundles r.snippets) r.document.orderedBlocks m →
        m.target? (Index.ofBundles r.snippets) = none → w.deps.Reports m.key) ∧
      ∀ a b, Contains (Index.ofBundles r.snippets) r.document.orderedBlocks a b →
        w.deps.graph.Edge a b := by
  set index := Index.ofBundles r.snippets
  intro w
  obtain ⟨n, scanned, h, -⟩ := exists_rounds index (start r)
  have hreached {n : Need} (hn : Reached index r.document.orderedBlocks n) :
      w.expanded.contains n = true := h.contains_of_reached (needs_run index (start r)) hn
  refine ⟨h.explored.truthful, fun m hm hnone => ?_, ?_⟩
  · cases hm with
    | ofBlock hb hm =>
      have hstart : (start r).deps.Reports m.key :=
        (Dependencies.foldl_reportAll index (mentionsOf r) Dependencies.truthful_empty).2 _
          (.inr ⟨_, List.mem_map.2 ⟨_, hb, rfl⟩, m, hm, hnone, rfl⟩)
      exact run_keeps (fun h hw => h.reports hw) hstart
    | ofBody hn hr hm => exact h.explored.reported _ (hreached hn) _ hr m hm hnone
  · rintro a b ⟨n, v, m, n', hn, hr, hm, hneed, rfl, rfl⟩
    refine (h.explored.linked n (hreached hn) n' ?_).1
    rw [needsWithin_of_some hr]
    exact List.mem_filterMap.2 ⟨m, hm, hneed⟩

theorem dependencyMissing_of_mentioned {r : CompileRequest} {m : Mention}
    (hm : Mentioned (Index.ofBundles r.snippets) r.document.orderedBlocks m)
    (hnone : m.target? (Index.ofBundles r.snippets) = none) :
    ∃ referencedBy, Problem.dependencyMissing m.reference m.request?.join referencedBy ∈
      checkDependencies r := by
  obtain ⟨htrue, hreported, -⟩ := Worklist.complete_run r
  obtain ⟨referencedBy, hmem⟩ := htrue.exists_missing (hreported m hm hnone)
  exact ⟨referencedBy, List.mem_append_left _ (Array.mem_toList_iff.2 hmem)⟩

theorem snippetCycle_of_contains {r : CompileRequest} {id : String}
    (h : Relation.TransGen
      (Contains (Index.ofBundles r.snippets) r.document.orderedBlocks) id id) :
    ∃ path, Problem.snippetCycle path ∈ checkDependencies r := by
  obtain ⟨-, -, hlinked⟩ := Worklist.complete_run r
  have hcircle := Relation.TransGen.mono hlinked id id h
  obtain ⟨path, hpath⟩ := Graph.exists_mem_distinctCycles hcircle
    ((Worklist.start r).needs.map (·.1))
  exact ⟨path, List.mem_append_right _ (List.mem_map_of_mem hpath)⟩

end DocCompiler.Preflight
