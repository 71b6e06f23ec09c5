import DocCompiler.Preflight.BlockGraph
import DocCompiler.Proofs.Graph.ClosedPaths

/-! What the check of the block graph reports: its cycles are those of the edges between blocks
that exist, and all else that it finds are edges and children that name no block. -/

namespace DocCompiler.Preflight

variable {d : Document} {a b : String}

def Linked (d : Document) (a b : String) : Prop :=
  ∃ e ∈ d.edges, e.source = a ∧ e.target = b ∧ a ∈ d.blocks.map (·.id) ∧ b ∈ d.blocks.map (·.id)

theorem contains_blockIds (d : Document) (id : String) :
    (blockIds d).contains id = true ↔ id ∈ d.blocks.map (·.id) := by
  rw [blockIds, Std.HashSet.contains_ofList, List.contains_iff_mem]

theorem unknownEnds_isEmpty (ids : Std.HashSet String) (e : Edge) :
    (unknownEnds ids e).isEmpty = true ↔
      ids.contains e.source = true ∧ ids.contains e.target = true := by
  rw [List.isEmpty_iff, unknownEnds, List.filter_eq_nil_iff]
  simp

section Ids

variable {ids ids' : Std.HashSet String} (h : ∀ id, ids'.contains id = ids.contains id)
include h

theorem unknownEnds_congr (e : Edge) : unknownEnds ids' e = unknownEnds ids e := by
  simp only [unknownEnds, h]

theorem missingChildren_congr : missingChildren ids' = missingChildren ids := by
  funext b
  simp only [missingChildren, h]

end Ids

/-- The check sees of the order of the blocks only the one in which they are rendered. -/
theorem checkBlockGraph_congr {r r' : CompileRequest}
    (hids : ∀ id, id ∈ r'.document.blocks.map (·.id) ↔ id ∈ r.document.blocks.map (·.id))
    (hordered : r'.document.orderedBlocks = r.document.orderedBlocks)
    (hedges : r'.document.edges = r.document.edges) : checkBlockGraph r' = checkBlockGraph r := by
  have hcontains (id : String) :
      (blockIds r'.document).contains id = (blockIds r.document).contains id := by
    rw [Bool.eq_iff_iff, contains_blockIds, contains_blockIds, hids]
  simp only [checkBlockGraph, danglingEdges, edgeGraph, unknownEnds_congr hcontains,
    missingChildren_congr hcontains, hordered, hedges]

theorem edge_edgeGraph (d : Document) (a b : String) :
    (edgeGraph (blockIds d) d.edges).Edge a b ↔ Linked d a b := by
  unfold edgeGraph Linked
  rw [Graph.edge_foldl_addEdge, or_iff_right (Graph.not_edge_empty a b)]
  simp only [List.mem_filter, unknownEnds_isEmpty, contains_blockIds]
  constructor
  · rintro ⟨e, ⟨he, hsource, htarget⟩, rfl, rfl⟩
    exact ⟨e, he, rfl, rfl, hsource, htarget⟩
  · rintro ⟨e, he, rfl, rfl, hsource, htarget⟩
    exact ⟨e, ⟨he, hsource, htarget⟩, rfl, rfl⟩

/-- A finding of the check is a warning, or a closed path along edges between blocks. -/
theorem mem_checkBlockGraph {r : CompileRequest} {p : Problem} (h : p ∈ checkBlockGraph r) :
    (∃ edge unknown, p = .edgeDangling edge unknown) ∨
      (∃ path, Graph.ClosedPath (Linked r.document) path ∧ p = .blockCycle path) ∨
      ∃ groupId childId, p = .groupChildMissing groupId childId := by
  rcases List.mem_append.1 h with h | h
  · rcases List.mem_append.1 h with h | h
    · obtain ⟨e, -, he⟩ := List.mem_filterMap.1 h
      split at he
      · cases he
      · exact .inl ⟨e, _, (Option.some.inj he).symm⟩
    · obtain ⟨path, hpath, rfl⟩ := List.mem_map.1 h
      have hclosed := Graph.closedPath_of_mem_findCycles (Graph.mem_of_mem_distinctCycles hpath)
      exact .inr (.inl ⟨path, hclosed.mono fun a b => (edge_edgeGraph _ a b).1, rfl⟩)
  · obtain ⟨block, -, hp⟩ := List.mem_flatMap.1 h
    unfold missingChildren at hp
    split at hp
    · obtain ⟨child, -, rfl⟩ := List.mem_map.1 hp
      exact .inr (.inr ⟨_, child, rfl⟩)
    · cases hp

theorem blockCycle_of_linked {r : CompileRequest}
    (h : Relation.TransGen (Linked r.document) a a) :
    ∃ path, Problem.blockCycle path ∈ checkBlockGraph r := by
  have hcircle : Relation.TransGen (edgeGraph (blockIds r.document) r.document.edges).Edge a a :=
    Relation.TransGen.mono (fun x y => (edge_edgeGraph r.document x y).2) a a h
  obtain ⟨path, hpath⟩ :=
    Graph.exists_mem_distinctCycles hcircle (r.document.orderedBlocks.map (·.id))
  refine ⟨path, ?_⟩
  apply List.mem_append_left
  apply List.mem_append_right
  exact List.mem_map_of_mem hpath

end DocCompiler.Preflight
