import DocCompiler.Graph.Basic
import Mathlib.Logic.Basic

/-! The edges of a graph, and what adding one or a node does to them. -/

namespace DocCompiler.Graph

def Edge (g : Graph) (source target : String) : Prop := target ∈ g.targets source

@[simp] theorem not_edge_empty (a b : String) : ¬ Edge ∅ a b := by
  simp [Edge, targets]

theorem targets_addNode (g : Graph) (node a : String) : (g.addNode node).targets a = g.targets a := by
  rw [addNode, targets, Std.TreeMap.getD_insert]
  split
  case isTrue h => rw [← Std.LawfulEqCmp.eq_of_compare h]
  case isFalse => rfl

@[simp] theorem edge_addNode (g : Graph) (node a b : String) :
    Edge (g.addNode node) a b ↔ Edge g a b := by
  rw [Edge, targets_addNode, Edge]

@[simp] theorem edge_addEdge (g : Graph) (source target a b : String) :
    Edge (g.addEdge source target) a b ↔ Edge g a b ∨ (a = source ∧ b = target) := by
  rw [Edge, addEdge, targets, Std.TreeMap.getD_insert]
  split
  case isTrue h =>
    obtain rfl := Std.LawfulEqCmp.eq_of_compare h
    by_cases hmem : target ∈ g.targets source
    · rw [if_pos (by simpa using hmem)]
      constructor
      · exact .inl
      · rintro (h | ⟨-, rfl⟩)
        · exact h
        · exact hmem
    · rw [if_neg (by simpa using hmem)]
      simp [Edge]
  case isFalse h =>
    have hne : a ≠ source := fun heq => h (by rw [heq]; exact Std.ReflCmp.compare_self)
    simp [Edge, targets, hne]

theorem edge_foldl_addEdge {α : Type} (source target : α → String) (l : List α) (g : Graph)
    (a b : String) :
    Edge (l.foldl (fun g x => g.addEdge (source x) (target x)) g) a b ↔
      Edge g a b ∨ ∃ x ∈ l, source x = a ∧ target x = b := by
  induction l generalizing g with
  | nil => simp
  | cons x l ih =>
    rw [List.foldl_cons, ih, edge_addEdge, or_assoc]
    simp only [List.mem_cons, exists_eq_or_imp, eq_comm (a := a), eq_comm (a := b)]

theorem mem_keys_of_edge {g : Graph} {a b : String} (h : Edge g a b) : a ∈ g.keys := by
  rw [Std.TreeMap.mem_keys]
  refine Decidable.byContradiction fun hmem => ?_
  rw [Edge, targets, Std.TreeMap.getD_eq_fallback hmem] at h
  simp at h

/-- No node has an edge to another twice. -/
def NoParallelEdges (g : Graph) : Prop := ∀ a, (g.targets a).toList.Nodup

theorem noParallelEdges_empty : NoParallelEdges ∅ := fun a => by simp [targets]

theorem NoParallelEdges.addEdge {g : Graph} (h : NoParallelEdges g) (source target : String) :
    NoParallelEdges (g.addEdge source target) := by
  intro a
  rw [Graph.addEdge, targets, Std.TreeMap.getD_insert]
  split
  case isFalse => exact h a
  case isTrue =>
    split
    case isTrue => exact h source
    case isFalse hnew =>
      rw [Array.toList_push, List.nodup_append]
      refine ⟨h source, List.pairwise_singleton _ _, fun b hb c hc => ?_⟩
      rw [List.mem_singleton.1 hc]
      rintro rfl
      exact hnew (by simpa using hb)

theorem NoParallelEdges.foldl_addEdge {α : Type} {g : Graph} (h : NoParallelEdges g)
    (source target : α → String) (l : List α) :
    NoParallelEdges (l.foldl (fun g x => g.addEdge (source x) (target x)) g) := by
  induction l generalizing g with
  | nil => exact h
  | cons x l ih => exact ih (h.addEdge _ _)

end DocCompiler.Graph
