import DocCompiler.Proofs.Graph.ClosedPaths
import Mathlib.Data.List.Cycle

/-! The search follows every edge once. An edge to a node that has not been met makes the path
longer, and is an edge of the search tree from then on; an edge to a node on the path closes a
cycle. So the last edge of a cycle is never an edge of the tree, all others are, and no two cycles
go round the same nodes in the same order. -/

namespace DocCompiler.Graph

section Rotations

variable {R S : String → String → Prop} {c d : List String}

theorem isChain_of_isRotated (hc : ClosedPath R c) (hd : ClosedPath R d)
    (h : c.dropLast ~r d.dropLast) (hchain : d.IsChain S) : c.IsChain S := by
  obtain ⟨a, inner, rfl, -⟩ := hc
  obtain ⟨b, inner', rfl, -⟩ := hd
  have hopen (x : String) (l : List String) : (x :: (l ++ [x])).dropLast = x :: l := by
    rw [← List.cons_append, List.dropLast_concat]
  rw [hopen, hopen] at h
  have hround : ((a :: inner : List String) : Cycle String) = (b :: inner' : List String) :=
    Cycle.coe_eq_coe.2 h
  rw [← Cycle.chain_coe_cons, hround, Cycle.chain_coe_cons]
  exact hchain

theorem ClosedPath.exists_lastEdge (h : ClosedPath R c) : ∃ a b, [a, b] <:+ c := by
  obtain ⟨a, inner, rfl, -⟩ := h
  rcases List.eq_nil_or_concat inner with rfl | ⟨front, b, rfl⟩
  · exact ⟨a, a, List.suffix_refl _⟩
  · exact ⟨b, a, a :: front, by simp⟩

end Rotations

namespace Search

variable {g : Graph} {s : Search} {left : List String}

/-- The edge has been followed: its node has been left, or is on the path and further on. -/
def Passed (g : Graph) (s : Search) (a b : String) : Prop :=
  (s.marks[a]? = some .done ∧ g.Edge a b) ∨
    ∃ next, (a, next) ∈ s.path ∧ ∃ i < next, (g.targets a)[i]? = some b

/-- What holds throughout a search that has grown a tree of edges so far. -/
structure Branching (g : Graph) (tree : List (String × String)) (s : Search) : Prop where
  grown : (s.path.map (·.1)).IsChain fun b a => (a, b) ∈ tree
  passed : ∀ a b, (a, b) ∈ tree → Passed g s a b
  simple : ∀ c ∈ s.cycles, c.dropLast.Nodup
  inTree : ∀ c ∈ s.cycles, c.dropLast.IsChain fun a b => (a, b) ∈ tree
  lastEdge : ∀ c ∈ s.cycles, ∀ a b, [a, b] <:+ c → (a, b) ∉ tree ∧ Passed g s a b
  distinct : s.cycles.toList.Pairwise fun c d => ∀ a b, [a, b] <:+ c → ¬ [a, b] <:+ d

theorem branching_init (g : Graph) : Branching g [] ⟨∅, [], #[]⟩ :=
  ⟨.nil, nofun, nofun, nofun, nofun, .nil⟩

variable {tree : List (String × String)}

/-- A step that neither grows the tree nor closes a cycle. -/
theorem Branching.keep {s' : Search} (h : Branching g tree s) (hcycles : s'.cycles = s.cycles)
    (hgrown : (s'.path.map (·.1)).IsChain fun b a => (a, b) ∈ tree)
    (hpassed : ∀ a b, Passed g s a b → Passed g s' a b) : Branching g tree s' where
  grown := hgrown
  passed a b hab := hpassed a b (h.passed a b hab)
  simple := hcycles ▸ h.simple
  inTree := hcycles ▸ h.inTree
  lastEdge c hc a b hab :=
    have hold := h.lastEdge c (hcycles ▸ hc) a b hab
    ⟨hold.1, hpassed a b hold.2⟩
  distinct := hcycles ▸ h.distinct

section Following

variable {marks : Std.HashMap String Mark} {node target : String} {next : Nat}
  {before : List (String × Nat)} {cycles : Array (List String)}

theorem passed_next {marks' : Std.HashMap String Mark} {cycles' : Array (List String)}
    (front : List (String × Nat))
    (hmarks : ∀ n : String, marks[n]? = some .done → marks'[n]? = some .done) {a b : String}
    (h : Passed g ⟨marks, (node, next) :: before, cycles⟩ a b) :
    Passed g ⟨marks', front ++ (node, next + 1) :: before, cycles'⟩ a b := by
  rcases h with ⟨hdone, hedge⟩ | ⟨k, hk, i, hi, hb⟩
  · exact .inl ⟨hmarks a hdone, hedge⟩
  · rcases List.mem_cons.1 hk with heq | hk
    · cases heq
      exact .inr ⟨next + 1, by simp, i, Nat.lt_succ_of_lt hi, hb⟩
    · exact .inr ⟨k, by simp [hk], i, hi, hb⟩

theorem not_passed_next (hg : NoParallelEdges g)
    (hord : Ordered g left ⟨marks, (node, next) :: before, cycles⟩)
    (ht : (g.targets node)[next]? = some target) :
    ¬ Passed g ⟨marks, (node, next) :: before, cycles⟩ node target := by
  rintro (⟨hdone, -⟩ | ⟨k, hk, i, hi, hb⟩)
  · have hvisiting : marks[node]? = some .visiting := (hord.visiting_iff node).2 (by simp)
    rw [hdone] at hvisiting
    cases hvisiting
  · have hk : k = next := by
      rcases List.mem_cons.1 hk with heq | hk
      · exact (Prod.mk.inj heq).2
      · exact absurd (List.mem_map_of_mem hk) (List.nodup_cons.1 hord.distinct).1
    have hlt : i < (g.targets node).toList.length := (Array.getElem?_eq_some_iff.1 hb).1
    have hsame : (g.targets node).toList[i]? = (g.targets node).toList[next]? := by
      rw [Array.getElem?_toList, Array.getElem?_toList, hb, ht]
    have heq : i = next := (List.getElem?_inj hlt (hg node)).1 hsame
    omega

theorem dropLast_closing (target : String) (path : List (String × Nat)) :
    (closing target path).dropLast =
      ((path.map (·.1)).takeWhile (· != target) ++ [target]).reverse := by
  rw [closing, ← List.cons_append, List.dropLast_concat, List.reverse_append,
    List.reverse_singleton, List.singleton_append]

theorem lastEdge_closing {a b : String}
    (h : [a, b] <:+ closing target ((node, next) :: before)) : a = node ∧ b = target := by
  obtain ⟨front, hfront⟩ := closing_eq target node next before
  obtain ⟨front', hfront'⟩ := h
  rw [hfront] at hfront'
  simpa using List.append_inj_right' hfront' rfl

theorem Branching.close (h : Branching g tree ⟨marks, (node, next) :: before, cycles⟩)
    (hg : NoParallelEdges g)
    (hord : Ordered g left ⟨marks, (node, next) :: before, cycles⟩)
    (ht : (g.targets node)[next]? = some target) (hmem : target ∈ node :: before.map (·.1)) :
    Branching g tree ⟨marks, (node, next + 1) :: before,
      cycles.push (closing target ((node, next + 1) :: before))⟩ := by
  have hnew := not_passed_next hg hord ht
  have hkept (a b : String) (hab : Passed g ⟨marks, (node, next) :: before, cycles⟩ a b) :
      Passed g ⟨marks, (node, next + 1) :: before,
        cycles.push (closing target ((node, next + 1) :: before))⟩ a b :=
    passed_next [] (fun _ hn => hn) hab
  have hpart := takeWhile_append_prefix hmem
  have hclosing := dropLast_closing target ((node, next + 1) :: before)
  refine ⟨h.grown, fun a b hab => hkept a b (h.passed a b hab), ?_, ?_, ?_, ?_⟩
  · intro d hd
    rcases Array.mem_push.1 hd with hd | rfl
    · exact h.simple d hd
    · rw [hclosing, List.nodup_reverse]
      exact hord.distinct.sublist hpart.sublist
  · intro d hd
    rcases Array.mem_push.1 hd with hd | rfl
    · exact h.inTree d hd
    · rw [hclosing, List.isChain_reverse]
      exact h.grown.prefix hpart
  · intro d hd a b hab
    rcases Array.mem_push.1 hd with hd | rfl
    · have hold := h.lastEdge d hd a b hab
      exact ⟨hold.1, hkept a b hold.2⟩
    · obtain ⟨rfl, rfl⟩ := lastEdge_closing hab
      refine ⟨fun htree => hnew (h.passed _ _ htree), .inr ⟨next + 1, by simp, next, ?_, ht⟩⟩
      exact Nat.lt_succ_self next
  · rw [Array.toList_push, List.pairwise_append]
    refine ⟨h.distinct, List.pairwise_singleton _ _, fun d hd e he a b hab hab' => ?_⟩
    obtain rfl := List.mem_singleton.1 he
    obtain ⟨rfl, rfl⟩ := lastEdge_closing hab'
    exact hnew (h.lastEdge d (Array.mem_toList_iff.1 hd) _ _ hab).2

theorem Branching.grow (h : Branching g tree ⟨marks, (node, next) :: before, cycles⟩)
    (hg : NoParallelEdges g)
    (hord : Ordered g left ⟨marks, (node, next) :: before, cycles⟩)
    (ht : (g.targets node)[next]? = some target) (hfresh : marks[target]? = none) :
    Branching g ((node, target) :: tree)
      ⟨marks.insert target .visiting, (target, 0) :: (node, next + 1) :: before, cycles⟩ := by
  have hnew := not_passed_next hg hord ht
  have hmarks (n : String) (hn : marks[n]? = some .done) :
      (marks.insert target .visiting)[n]? = some .done := by
    rw [getElem?_marks_insert, if_neg, hn]
    rintro rfl
    rw [hfresh] at hn
    cases hn
  have hkept (a b : String) (hab : Passed g ⟨marks, (node, next) :: before, cycles⟩ a b) :
      Passed g ⟨marks.insert target .visiting, (target, 0) :: (node, next + 1) :: before, cycles⟩
        a b := passed_next [(target, 0)] hmarks hab
  refine ⟨?_, ?_, h.simple, ?_, ?_, h.distinct⟩
  · exact .cons_cons (List.mem_cons_self ..) (h.grown.imp fun _ _ => List.mem_cons_of_mem _)
  · intro a b hab
    rcases List.mem_cons.1 hab with heq | hab
    · cases heq
      exact .inr ⟨next + 1, by simp, next, Nat.lt_succ_self next, ht⟩
    · exact hkept a b (h.passed a b hab)
  · exact fun c hc => (h.inTree c hc).imp fun _ _ => List.mem_cons_of_mem _
  · intro c hc a b hab
    obtain ⟨hout, hpassed⟩ := h.lastEdge c hc a b hab
    refine ⟨fun hin => ?_, hkept a b hpassed⟩
    rcases List.mem_cons.1 hin with heq | hin
    · cases heq
      exact hnew hpassed
    · exact hout hin

theorem Branching.follow (h : Branching g tree ⟨marks, (node, next) :: before, cycles⟩)
    (hg : NoParallelEdges g)
    (hord : Ordered g left ⟨marks, (node, next) :: before, cycles⟩)
    (ht : (g.targets node)[next]? = some target) :
    ∃ tree', Branching g tree' (follow target ⟨marks, (node, next + 1) :: before, cycles⟩) := by
  unfold Search.follow
  dsimp only
  split
  case h_1 hvisiting => exact ⟨tree, h.close hg hord ht ((hord.visiting_iff target).1 hvisiting)⟩
  case h_2 =>
    exact ⟨tree, h.keep rfl h.grown fun a b hab => passed_next [] (fun _ hn => hn) hab⟩
  case h_3 hfresh => exact ⟨(node, target) :: tree, h.grow hg hord ht hfresh⟩

theorem Branching.leave (h : Branching g tree ⟨marks, (node, next) :: before, cycles⟩) :
    Branching g tree ⟨marks.insert node .done, before, cycles⟩ := by
  refine h.keep rfl h.grown.tail ?_
  rintro a b (⟨hdone, hedge⟩ | ⟨k, hk, i, hi, hb⟩)
  · refine .inl ⟨?_, hedge⟩
    rw [getElem?_marks_insert, hdone, ite_self]
  · rcases List.mem_cons.1 hk with heq | hk
    · cases heq
      exact .inl ⟨by rw [getElem?_marks_insert, if_pos rfl], Array.mem_of_getElem? hb⟩
    · exact .inr ⟨k, hk, i, hi, hb⟩

end Following

theorem Branching.step (h : Branching g tree s) (hg : NoParallelEdges g)
    (hord : Ordered g left s) : ∃ tree', Branching g tree' (s.step g) := by
  obtain ⟨marks, path, cycles⟩ := s
  match path with
  | [] => exact ⟨tree, h⟩
  | (node, next) :: before =>
    unfold Search.step
    dsimp only
    split
    case h_1 => exact ⟨tree, h.leave⟩
    case h_2 target ht => exact h.follow hg hord ht

theorem Branching.run (h : Branching g tree s) (hg : NoParallelEdges g)
    (hord : Ordered g left s) : ∃ tree', Branching g tree' (run g s) := by
  induction s using run.induct g generalizing left tree with
  | case1 s done => rw [Search.run, dif_pos done]; exact ⟨tree, h⟩
  | case2 s busy ih =>
    rw [Search.run, dif_neg busy]
    obtain ⟨left', hord'⟩ := hord.step
    obtain ⟨tree', h'⟩ := h.step hg hord
    exact ih h' hord'

theorem Branching.start (h : Branching g tree s) (hpath : s.path = []) {root : String}
    (hnew : s.marks.contains root ≠ true) :
    Branching g tree ⟨s.marks.insert root .visiting, [(root, 0)], s.cycles⟩ := by
  refine h.keep rfl (.singleton root) ?_
  rintro a b (⟨hdone, hedge⟩ | ⟨k, hk, -⟩)
  · refine .inl ⟨?_, hedge⟩
    rw [getElem?_marks_insert, if_neg, hdone]
    rintro rfl
    simp [Std.HashMap.contains_eq_isSome_getElem?, hdone] at hnew
  · rw [hpath] at hk
    cases hk

theorem Branching.visit (h : Branching g tree s) (hg : NoParallelEdges g)
    (hord : Ordered g left s) (hpath : s.path = []) (root : String) :
    ∃ tree', Branching g tree' (visit g s root) := by
  unfold Search.visit
  split
  case isTrue => exact ⟨tree, h⟩
  case isFalse hnew => exact (h.start hpath hnew).run hg (hord.start hpath hnew)

theorem Branching.foldl_visit (h : Branching g tree s) (hg : NoParallelEdges g)
    (hord : Ordered g left s) (hpath : s.path = []) (nodes : List String) :
    ∃ tree', Branching g tree' (nodes.foldl (Search.visit g) s) := by
  induction nodes generalizing s left tree with
  | nil => exact ⟨tree, h⟩
  | cons root rest ih =>
    obtain ⟨⟨left', hord'⟩, hpath', -⟩ := hord.visit hpath root
    obtain ⟨tree', h'⟩ := h.visit hg hord hpath root
    exact ih h' hord' hpath'

theorem exists_iterate_step (g : Graph) (s : Search) :
    ∃ n ≤ s.work g, (Search.step g)^[n] s = run g s ∧ (run g s).path = [] := by
  induction s using run.induct g with
  | case1 s done =>
    rw [Search.run, dif_pos done]
    exact ⟨0, Nat.zero_le _, rfl, List.isEmpty_iff.1 done⟩
  | case2 s busy ih =>
    rw [Search.run, dif_neg busy]
    obtain ⟨n, hn, heq, hpath⟩ := ih
    have hlt : (s.step g).work g < s.work g := work_step_lt (Bool.eq_false_iff.2 busy)
    exact ⟨n + 1, by omega, by rw [Function.iterate_succ_apply, heq], hpath⟩

end Search

section Found

variable {g : Graph} {roots c : List String}

theorem exists_branching_findCycles (hg : NoParallelEdges g) (roots : List String) :
    ∃ tree marks path,
      Search.Branching g tree ⟨marks, path, (findCycles g roots).toArray⟩ := by
  obtain ⟨tree, h⟩ := (Search.branching_init g).foldl_visit hg (Search.ordered_init g) rfl
    (roots ++ g.keys)
  exact ⟨tree, _, _, h⟩

theorem nodup_of_mem_findCycles (hg : NoParallelEdges g)
    (h : c ∈ findCycles g roots) : c.dropLast.Nodup := by
  obtain ⟨tree, marks, path, hend⟩ := exists_branching_findCycles hg roots
  exact hend.simple c (by simpa using h)

theorem pairwise_findCycles (hg : NoParallelEdges g) (roots : List String) :
    (findCycles g roots).Pairwise fun c d => ¬ c.dropLast ~r d.dropLast := by
  obtain ⟨tree, marks, path, hend⟩ := exists_branching_findCycles hg roots
  refine List.Pairwise.imp_of_mem ?_ hend.distinct
  intro c d hc hd hdistinct hround
  have hc' : c ∈ (findCycles g roots).toArray := Array.mem_toList_iff.1 hc
  have hd' : d ∈ (findCycles g roots).toArray := Array.mem_toList_iff.1 hd
  have hclosed := closedPath_of_mem_findCycles hc
  have hclosed' := closedPath_of_mem_findCycles hd
  obtain ⟨x, y, hxy⟩ := hclosed.exists_lastEdge
  have hout : (x, y) ∉ tree := (hend.lastEdge c hc' x y hxy).1
  -- the last edge of `c` is none of the edges of `d`: those are in the tree, or the last one
  have havoids : d.IsChain fun u v => ¬ (u = x ∧ v = y) := by
    obtain ⟨a, b, hab⟩ := hclosed'.exists_lastEdge
    have htree := hend.inTree d hd'
    obtain ⟨front, rfl⟩ := hab
    have hopen : (front ++ [a, b]).dropLast = front ++ [a] := by
      rw [List.append_cons, List.dropLast_concat]
    rw [hopen] at htree
    refine List.isChain_append_cons_cons.2 ⟨htree.imp ?_, ?_, .singleton b⟩
    · rintro u v huv ⟨rfl, rfl⟩
      exact hout huv
    · rintro ⟨rfl, rfl⟩
      exact hdistinct a b hxy (List.suffix_append _ _)
  have hagain := isChain_of_isRotated hclosed hclosed' hround havoids
  obtain ⟨front, rfl⟩ := hxy
  exact (List.isChain_append_cons_cons.1 hagain).2.1 ⟨rfl, rfl⟩

theorem not_transGen_without_closing (g : Graph) (roots : List String) (a : String) :
    ¬ Relation.TransGen (fun x y => g.Edge x y ∧ ¬ Closes (findCycles g roots) x y) a a := by
  intro h
  have hcircle := Relation.transGen_swap.2 h
  exact (wellFounded_without_closing g roots).transGen.asymmetric a a hcircle hcircle

/-- Every circle uses the closing edge of a cycle that is found, wherever the search begins. -/
theorem exists_closes_of_closedPath (h : ClosedPath g.Edge c) (roots : List String) :
    ∃ a b, [a, b] <:+: c ∧ Closes (findCycles g roots) a b := by
  by_contra hnone
  obtain ⟨a, inner, rfl, hchain⟩ := h
  -- otherwise it would be a circle in what is left without the closing edges
  have hopen : ClosedPath (fun x y => g.Edge x y ∧ ¬ Closes (findCycles g roots) x y)
      (a :: (inner ++ [a])) := by
    refine ⟨a, inner, rfl, List.isChain_iff_forall_rel_of_append_cons_cons.2 ?_⟩
    intro x y front back hpath
    refine ⟨List.isChain_iff_forall_rel_of_append_cons_cons.1 hchain hpath, fun hclose => ?_⟩
    exact hnone ⟨x, y, ⟨front, back, by simp [hpath]⟩, hclose⟩
  obtain ⟨x, hx⟩ := hopen.exists_transGen
  exact not_transGen_without_closing g roots x hx

end Found

/-- **Every circle is broken once.** Where no node has an edge to another twice, whatever the roots:
searches come to their end; what is found are closed paths along edges without a repetition but for
their two ends; each circle of the graph, be it reached from the roots or not, has the last edge of
one of them among its edges, so that nothing leads in a circle without those, and nothing is found
if and only if nothing leads in a circle; and no two of them go round the same circle. -/
theorem findCycles_breaks_circles {g : Graph} (hg : NoParallelEdges g) (roots : List String) :
    (∀ s : Search, ∃ n ≤ s.work g,
      (Search.step g)^[n] s = Search.run g s ∧ (Search.run g s).path = []) ∧
    (∀ c ∈ findCycles g roots, ClosedPath g.Edge c ∧ c.dropLast.Nodup) ∧
    (∀ c, ClosedPath g.Edge c → ∃ a b, [a, b] <:+: c ∧ Closes (findCycles g roots) a b) ∧
    (∀ a, ¬ Relation.TransGen (fun x y => g.Edge x y ∧ ¬ Closes (findCycles g roots) x y) a a) ∧
    (findCycles g roots = [] ↔ ∀ a, ¬ Relation.TransGen g.Edge a a) ∧
    (findCycles g roots).Pairwise fun c d => ¬ c.dropLast ~r d.dropLast := by
  refine ⟨Search.exists_iterate_step g, ?_, ?_, ?_, findCycles_eq_nil_iff, ?_⟩
  · exact fun c hc => ⟨closedPath_of_mem_findCycles hc, nodup_of_mem_findCycles hg hc⟩
  · exact fun c hc => exists_closes_of_closedPath hc roots
  · exact not_transGen_without_closing g roots
  · exact pairwise_findCycles hg roots

/-- Two circles through the same nodes, a node with an edge to itself, and one with no way back. -/
def knot : Graph :=
  [("a", "b"), ("b", "c"), ("c", "a"), ("b", "a"), ("c", "c"), ("d", "a")].foldl
    (fun g e => g.addEdge e.1 e.2) ∅

theorem noParallelEdges_knot : NoParallelEdges knot :=
  noParallelEdges_empty.foldl_addEdge Prod.fst Prod.snd _

theorem findCycles_breaks_circles_knot :
    NoParallelEdges knot ∧
      (∀ c ∈ findCycles knot ["z", "b"], ClosedPath knot.Edge c ∧ c.dropLast.Nodup) ∧
      (findCycles knot ["z", "b"]).Pairwise fun c d => ¬ c.dropLast ~r d.dropLast := by
  obtain ⟨-, hclosed, -, -, -, hdistinct⟩ :=
    findCycles_breaks_circles noParallelEdges_knot ["z", "b"]
  exact ⟨noParallelEdges_knot, hclosed, hdistinct⟩

end DocCompiler.Graph
