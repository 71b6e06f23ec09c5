import DocCompiler.Proofs.Graph.FinishOrder
import Mathlib.Data.List.Chain

/-! What the depth-first search finds are circles of the graph: every cycle is a closed path along
edges. Together with the order in which nodes are left this makes the search exact: it finds
nothing if and only if nothing leads in a circle. -/

namespace DocCompiler.Graph

section ClosedPath

variable {R S : String → String → Prop} {path : List String} {a : String}

/-- A path along a relation from a node back to it, with that node at both ends. -/
def ClosedPath (R : String → String → Prop) (path : List String) : Prop :=
  ∃ (a : String) (inner : List String), path = a :: (inner ++ [a]) ∧ path.IsChain R

theorem ClosedPath.mono (h : ClosedPath R path) (hsub : ∀ a b, R a b → S a b) :
    ClosedPath S path := by
  obtain ⟨a, inner, rfl, hchain⟩ := h
  exact ⟨a, inner, rfl, hchain.imp fun x y => hsub x y⟩

theorem ClosedPath.exists_mem (h : ClosedPath R path) : ∃ a, a ∈ path := by
  obtain ⟨a, inner, rfl, -⟩ := h
  exact ⟨a, List.mem_cons_self ..⟩

theorem ClosedPath.transGen (h : ClosedPath R path) (ha : a ∈ path) :
    Relation.TransGen (fun x y => R x y ∧ x ∈ path) a a := by
  obtain ⟨first, inner, hpath, hchain⟩ := h
  have hkept : path.IsChain (Relation.TransGen fun x y => R x y ∧ x ∈ path) :=
    hchain.imp_of_mem_imp fun x y hx _ hxy => .single ⟨hxy, hx⟩
  have hpairs := List.isChain_iff_pairwise.1 hkept
  generalize hT : Relation.TransGen (fun x y => R x y ∧ x ∈ path) = T at hpairs
  rw [hpath] at ha hpairs
  obtain ⟨hfirst, hrest⟩ := List.pairwise_cons.1 hpairs
  rcases List.mem_cons.1 ha with rfl | ha
  · exact hfirst a (by simp)
  · rcases List.mem_append.1 ha with ha | ha
    · have hback : T a first := (List.pairwise_append.1 hrest).2.2 a ha first (by simp)
      have hforth : T first a := hfirst a (List.mem_append_left _ ha)
      subst hT
      exact hback.trans hforth
    · obtain rfl := List.mem_singleton.1 ha
      exact hfirst a (by simp)

theorem ClosedPath.exists_transGen (h : ClosedPath R path) : ∃ a, Relation.TransGen R a a := by
  obtain ⟨a, ha⟩ := h.exists_mem
  exact ⟨a, Relation.TransGen.mono (fun _ _ hxy => hxy.1) a a (h.transGen ha)⟩

end ClosedPath

namespace Search

variable {g : Graph} {s : Search} {left : List String}

/-- The path runs along edges, and the cycles are closed paths. -/
structure Traced (g : Graph) (s : Search) : Prop where
  chained : (s.path.map (·.1)).IsChain fun a b => g.Edge b a
  closed : ∀ c ∈ s.cycles, ClosedPath g.Edge c

theorem takeWhile_append_prefix {target : String} {nodes : List String} (h : target ∈ nodes) :
    nodes.takeWhile (· != target) ++ [target] <+: nodes := by
  obtain ⟨as, bs, rfl, hnot⟩ := List.eq_append_cons_of_mem h
  have has : ∀ a ∈ as, (a != target) = true := fun a ha => bne_iff_ne.2 fun heq => hnot (heq ▸ ha)
  rw [List.takeWhile_append_of_pos has, List.takeWhile_cons_of_neg (by simp), List.append_nil]
  exact ⟨bs, by simp⟩

theorem closedPath_closing {target node : String} {next : Nat} {before : List (String × Nat)}
    (hchained : (node :: before.map (·.1)).IsChain fun a b => g.Edge b a)
    (hedge : g.Edge node target) (hmem : target ∈ node :: before.map (·.1)) :
    ClosedPath g.Edge (closing target ((node, next) :: before)) := by
  set nodes := node :: before.map (·.1) with hnodes
  refine ⟨target, (nodes.takeWhile (· != target)).reverse, rfl, ?_⟩
  -- read backwards, the closed path is the target in front of the part of the path up to it
  have hwhole : (target :: nodes).IsChain fun a b => g.Edge b a := .cons_cons hedge hchained
  have hpart : target :: (nodes.takeWhile (· != target) ++ [target]) <+: target :: nodes :=
    List.cons_prefix_cons.2 ⟨rfl, takeWhile_append_prefix hmem⟩
  have hbackwards : closing target ((node, next) :: before) =
      (target :: (nodes.takeWhile (· != target) ++ [target])).reverse := by
    simp [closing, hnodes]
  rw [hbackwards, List.isChain_reverse]
  exact hwhole.prefix hpart

theorem Traced.follow {marks : Std.HashMap String Mark} {node : String} {next : Nat}
    {before : List (String × Nat)} {cycles : Array (List String)} {target : String}
    (h : Traced g ⟨marks, (node, next) :: before, cycles⟩)
    (hord : Ordered g left ⟨marks, (node, next) :: before, cycles⟩)
    (hedge : g.Edge node target) :
    Traced g (follow target ⟨marks, (node, next + 1) :: before, cycles⟩) := by
  unfold Search.follow
  dsimp only
  split
  case h_1 hvisiting =>
    have hmem : target ∈ node :: before.map (·.1) := (hord.visiting_iff target).1 hvisiting
    refine ⟨h.chained, fun c hc => ?_⟩
    rcases Array.mem_push.1 hc with hc | rfl
    · exact h.closed c hc
    · exact closedPath_closing h.chained hedge hmem
  case h_2 => exact ⟨h.chained, h.closed⟩
  case h_3 => exact ⟨.cons_cons hedge h.chained, h.closed⟩

theorem Traced.step (h : Traced g s) (hord : Ordered g left s) : Traced g (s.step g) := by
  obtain ⟨marks, path, cycles⟩ := s
  match path with
  | [] => exact h
  | (node, next) :: before =>
    unfold Search.step
    dsimp only
    split
    case h_1 => exact ⟨h.chained.tail, h.closed⟩
    case h_2 target ht => exact h.follow hord (Array.mem_of_getElem? ht)

theorem Traced.run (h : Traced g s) (hord : Ordered g left s) : Traced g (run g s) := by
  induction s using run.induct g generalizing left with
  | case1 s done => rwa [Search.run, dif_pos done]
  | case2 s busy ih =>
    rw [Search.run, dif_neg busy]
    obtain ⟨left', hord'⟩ := hord.step
    exact ih (h.step hord) hord'

theorem Traced.visit (h : Traced g s) (hord : Ordered g left s) (hpath : s.path = [])
    (root : String) : Traced g (visit g s root) := by
  unfold Search.visit
  split
  case isTrue => exact h
  case isFalse hnew =>
    have hstart : Traced g ⟨s.marks.insert root .visiting, [(root, 0)], s.cycles⟩ :=
      ⟨.singleton root, h.closed⟩
    exact hstart.run (hord.start hpath hnew)

theorem Traced.foldl_visit (h : Traced g s) (hord : Ordered g left s) (hpath : s.path = [])
    (nodes : List String) : Traced g (nodes.foldl (Search.visit g) s) := by
  induction nodes generalizing s left with
  | nil => exact h
  | cons root rest ih =>
    obtain ⟨⟨left', hord'⟩, hpath', -⟩ := hord.visit hpath root
    exact ih (h.visit hord hpath root) hord' hpath'

end Search

theorem closedPath_of_mem_findCycles {g : Graph} {roots c : List String}
    (h : c ∈ findCycles g roots) : ClosedPath g.Edge c := by
  have hstart : Search.Traced g ⟨∅, [], #[]⟩ := ⟨.nil, nofun⟩
  have hend := hstart.foldl_visit (Search.ordered_init g) rfl (roots ++ g.keys)
  exact hend.closed c (Array.mem_toList_iff.1 h)

/-- **The search is exact.** It finds nothing if and only if nothing leads in a circle. -/
theorem findCycles_eq_nil_iff {g : Graph} {roots : List String} :
    findCycles g roots = [] ↔ ∀ a, ¬ Relation.TransGen g.Edge a a := by
  constructor
  · intro hnil a hcircle
    exact findCycles_ne_nil hcircle roots hnil
  · intro hnone
    refine List.eq_nil_iff_forall_not_mem.2 fun c hc => ?_
    obtain ⟨a, hcircle⟩ := (closedPath_of_mem_findCycles hc).exists_transGen
    exact hnone a hcircle

theorem mem_of_mem_distinctCycles {cycles : List (List String)} {c : List String}
    (h : c ∈ distinctCycles cycles) : c ∈ cycles := by
  have hfold : ∀ (l : List (List String)) (kept : Array (List String) × Std.HashSet (List String)),
      c ∈ (l.foldl keepNew kept).1 → c ∈ kept.1 ∨ c ∈ l := by
    intro l
    induction l with
    | nil => exact fun kept hc => .inl hc
    | cons d rest ih =>
      intro kept hc
      have hone : c ∈ (keepNew kept d).1 → c ∈ kept.1 ∨ c = d := by
        unfold keepNew
        dsimp only
        split
        · exact .inl
        · exact fun hc => Array.mem_push.1 hc
      rcases ih _ hc with hc | hc
      · rcases hone hc with hc | rfl
        · exact .inl hc
        · exact .inr (List.mem_cons_self ..)
      · exact .inr (List.mem_cons_of_mem d hc)
  exact (hfold cycles (#[], ∅) (Array.mem_toList_iff.1 h)).resolve_left (by simp)

end DocCompiler.Graph
