import DocCompiler.Graph.Cycles
import DocCompiler.Proofs.Graph.Edges
import Mathlib.Data.List.Nodup
import Mathlib.Logic.Relation
import Mathlib.Order.RelClasses

/-! The depth-first search by the order in which it leaves nodes. An edge from a node that has been
left leads to one that was left before it, unless it is the last edge of a cycle that has been
found. A search that has met every node therefore takes apart the whole graph: without the closing
edges nothing leads in a circle. -/

namespace DocCompiler.Graph

/-- One of the closed paths ends with this edge. -/
def Closes (cycles : List (List String)) (a b : String) : Prop := ∃ front, front ++ [a, b] ∈ cycles

theorem Closes.mono {cycles cycles' : List (List String)} {a b : String} (h : Closes cycles a b)
    (hsub : cycles ⊆ cycles') : Closes cycles' a b := by
  obtain ⟨front, hmem⟩ := h
  exact ⟨front, hsub hmem⟩

/-- The nodes that have been left, the last one first: each leads back in time only, but for
closing edges. -/
def Settled (g : Graph) (cycles : List (List String)) : List String → Prop
  | [] => True
  | node :: before => (∀ b, g.Edge node b → b ∈ before ∨ Closes cycles node b) ∧
    Settled g cycles before

theorem Settled.mono {g : Graph} {cycles cycles' : List (List String)} {left : List String}
    (h : Settled g cycles left) (hsub : cycles ⊆ cycles') : Settled g cycles' left := by
  induction left with
  | nil => trivial
  | cons node before ih =>
    refine ⟨fun b hb => ?_, ih h.2⟩
    rcases h.1 b hb with hb | hb
    · exact .inl hb
    · exact .inr (hb.mono hsub)

/-- Without the closing edges, no way from a settled node goes on forever. -/
theorem Settled.acc {g : Graph} {cycles : List (List String)} {left : List String}
    (h : Settled g cycles left) :
    ∀ a ∈ left, Acc (fun b a => g.Edge a b ∧ ¬ Closes cycles a b) a := by
  induction left with
  | nil => intro a ha; cases ha
  | cons node before ih =>
    intro a ha
    rcases List.mem_cons.1 ha with rfl | ha
    · refine .intro a fun b hb => ?_
      rcases h.1 b hb.1 with hmem | hclose
      · exact ih h.2 b hmem
      · exact absurd hclose hb.2
    · exact ih h.2 a ha

namespace Search

variable {g : Graph} {s : Search} {left : List String}

/-- The edges that have been followed from the nodes of a path lead to nodes that have been left,
to nodes further on the path, or close a cycle. -/
def Followed (g : Graph) (cycles : List (List String)) : List String → List (String × Nat) → Prop
  | _, [] => True
  | behind, (node, next) :: before =>
    (∀ i < next, ∀ b, (g.targets node)[i]? = some b → b ∈ behind ∨ Closes cycles node b) ∧
      Followed g cycles (node :: behind) before

theorem Followed.mono {cycles cycles' : List (List String)} {behind behind' : List String}
    {path : List (String × Nat)} (h : Followed g cycles behind path) (hsub : cycles ⊆ cycles')
    (hbehind : behind ⊆ behind') : Followed g cycles' behind' path := by
  induction path generalizing behind behind' with
  | nil => trivial
  | cons e before ih =>
    refine ⟨fun i hi b hb => ?_, ih h.2 (List.cons_subset_cons _ hbehind)⟩
    rcases h.1 i hi b hb with hb | hb
    · exact .inl (hbehind hb)
    · exact .inr (hb.mono hsub)

/-- What holds throughout a search in which the nodes `left` have been left. -/
structure Ordered (g : Graph) (left : List String) (s : Search) : Prop where
  done_iff : ∀ n, s.marks[n]? = some .done ↔ n ∈ left
  visiting_iff : ∀ n, s.marks[n]? = some .visiting ↔ n ∈ s.path.map (·.1)
  distinct : (s.path.map (·.1)).Nodup
  settled : Settled g s.cycles.toList left
  followed : Followed g s.cycles.toList left s.path

theorem ordered_init (g : Graph) : Ordered g [] ⟨∅, [], #[]⟩ where
  done_iff n := by simp
  visiting_iff n := by simp
  distinct := .nil
  settled := trivial
  followed := trivial

theorem getElem?_marks_insert (marks : Std.HashMap String Mark) (node n : String) (mark : Mark) :
    (marks.insert node mark)[n]? = if n = node then some mark else marks[n]? := by
  rw [Std.HashMap.getElem?_insert]
  by_cases h : node = n
  · simp [h]
  · simp [h, Ne.symm h]

theorem closing_eq (target node : String) (next : Nat) (before : List (String × Nat)) :
    ∃ front, closing target ((node, next) :: before) = front ++ [node, target] := by
  by_cases h : node = target
  · subst h
    exact ⟨[], by simp [closing]⟩
  · refine ⟨target :: ((before.map (·.1)).takeWhile (· != target)).reverse, ?_⟩
    simp [closing, h]

theorem Ordered.enter (h : Ordered g left s) {node : String} (hnew : s.marks[node]? = none)
    {path : List (String × Nat)} (hnodes : path.map (·.1) = s.path.map (·.1))
    (hpath : Followed g s.cycles.toList (node :: left) path) :
    Ordered g left ⟨s.marks.insert node .visiting, (node, 0) :: path, s.cycles⟩ where
  done_iff n := by
    rw [getElem?_marks_insert]
    split
    case isTrue heq =>
      have := h.done_iff node
      rw [hnew] at this
      simpa [heq] using this
    case isFalse => exact h.done_iff n
  visiting_iff n := by
    rw [getElem?_marks_insert, List.map_cons, List.mem_cons, hnodes, ← h.visiting_iff]
    by_cases heq : n = node <;> simp [heq]
  distinct := by
    refine List.nodup_cons.2 ⟨?_, hnodes ▸ h.distinct⟩
    rw [hnodes, ← h.visiting_iff, hnew]
    exact nofun
  settled := h.settled
  followed := ⟨nofun, hpath⟩

theorem Ordered.leave {marks : Std.HashMap String Mark} {node : String} {next : Nat}
    {before : List (String × Nat)} {cycles : Array (List String)}
    (h : Ordered g left ⟨marks, (node, next) :: before, cycles⟩)
    (hall : (g.targets node)[next]? = none) :
    Ordered g (node :: left) ⟨marks.insert node .done, before, cycles⟩ where
  done_iff n := by
    rw [getElem?_marks_insert, List.mem_cons, ← h.done_iff]
    by_cases heq : n = node <;> simp [heq]
  visiting_iff n := by
    have hnode : node ∉ before.map (·.1) := (List.nodup_cons.1 h.distinct).1
    rw [getElem?_marks_insert]
    split
    case isTrue heq => simpa [heq] using hnode
    case isFalse hne =>
      rw [h.visiting_iff, List.map_cons, List.mem_cons]
      exact ⟨fun hn => hn.resolve_left hne, .inr⟩
  distinct := (List.nodup_cons.1 h.distinct).2
  settled := by
    refine ⟨fun b hb => ?_, h.settled⟩
    obtain ⟨i, hi, rfl⟩ := Array.mem_iff_getElem.1 hb
    have hnext := Array.getElem?_eq_none_iff.1 hall
    exact h.followed.1 i (by omega) _ (Array.getElem?_eq_getElem hi)
  followed := h.followed.2

theorem Followed.next {cycles cycles' : List (List String)} {behind : List String} {node : String}
    {next : Nat} {before : List (String × Nat)} {target : String}
    (h : Followed g cycles left ((node, next) :: before)) (hsub : cycles ⊆ cycles')
    (hbehind : left ⊆ behind) (ht : (g.targets node)[next]? = some target)
    (htarget : target ∈ behind ∨ Closes cycles' node target) :
    Followed g cycles' behind ((node, next + 1) :: before) := by
  refine ⟨fun i hi b hb => ?_, h.2.mono hsub (List.cons_subset_cons _ hbehind)⟩
  rcases Nat.lt_succ_iff_lt_or_eq.1 hi with hi | rfl
  · rcases h.1 i hi b hb with hb | hb
    · exact .inl (hbehind hb)
    · exact .inr (hb.mono hsub)
  · obtain rfl : target = b := Option.some.inj (ht.symm.trans hb)
    exact htarget

theorem Ordered.follow {marks : Std.HashMap String Mark} {node : String} {next : Nat}
    {before : List (String × Nat)} {cycles : Array (List String)} {target : String}
    (h : Ordered g left ⟨marks, (node, next) :: before, cycles⟩)
    (ht : (g.targets node)[next]? = some target) :
    Ordered g left (follow target ⟨marks, (node, next + 1) :: before, cycles⟩) := by
  unfold Search.follow
  dsimp only
  split
  case h_1 =>
    have hsub : cycles.toList ⊆ (cycles.push (closing target ((node, next + 1) :: before))).toList :=
      fun c hc => by simp [hc]
    have hclose : Closes (cycles.push (closing target ((node, next + 1) :: before))).toList
        node target := by
      obtain ⟨front, hfront⟩ := closing_eq target node (next + 1) before
      exact ⟨front, by simp [hfront]⟩
    exact ⟨h.done_iff, h.visiting_iff, h.distinct, h.settled.mono hsub,
      h.followed.next hsub (List.Subset.refl _) ht (.inr hclose)⟩
  case h_2 hdone =>
    have hleft : target ∈ left := (h.done_iff target).1 hdone
    exact ⟨h.done_iff, h.visiting_iff, h.distinct, h.settled,
      h.followed.next (List.Subset.refl _) (List.Subset.refl _) ht (.inl hleft)⟩
  case h_3 hnew =>
    refine h.enter hnew rfl ?_
    exact h.followed.next (List.Subset.refl _) (List.subset_cons_self _ _) ht
      (.inl (List.mem_cons_self ..))

theorem Ordered.step (h : Ordered g left s) : ∃ left', Ordered g left' (s.step g) := by
  obtain ⟨marks, path, cycles⟩ := s
  match path with
  | [] => exact ⟨left, h⟩
  | (node, next) :: before =>
    unfold Search.step
    dsimp only
    split
    case h_1 hall => exact ⟨node :: left, h.leave hall⟩
    case h_2 target ht => exact ⟨left, h.follow ht⟩

theorem contains_step {n : String} (h : s.marks.contains n = true) :
    (s.step g).marks.contains n = true := by
  obtain ⟨marks, path, cycles⟩ := s
  have keep (node : String) (mark : Mark) : (marks.insert node mark).contains n = true := by
    rw [Std.HashMap.contains_insert, h, Bool.or_true]
  match path with
  | [] => exact h
  | (node, next) :: before =>
    unfold Search.step
    dsimp only
    split
    case h_1 => exact keep node .done
    case h_2 target _ =>
      unfold Search.follow
      dsimp only
      split
      case h_3 => exact keep target .visiting
      all_goals exact h

theorem Ordered.run (h : Ordered g left s) :
    (∃ left', Ordered g left' (run g s)) ∧ (run g s).path = [] ∧
      ∀ n, s.marks.contains n = true → (run g s).marks.contains n = true := by
  induction s using run.induct g generalizing left with
  | case1 s done =>
    rw [Search.run, dif_pos done]
    exact ⟨⟨left, h⟩, List.isEmpty_iff.1 done, fun _ hn => hn⟩
  | case2 s busy ih =>
    rw [Search.run, dif_neg busy]
    obtain ⟨left', h'⟩ := h.step
    obtain ⟨hrun, hpath, hmet⟩ := ih h'
    exact ⟨hrun, hpath, fun n hn => hmet n (contains_step hn)⟩

/-- Setting out from a node that has not been met, between searches. -/
theorem Ordered.start (h : Ordered g left s) (hpath : s.path = []) {root : String}
    (hnew : ¬ s.marks.contains root = true) :
    Ordered g left ⟨s.marks.insert root .visiting, [(root, 0)], s.cycles⟩ := by
  have hnone : s.marks[root]? = none := by
    rw [Std.HashMap.contains_eq_isSome_getElem?] at hnew
    exact Option.not_isSome_iff_eq_none.1 hnew
  have hnodes : ([] : List (String × Nat)).map (·.1) = s.path.map (·.1) := by rw [hpath]
  exact h.enter hnone hnodes trivial

theorem Ordered.visit (h : Ordered g left s) (hpath : s.path = []) (root : String) :
    (∃ left', Ordered g left' (visit g s root)) ∧ (visit g s root).path = [] ∧
      (visit g s root).marks.contains root = true ∧
      ∀ n, s.marks.contains n = true → (visit g s root).marks.contains n = true := by
  unfold Search.visit
  split
  case isTrue hmet => exact ⟨⟨left, h⟩, hpath, hmet, fun _ hn => hn⟩
  case isFalse hnew =>
    obtain ⟨hrun, hend, hmet⟩ := (h.start hpath hnew).run
    exact ⟨hrun, hend, hmet root (by simp), fun n hn => hmet n (by simp [hn])⟩

theorem Ordered.foldl_visit (h : Ordered g left s) (hpath : s.path = []) (nodes : List String) :
    (∃ left', Ordered g left' (nodes.foldl (Search.visit g) s)) ∧
      (nodes.foldl (Search.visit g) s).path = [] ∧
      ∀ n, (s.marks.contains n = true ∨ n ∈ nodes) →
        (nodes.foldl (Search.visit g) s).marks.contains n = true := by
  induction nodes generalizing s left with
  | nil => exact ⟨⟨left, h⟩, hpath, fun n hn => hn.resolve_right List.not_mem_nil⟩
  | cons root rest ih =>
    obtain ⟨⟨left', h'⟩, hpath', hroot, hmet⟩ := h.visit hpath root
    obtain ⟨hord, hend, hall⟩ := ih h' hpath'
    refine ⟨hord, hend, fun n hn => hall n ?_⟩
    rcases hn with hn | hn
    · exact .inl (hmet n hn)
    · rcases List.mem_cons.1 hn with rfl | hn
      · exact .inl hroot
      · exact .inr hn

end Search

/-- **The closing edges break every circle.** Whatever the roots, a graph without the edges that
close the cycles found has no way that goes on forever, so none that leads back to its beginning. -/
theorem wellFounded_without_closing (g : Graph) (roots : List String) :
    WellFounded fun b a => g.Edge a b ∧ ¬ Closes (findCycles g roots) a b := by
  obtain ⟨⟨left, h⟩, hpath, hmet⟩ :=
    (Search.ordered_init g).foldl_visit rfl (roots ++ g.keys)
  refine ⟨fun a => ?_⟩
  by_cases hleft : a ∈ left
  · exact h.settled.acc a hleft
  · -- a node with an edge is among the keys, has been met, and is not on the path any more
    refine .intro a fun b hb => absurd ?_ hleft
    have hkey : a ∈ roots ++ g.keys := List.mem_append_right _ (mem_keys_of_edge hb.1)
    have hmark := hmet a (.inr hkey)
    rw [Std.HashMap.contains_eq_isSome_getElem?] at hmark
    obtain ⟨mark, hmark⟩ := Option.isSome_iff_exists.1 hmark
    cases mark with
    | visiting =>
      have := (h.visiting_iff a).1 hmark
      rw [hpath] at this
      cases this
    | done => exact (h.done_iff a).1 hmark

theorem findCycles_ne_nil {g : Graph} {a : String} (h : Relation.TransGen g.Edge a a)
    (roots : List String) : findCycles g roots ≠ [] := by
  intro hnil
  have hwf := wellFounded_without_closing g roots
  have hopen : g.Edge ≤ fun a b => g.Edge a b ∧ ¬ Closes (findCycles g roots) a b := by
    intro x y hxy
    refine ⟨hxy, ?_⟩
    rintro ⟨front, hmem⟩
    rw [hnil] at hmem
    cases hmem
  have hcircle := Relation.transGen_swap.2 (Relation.TransGen.mono hopen a a h)
  exact hwf.transGen.asymmetric a a hcircle hcircle

theorem foldl_keepNew_ne_nil (cycles : List (List String))
    {kept : Array (List String) × Std.HashSet (List String)} (h : kept.1 ≠ #[]) :
    (cycles.foldl keepNew kept).1 ≠ #[] := by
  induction cycles generalizing kept with
  | nil => exact h
  | cons c rest ih =>
    apply ih
    unfold keepNew
    dsimp only
    split
    · exact h
    · simp

/-- Only repetitions are left out. -/
theorem distinctCycles_ne_nil {cycles : List (List String)} (h : cycles ≠ []) :
    distinctCycles cycles ≠ [] := by
  obtain ⟨c, rest, rfl⟩ := List.exists_cons_of_ne_nil h
  have hfirst : (keepNew (#[], ∅) c).1 ≠ #[] := by simp [keepNew]
  exact fun hnil => foldl_keepNew_ne_nil rest hfirst (Array.toList_eq_nil_iff.1 hnil)

theorem exists_mem_distinctCycles {g : Graph} {a : String} (h : Relation.TransGen g.Edge a a)
    (roots : List String) : ∃ path, path ∈ distinctCycles (findCycles g roots) :=
  List.exists_mem_of_ne_nil _ (distinctCycles_ne_nil (findCycles_ne_nil h roots))

end DocCompiler.Graph
