import DocCompiler.Graph.Basic
import Std.Data.HashMap
import Std.Data.HashSet

/-! Cycles of a graph, found by a depth-first search. A node is being visited while it is on the
path of the search, and done afterwards; an edge back to a node on the path closes a cycle. The
path is kept as a list, so depth costs memory only, and every step lowers `Search.work`. -/

namespace DocCompiler.Graph

inductive Mark where
  | visiting
  | done
  deriving DecidableEq

/-- A search under way. The path runs from its last node back to where it started, each node
with the number of its edges that have been followed; `cycles` holds the ones found, the first
one first. -/
structure Search where
  marks : Std.HashMap String Mark
  path : List (String × Nat)
  cycles : Array (List String)

namespace Search

/-- The cycle that an edge from the end of a path back to `target` closes. -/
def closing (target : String) (path : List (String × Nat)) : List String :=
  let behind := (path.map (·.1)).takeWhile (· != target)
  target :: (behind.reverse ++ [target])

def follow (target : String) : Search → Search
  | ⟨marks, path, cycles⟩ =>
    match marks[target]? with
    | some .visiting => ⟨marks, path, cycles.push (closing target path)⟩
    | some .done => ⟨marks, path, cycles⟩
    | none => ⟨marks.insert target .visiting, (target, 0) :: path, cycles⟩

def isDone (s : Search) : Bool := s.path.isEmpty

/-- One step: follows the next edge of the last node, or leaves a node that has no more. -/
def step (g : Graph) : Search → Search
  | ⟨marks, [], cycles⟩ => ⟨marks, [], cycles⟩
  | ⟨marks, (node, next) :: before, cycles⟩ =>
    match (g.targets node)[next]? with
    | none => ⟨marks.insert node .done, before, cycles⟩
    | some target => follow target ⟨marks, (node, next + 1) :: before, cycles⟩

/-- The edges of the nodes that have not been met, with two more for each. -/
def unmet (g : Graph) (marks : Std.HashMap String Mark) : List String → Nat
  | [] => 0
  | n :: rest => (if marks.contains n then 0 else (g.targets n).size + 2) + unmet g marks rest

/-- The edges of a path that are still to be followed, with one more for each node. -/
def ahead (g : Graph) : List (String × Nat) → Nat
  | [] => 0
  | (node, next) :: before => (g.targets node).size - next + 1 + ahead g before

def work (g : Graph) (s : Search) : Nat := unmet g s.marks g.heads + ahead g s.path

theorem unmet_cons (g : Graph) (marks : Std.HashMap String Mark) (n : String)
    (rest : List String) : unmet g marks (n :: rest) =
      (if marks.contains n then 0 else (g.targets n).size + 2) + unmet g marks rest := rfl

theorem unmet_insert_le (g : Graph) (marks : Std.HashMap String Mark) (nodes : List String)
    (node : String) (mark : Mark) : unmet g (marks.insert node mark) nodes ≤ unmet g marks nodes := by
  induction nodes with
  | nil => exact Nat.le_refl _
  | cons n rest ih =>
    rw [unmet_cons, unmet_cons, Std.HashMap.contains_insert]
    refine Nat.add_le_add ?_ ih
    cases marks.contains n
    · cases node == n
      · exact Nat.le_refl _
      · exact Nat.zero_le _
    · exact Nat.le_of_eq (by rw [Bool.or_true])

theorem unmet_insert_lt {g : Graph} {marks : Std.HashMap String Mark} {nodes : List String}
    {node : String} (hmem : node ∈ nodes) (hnew : marks.contains node = false) (mark : Mark) :
    unmet g (marks.insert node mark) nodes + (g.targets node).size + 2 ≤ unmet g marks nodes := by
  induction nodes with
  | nil => cases hmem
  | cons n rest ih =>
    have le := unmet_insert_le g marks [n] node mark
    rw [unmet_cons, unmet_cons]
    rcases List.mem_cons.1 hmem with rfl | hmem
    · have le := unmet_insert_le g marks rest node mark
      rw [Std.HashMap.contains_insert, BEq.rfl, Bool.true_or, if_pos rfl, hnew,
        if_neg Bool.false_ne_true]
      omega
    · have := ih hmem
      have nil (m) : unmet g m [] = 0 := rfl
      rw [unmet_cons, unmet_cons, nil, nil] at le
      omega

theorem work_step_lt {g : Graph} {s : Search} (h : s.isDone = false) :
    work g (s.step g) < work g s := by
  obtain ⟨marks, path, cycles⟩ := s
  cases path with
  | nil => cases h
  | cons e before =>
    obtain ⟨node, next⟩ := e
    unfold step
    dsimp only
    split
    · have := unmet_insert_le g marks g.heads node .done
      simp only [work, ahead]
      omega
    · rename_i target ht
      have hlt : next < (g.targets node).size := by
        rcases Nat.lt_or_ge next (g.targets node).size with h | h
        · exact h
        · rw [Array.getElem?_eq_none h] at ht; cases ht
      unfold follow
      dsimp only
      split
      · simp only [work, ahead]; omega
      · simp only [work, ahead]; omega
      · rename_i hm
        have := unmet_insert_lt (g := g) (mem_heads ht)
          (by rw [Std.HashMap.contains_eq_isSome_getElem?, hm]; rfl) .visiting
        simp only [work, ahead]
        omega

def run (g : Graph) (s : Search) : Search :=
  if _h : s.isDone then s else run g (s.step g)
termination_by work g s
decreasing_by exact work_step_lt (Bool.eq_false_iff.2 _h)

def visit (g : Graph) (s : Search) (root : String) : Search :=
  if s.marks.contains root then s
  else run g ⟨s.marks.insert root .visiting, [(root, 0)], s.cycles⟩

end Search

/-- One closed path for each edge that closes a cycle, in a search from the roots and then from
the nodes with edges in order. -/
def findCycles (g : Graph) (roots : List String) : List (List String) :=
  ((roots ++ g.keys).foldl (Search.visit g) ⟨∅, [], #[]⟩).cycles.toList

def least? : List String → Option String
  | [] => none
  | a :: rest => some (rest.foldl (fun m b => if b < m then b else m) a)

/-- The nodes of a closed path from its least one on; the same for all paths around a cycle. -/
def canonicalCycle (cycle : List String) : List String :=
  let nodes := cycle.dropLast
  match least? nodes with
  | none => []
  | some m => nodes.drop (nodes.idxOf m) ++ nodes.take (nodes.idxOf m)

def keepNew (kept : Array (List String) × Std.HashSet (List String)) (cycle : List String) :
    Array (List String) × Std.HashSet (List String) :=
  let key := canonicalCycle cycle
  if kept.2.contains key then kept else (kept.1.push cycle, kept.2.insert key)

/-- The cycles without those that only begin elsewhere on an earlier one. -/
def distinctCycles (cycles : List (List String)) : List (List String) :=
  (cycles.foldl keepNew (#[], ∅)).1.toList

end DocCompiler.Graph
