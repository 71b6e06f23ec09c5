import Std.Data.TreeMap

/-! Directed graphs on strings. -/

namespace DocCompiler

/-- The targets of every node that has edges, each once and in the order they were added. -/
abbrev Graph := Std.TreeMap String (Array String)

namespace Graph

def targets (g : Graph) (node : String) : Array String := g.getD node #[]

def addNode (g : Graph) (node : String) : Graph := g.insert node (g.targets node)

def addEdge (g : Graph) (source target : String) : Graph :=
  let ts := g.targets source
  g.insert source (if ts.contains target then ts else ts.push target)

def heads (g : Graph) : List String := g.toList.flatMap fun e => e.2.toList

theorem mem_heads {g : Graph} {node target : String} {i : Nat}
    (h : (g.targets node)[i]? = some target) : target ∈ g.heads := by
  have hmem : target ∈ g.targets node := Array.mem_of_getElem? h
  rw [targets, Std.TreeMap.getD_eq_getD_getElem?] at hmem
  cases hg : g[node]? with
  | none => rw [hg] at hmem; simp at hmem
  | some ts =>
    rw [hg] at hmem
    exact List.mem_flatMap.2 ⟨(node, ts),
      Std.TreeMap.mem_toList_iff_getElem?_eq_some.2 hg, Array.mem_toList_iff.2 hmem⟩

end Graph
end DocCompiler
