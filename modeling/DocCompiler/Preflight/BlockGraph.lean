import DocCompiler.Graph.Cycles
import DocCompiler.Preflight.Report
import Std.Data.HashSet

/-! The blocks of a document as a graph: edges and groups name blocks that exist, and no
directed way leads back to where it began. -/

namespace DocCompiler.Preflight

def blockIds (d : Document) : Std.HashSet String := .ofList (d.blocks.map (·.id))

def unknownEnds (ids : Std.HashSet String) (e : Edge) : List String :=
  [e.source, e.target].filter (!ids.contains ·)

def edgeGraph (ids : Std.HashSet String) (edges : List Edge) : Graph :=
  (edges.filter fun e => (unknownEnds ids e).isEmpty).foldl
    (fun g e => g.addEdge e.source e.target) ∅

def danglingEdges (ids : Std.HashSet String) (edges : List Edge) : List Problem :=
  edges.filterMap fun e =>
    match unknownEnds ids e with
    | [] => none
    | unknown => some (.edgeDangling e unknown)

def missingChildren (ids : Std.HashSet String) (b : Block) : List Problem :=
  match b.content with
  | .group children _ => (children.filter (!ids.contains ·)).map (.groupChildMissing b.id)
  | _ => []

def checkBlockGraph (r : CompileRequest) : List Problem :=
  let d := r.document
  let ids := blockIds d
  let graph := edgeGraph ids d.edges
  let cycles := Graph.distinctCycles (Graph.findCycles graph (d.orderedBlocks.map (·.id)))
  danglingEdges ids d.edges ++ cycles.map .blockCycle ++
    d.orderedBlocks.flatMap (missingChildren ids)

end DocCompiler.Preflight
