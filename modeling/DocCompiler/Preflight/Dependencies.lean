import DocCompiler.Graph.Cycles
import DocCompiler.Preflight.Report
import DocCompiler.Transclusion.Expansion

/-! The snippets that a document reaches. The bodies of all needed snippets are scanned, each
once, depth first and from left to right; references that do not resolve are missing, and
snippets that contain each other form cycles. Every round lowers `Worklist.work`, so there is an
end to them for every library. -/

namespace DocCompiler.Preflight

open Snippet (Index Resolved)
open Transclusion (Token)

/-- A reference, with the revision it asks for if any; nothing when no revision can fit it. -/
structure Mention where
  reference : String
  request? : Option (Option UInt32)

namespace Mention

def ofToken (t : Token) : Mention := ⟨t.identifier, t.request?⟩

def all (text : String) : List Mention := (Token.all text).map ofToken

def ofBlock (b : Block) : List Mention :=
  match b.content with
  | .markdown body => all body
  | .snippet snippetId revision _ => [⟨snippetId, some revision⟩]
  | .group .. | .comment .. | .divider .. => []

def target? (index : Index) (m : Mention) : Option Resolved :=
  m.request?.bind (index.resolve? m.reference ·)

def key (m : Mention) : String × Option UInt32 := (m.reference, m.request?.join)

def revisionText : Option UInt32 → String
  | none => "None"
  | some rev => "Some(" ++ toString rev ++ ")"

def labelOf (key : String × Option UInt32) : String := key.1 ++ "@" ++ revisionText key.2

end Mention

/-- A snippet that is needed, by its id, at a revision or at its head. -/
abbrev Need := String × Option UInt32

/-- What a mention needs if it resolves. -/
def Mention.need? (index : Index) (m : Mention) : Option Need :=
  (m.target? index).map fun r => (r.snippet.id, m.request?.join)

/-- What has been found so far: which snippet contains which, and the missing mentions with the
labels that they have. -/
structure Dependencies where
  graph : Graph
  reported : Std.HashSet String
  missing : Array Problem

namespace Dependencies

def empty : Dependencies := ⟨∅, ∅, #[]⟩

/-- Reports a missing mention, unless one of its label has been reported. -/
def report (referencedBy : String) (deps : Dependencies) (m : Mention) : Dependencies :=
  if deps.reported.contains (Mention.labelOf m.key) then deps
  else ⟨deps.graph, deps.reported.insert (Mention.labelOf m.key),
    deps.missing.push (.dependencyMissing m.key.1 m.key.2 referencedBy)⟩

def reportAll (index : Index) (referencedBy : String) (mentions : List Mention)
    (deps : Dependencies) : Dependencies :=
  (mentions.filter fun m => (m.target? index).isNone).foldl (report referencedBy) deps

def link (id : String) (needs : List Need) (deps : Dependencies) : Dependencies :=
  let graph := needs.foldl (fun g n => g.addEdge id n.1) (deps.graph.addNode id)
  ⟨graph, deps.reported, deps.missing⟩

/-- The needs that can be met: every snippet at its head and at each of its revisions. -/
def possible (index : Index) : List Need :=
  index.bundles.flatMap fun b =>
    (b.snippet.id, none) :: b.versions.map fun v => (b.snippet.id, some v.rev)

def pending (index : Index) (expanded : Std.HashSet Need) : Nat :=
  (possible index).countP fun n => !expanded.contains n

theorem countP_insert_le (needs : List Need) (expanded : Std.HashSet Need) (need : Need) :
    needs.countP (fun n => !(expanded.insert need).contains n) ≤
      needs.countP (fun n => !expanded.contains n) :=
  List.countP_mono_left fun n _ hn => by
    simp only [Std.HashSet.contains_insert, Bool.not_eq_true', Bool.or_eq_false_iff] at hn
    simp [hn.2]

theorem pending_insert_le (index : Index) (expanded : Std.HashSet Need) (need : Need) :
    pending index (expanded.insert need) ≤ pending index expanded :=
  countP_insert_le _ expanded need

theorem pending_insert_lt {index : Index} {expanded : Std.HashSet Need} {need : Need}
    (hmem : need ∈ possible index) (hnew : expanded.contains need = false) :
    pending index (expanded.insert need) < pending index expanded := by
  unfold pending
  generalize possible index = needs at hmem
  induction needs with
  | nil => cases hmem
  | cons n rest ih =>
    rw [List.countP_cons, List.countP_cons]
    rcases List.mem_cons.1 hmem with rfl | hmem
    · have := countP_insert_le rest expanded need
      have old : (expanded.insert need).contains need = true := by simp
      rw [old, hnew, Bool.not_true, Bool.not_false, if_neg Bool.false_ne_true, if_pos rfl]
      omega
    · have h1 := ih hmem
      have h2 := countP_insert_le [n] expanded need
      rw [List.countP_cons, List.countP_cons, List.countP_nil, List.countP_nil] at h2
      omega

theorem mem_possible {index : Index} {id : String} {revision : Option UInt32} {r : Resolved}
    (h : index.resolveById? id revision = some r) : (id, revision) ∈ possible index := by
  obtain ⟨b, hb, hr⟩ := Option.bind_eq_some_iff.1 h
  rw [index.byId_eq] at hb
  have hid : (b.snippet.id == id) = true := by simpa using List.find?_some hb
  refine List.mem_flatMap.2 ⟨b, List.mem_of_find?_eq_some hb, ?_⟩
  rw [beq_iff_eq.1 hid]
  cases revision with
  | none => exact .head _
  | some rev =>
    obtain ⟨v, hv, rfl⟩ := Option.map_eq_some_iff.1 hr
    refine .tail _ (List.mem_map.2 ⟨v, List.mem_of_find?_eq_some hv, ?_⟩)
    have hrev : (v.rev == rev) = true := by simpa using List.find?_some hv
    rw [beq_iff_eq.1 hrev]

end Dependencies

/-- The blocks of a request with what they mention, in order. -/
def mentionsOf (r : CompileRequest) : List (String × List Mention) :=
  r.document.orderedBlocks.map fun b => (b.id, Mention.ofBlock b)

/-- A check under way: the needs that have been looked into, those on the list, and what has been
found. -/
structure Worklist where
  expanded : Std.HashSet Need
  needs : List Need
  deps : Dependencies

namespace Worklist

open Dependencies (pending)

/-- Nothing has been looked into, on the list is what the blocks need, and their missing mentions
are reported. -/
def start (r : CompileRequest) : Worklist :=
  let index := Index.ofBundles r.snippets
  let blocks := mentionsOf r
  { expanded := ∅
    needs := blocks.flatMap fun b => b.2.filterMap (·.need? index)
    deps := blocks.foldl (fun deps b => deps.reportAll index b.1 b.2) .empty }

def isDone (w : Worklist) : Bool := w.needs.isEmpty

/-- Looks into the first need on the list, unless that has been done. What its body needs in turn
goes before the rest. -/
def round (index : Index) : Worklist → Worklist
  | ⟨expanded, [], deps⟩ => ⟨expanded, [], deps⟩
  | ⟨expanded, need :: rest, deps⟩ =>
    if expanded.contains need then ⟨expanded, rest, deps⟩
    else
      match index.resolveById? need.1 need.2 with
      | none => ⟨expanded.insert need, rest, deps⟩
      | some r =>
        let mentions := Mention.all r.body
        let needs := mentions.filterMap (·.need? index)
        ⟨expanded.insert need, needs ++ rest,
          (deps.link need.1 needs).reportAll index need.1 mentions⟩

/-- The possible needs that are left and then the length of the list; a round lowers it. -/
def work (index : Index) (w : Worklist) : Nat × Nat := (pending index w.expanded, w.needs.length)

theorem work_round_lt {index : Index} {w : Worklist} (h : w.isDone = false) :
    Prod.Lex (· < ·) (· < ·) (work index (w.round index)) (work index w) := by
  obtain ⟨expanded, needs, deps⟩ := w
  cases needs with
  | nil => cases h
  | cons need rest =>
    rw [round]
    split
    case isTrue => exact .right _ (Nat.lt_succ_self _)
    case isFalse hnew =>
      split
      case h_1 =>
        rcases Nat.lt_or_eq_of_le (Dependencies.pending_insert_le index expanded need) with h | h
        · exact .left _ _ h
        · rw [work, work, h]
          exact .right _ (Nat.lt_succ_self _)
      case h_2 hr =>
        exact .left _ _ (Dependencies.pending_insert_lt (Dependencies.mem_possible hr)
          (Bool.eq_false_iff.2 hnew))

def run (index : Index) (w : Worklist) : Worklist :=
  if _h : w.isDone then w else run index (w.round index)
termination_by work index w
decreasing_by exact work_round_lt (Bool.eq_false_iff.2 _h)

/-- The missing mentions, and the cycles found from some needs. -/
def findings (w : Worklist) (roots : List Need) : List Problem :=
  w.deps.missing.toList ++
    (Graph.distinctCycles (Graph.findCycles w.deps.graph (roots.map (·.1)))).map .snippetCycle

end Worklist

/-- Every snippet reference resolves, and no snippet contains itself. -/
def checkDependencies (r : CompileRequest) : List Problem :=
  let start := Worklist.start r
  (start.run (Index.ofBundles r.snippets)).findings start.needs

end DocCompiler.Preflight
