import DocCompiler.Proofs.Graph.ClosedPaths
import DocCompiler.Proofs.Preflight.Rounds

/-! The dependency check invents nothing: it reports only mentions that the document reaches and
that do not resolve, and only cycles of snippets that contain each other. The worklist never holds
a need that is not reached. -/

namespace DocCompiler.Preflight

open Snippet (Index Resolved)

variable {index : Index} {blocks : List Block}

namespace Dependencies

variable {deps : Dependencies}

/-- Whatever has been found so far is there. -/
structure Grounded (index : Index) (blocks : List Block) (deps : Dependencies) : Prop where
  missing : ∀ p ∈ deps.missing, ∃ m referencedBy, Mentioned index blocks m ∧
    m.target? index = none ∧ p = .dependencyMissing m.reference m.request?.join referencedBy
  linked : ∀ a b, deps.graph.Edge a b → Contains index blocks a b

theorem grounded_empty (index : Index) (blocks : List Block) : Grounded index blocks empty :=
  ⟨fun p hp => by simp [empty] at hp, fun a b hab => by simp [empty] at hab⟩

theorem Grounded.report (h : Grounded index blocks deps) {m : Mention}
    (hm : Mentioned index blocks m) (hnone : m.target? index = none) (referencedBy : String) :
    Grounded index blocks (report referencedBy deps m) := by
  unfold Dependencies.report
  split
  case isTrue => exact h
  case isFalse =>
    refine ⟨fun p hp => ?_, h.linked⟩
    rcases Array.mem_push.1 hp with hp | rfl
    · exact h.missing p hp
    · exact ⟨m, referencedBy, hm, hnone, rfl⟩

theorem Grounded.reportAll (h : Grounded index blocks deps) {mentions : List Mention}
    (hmentions : ∀ m ∈ mentions, Mentioned index blocks m) (referencedBy : String) :
    Grounded index blocks (reportAll index referencedBy mentions deps) := by
  have hfold : ∀ l : List Mention,
      (∀ m ∈ l, Mentioned index blocks m ∧ m.target? index = none) →
        ∀ deps, Grounded index blocks deps →
          Grounded index blocks (l.foldl (Dependencies.report referencedBy) deps) := by
    intro l
    induction l with
    | nil => exact fun _ _ h => h
    | cons m rest ih =>
      intro hl deps h
      obtain ⟨hm, hnone⟩ := hl m (List.mem_cons_self ..)
      exact ih (fun m' hm' => hl m' (List.mem_cons_of_mem m hm')) _ (h.report hm hnone _)
  refine hfold _ (fun m hm => ?_) deps h
  rw [List.mem_filter, Option.isNone_iff_eq_none] at hm
  exact ⟨hmentions m hm.1, hm.2⟩

theorem Grounded.link (h : Grounded index blocks deps) {n : Need} {r : Resolved}
    (hn : Reached index blocks n) (hr : index.resolveById? n.1 n.2 = some r) :
    Grounded index blocks (deps.link n.1 (needsWithin index n)) := by
  refine ⟨h.missing, fun a b hab => ?_⟩
  rcases (edge_link ..).1 hab with hab | ⟨rfl, n', hn', rfl⟩
  · exact h.linked a b hab
  · rw [needsWithin_of_some hr] at hn'
    obtain ⟨m, hm, hneed⟩ := List.mem_filterMap.1 hn'
    exact ⟨n, r, m, n', hn, hr, hm, hneed, rfl, rfl⟩

theorem Grounded.foldl_reportAll (h : Grounded index blocks deps)
    {mentions : List (String × List Mention)}
    (hmentions : ∀ b ∈ mentions, ∀ m ∈ b.2, Mentioned index blocks m) :
    Grounded index blocks
      (mentions.foldl (fun deps b => Dependencies.reportAll index b.1 b.2 deps) deps) := by
  induction mentions generalizing deps with
  | nil => exact h
  | cons b rest ih =>
    have hfirst := h.reportAll (hmentions b (List.mem_cons_self ..)) b.1
    exact ih hfirst fun b' hb' => hmentions b' (List.mem_cons_of_mem b hb')

end Dependencies

namespace Worklist

variable {w w' : Worklist} {need? : Option Need} (h : Round index w need? w')
  (hneeds : ∀ n ∈ w.needs, Reached index blocks n)
include h hneeds

theorem Round.reached :
    (∀ n ∈ w'.needs, Reached index blocks n) ∧ ∀ n ∈ need?, Reached index blocks n := by
  cases h with
  | again | bodiless => exact ⟨fun n hn => hneeds n (.tail _ hn), nofun⟩
  | scan new hr =>
    have hneed := hneeds _ (.head _)
    refine ⟨fun n hn => ?_, fun n hn => Option.some.inj hn ▸ hneed⟩
    rcases List.mem_append.1 hn with hn | hn
    · rw [needsWithin_of_some hr] at hn
      obtain ⟨m, hm, hn⟩ := List.mem_filterMap.1 hn
      exact .ofBody hneed hr hm hn
    · exact hneeds n (.tail _ hn)

theorem Round.grounded (hw : Dependencies.Grounded index blocks w.deps) :
    Dependencies.Grounded index blocks w'.deps := by
  cases h with
  | again | bodiless => exact hw
  | scan new hr =>
    have hneed := hneeds _ (.head _)
    exact (hw.link hneed hr).reportAll (fun m hm => .ofBody hneed hr hm) _

end Worklist

/-- A finding of the dependency check is a mention of the document that does not resolve, or a
closed path of snippets that contain each other. -/
theorem mem_checkDependencies {r : CompileRequest} {p : Problem} (h : p ∈ checkDependencies r) :
    (∃ m referencedBy, Mentioned (Index.ofBundles r.snippets) r.document.orderedBlocks m ∧
      m.target? (Index.ofBundles r.snippets) = none ∧
      p = .dependencyMissing m.reference m.request?.join referencedBy) ∨
    ∃ path, Graph.ClosedPath
        (Contains (Index.ofBundles r.snippets) r.document.orderedBlocks) path ∧
      p = .snippetCycle path := by
  set index := Index.ofBundles r.snippets
  set blocks := r.document.orderedBlocks
  have hmentions : ∀ b ∈ mentionsOf r, ∀ m ∈ b.2, Mentioned index blocks m := by
    intro b hb m hm
    obtain ⟨block, hblock, rfl⟩ := List.mem_map.1 hb
    exact .ofBlock hblock hm
  have hneeds : ∀ n ∈ (Worklist.start r).needs, Reached index blocks n := by
    intro n hn
    obtain ⟨b, hb, m, hm, hn⟩ := Worklist.mem_needs_start.1 hn
    exact .ofBlock hb hm hn
  have hstart := (Dependencies.grounded_empty index blocks).foldl_reportAll hmentions
  obtain ⟨-, hdeps⟩ := Worklist.run_keeps
    (P := fun w => (∀ n ∈ w.needs, Reached index blocks n) ∧ Dependencies.Grounded index blocks w.deps)
    (fun h hw => ⟨(h.reached hw.1).1, h.grounded hw.1 hw.2⟩) ⟨hneeds, hstart⟩
  rcases List.mem_append.1 h with h | h
  · exact .inl (hdeps.missing p (Array.mem_toList_iff.1 h))
  · obtain ⟨path, hpath, rfl⟩ := List.mem_map.1 h
    have hclosed := Graph.closedPath_of_mem_findCycles (Graph.mem_of_mem_distinctCycles hpath)
    exact .inr ⟨path, hclosed.mono hdeps.linked, rfl⟩

end DocCompiler.Preflight
