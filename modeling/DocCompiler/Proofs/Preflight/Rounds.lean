import DocCompiler.Proofs.Preflight.Reach

/-! The worklist of the dependency check, round by round. What a need that has been looked into
mentions has been reported or linked, and is itself looked into or still on the list; so when the
list is empty, all that the document reaches has been looked into. -/

namespace DocCompiler.Preflight

open Snippet (Index Resolved)

def needsWithin (index : Index) (n : Need) : List Need :=
  (index.resolveById? n.1 n.2).elim [] fun r => (Mention.all r.body).filterMap (·.need? index)

theorem needsWithin_of_some {index : Index} {n : Need} {r : Resolved}
    (hr : index.resolveById? n.1 n.2 = some r) :
    needsWithin index n = (Mention.all r.body).filterMap (·.need? index) := by
  rw [needsWithin, hr]
  rfl

namespace Worklist

def scanned? (index : Index) : Worklist → Option Need
  | ⟨_, [], _⟩ => none
  | ⟨expanded, need :: _, _⟩ =>
    if expanded.contains need then none
    else (index.resolveById? need.1 need.2).map fun _ => need

/-- `Rounds index w n scanned w'`: after `n` rounds from `w`, none of them past the end, in which
the bodies of `scanned` have been scanned, there stands `w'`. -/
inductive Rounds (index : Index) : Worklist → Nat → List Need → Worklist → Prop where
  | refl (w : Worklist) : Rounds index w 0 [] w
  | next {w w' : Worklist} {n : Nat} {scanned : List Need} (busy : w.isDone = false)
      (rest : Rounds index (w.round index) n scanned w') :
      Rounds index w (n + 1) ((w.scanned? index).toList ++ scanned) w'

/-- What a round may come to: the need that it scans, if any, and the worklist that it leads to. -/
inductive Round (index : Index) : Worklist → Option Need → Worklist → Prop where
  | again {expanded : Std.HashSet Need} {need : Need} {rest : List Need} {deps : Dependencies}
      (old : expanded.contains need = true) :
      Round index ⟨expanded, need :: rest, deps⟩ none ⟨expanded, rest, deps⟩
  | bodiless {expanded : Std.HashSet Need} {need : Need} {rest : List Need} {deps : Dependencies}
      (new : expanded.contains need = false) (hr : index.resolveById? need.1 need.2 = none) :
      Round index ⟨expanded, need :: rest, deps⟩ none ⟨expanded.insert need, rest, deps⟩
  | scan {expanded : Std.HashSet Need} {need : Need} {rest : List Need} {deps : Dependencies}
      {r : Resolved} (new : expanded.contains need = false)
      (hr : index.resolveById? need.1 need.2 = some r) :
      Round index ⟨expanded, need :: rest, deps⟩ (some need)
        ⟨expanded.insert need, needsWithin index need ++ rest,
          (deps.link need.1 (needsWithin index need)).reportAll index need.1 (Mention.all r.body)⟩

variable {index : Index} {w w' : Worklist}

theorem round_round (busy : w.isDone = false) :
    Round index w (w.scanned? index) (w.round index) := by
  obtain ⟨expanded, needs, deps⟩ := w
  cases needs with
  | nil => cases busy
  | cons need rest =>
    rw [round, scanned?]
    by_cases old : expanded.contains need = true
    · rw [if_pos old, if_pos old]
      exact .again old
    · have new := Bool.eq_false_iff.2 old
      rw [if_neg old, if_neg old]
      cases hr : index.resolveById? need.1 need.2 with
      | none => exact .bodiless new hr
      | some r =>
        dsimp only
        rw [← needsWithin_of_some hr]
        exact .scan new hr

section Round

variable {need? : Option Need} (h : Round index w need? w')
include h

theorem Round.exists_head : ∃ need rest, w.needs = need :: rest ∧ rest ⊆ w'.needs ∧
    ∀ n, n = need ∨ w.expanded.contains n = true → w'.expanded.contains n = true := by
  cases h with
  | again old =>
    refine ⟨_, _, rfl, List.Subset.refl _, ?_⟩
    rintro n (rfl | hn)
    · exact old
    · exact hn
  | bodiless =>
    refine ⟨_, _, rfl, List.Subset.refl _, fun n hn => ?_⟩
    rwa [Std.HashSet.contains_insert, Bool.or_eq_true, beq_iff_eq, eq_comm]
  | scan =>
    refine ⟨_, _, rfl, List.subset_append_right _ _, fun n hn => ?_⟩
    rwa [Std.HashSet.contains_insert, Bool.or_eq_true, beq_iff_eq, eq_comm]

/-- What is on the list stays there until it is looked into. -/
theorem Round.covers {n : Need} (hn : n ∈ w.needs ∨ w.expanded.contains n = true) :
    n ∈ w'.needs ∨ w'.expanded.contains n = true := by
  obtain ⟨need, rest, hneeds, hrest, hexpanded⟩ := h.exists_head
  rcases hn with hn | hn
  · rw [hneeds] at hn
    rcases List.mem_cons.1 hn with hn | hn
    · exact .inr (hexpanded n (.inl hn))
    · exact .inl (hrest hn)
  · exact .inr (hexpanded n (.inr hn))

theorem Round.reports {k : String × Option UInt32} (hk : w.deps.Reports k) : w'.deps.Reports k := by
  cases h with
  | again | bodiless => exact hk
  | scan => exact (Dependencies.reports_reportAll ..).2 (.inl hk)

theorem Round.expanded_iff {n : Need} (hbody : index.resolveById? n.1 n.2 ≠ none) :
    w'.expanded.contains n = true ↔ w.expanded.contains n = true ∨ n ∈ need? := by
  cases h with
  | again => simp
  | bodiless new hr =>
    rw [Std.HashSet.contains_insert, Bool.or_eq_true, beq_iff_eq]
    have hne : ∀ need : Need, index.resolveById? need.1 need.2 = none → need ≠ n := by
      rintro need hnone rfl
      exact hbody hnone
    simp [hne _ hr]
  | scan =>
    rw [Std.HashSet.contains_insert, Bool.or_eq_true, beq_iff_eq, or_comm, Option.mem_some]

theorem Round.edge {a b : String} (hab : w.deps.graph.Edge a b) : w'.deps.graph.Edge a b := by
  cases h with
  | again | bodiless => exact hab
  | scan =>
    rw [Dependencies.graph_reportAll, Dependencies.edge_link]
    exact .inl hab

theorem Round.truthful (hw : w.deps.Truthful) : w'.deps.Truthful := by
  cases h with
  | again | bodiless => exact hw
  | scan => exact (hw.link _ _).reportAll _ _ _

theorem Round.of_scanned {n : Need} {r : Resolved} (hn : n ∈ need?)
    (hr : index.resolveById? n.1 n.2 = some r) :
    (∀ m ∈ Mention.all r.body, m.target? index = none → w'.deps.Reports m.key) ∧
      ∀ n' ∈ needsWithin index n, w'.deps.graph.Edge n.1 n'.1 ∧ n' ∈ w'.needs := by
  cases h with
  | again | bodiless => cases hn
  | scan new hr' =>
    obtain rfl := Option.some.inj hn
    obtain rfl := Option.some.inj (hr'.symm.trans hr)
    refine ⟨fun m hm hnone => ?_, fun n' hn' => ⟨?_, List.mem_append_left _ hn'⟩⟩
    · exact (Dependencies.reports_reportAll ..).2 (.inr ⟨m, hm, hnone, rfl⟩)
    · rw [Dependencies.graph_reportAll, Dependencies.edge_link]
      exact .inr ⟨rfl, n', hn', rfl⟩

end Round

/-- What the worklist keeps. -/
structure Explored (index : Index) (w : Worklist) : Prop where
  truthful : w.deps.Truthful
  reported : ∀ n, w.expanded.contains n = true → ∀ r, index.resolveById? n.1 n.2 = some r →
    ∀ m ∈ Mention.all r.body, m.target? index = none → w.deps.Reports m.key
  linked : ∀ n, w.expanded.contains n = true → ∀ n' ∈ needsWithin index n,
    w.deps.graph.Edge n.1 n'.1 ∧ (n' ∈ w.needs ∨ w.expanded.contains n' = true)

theorem Round.explored {need? : Option Need} (h : Round index w need? w')
    (hw : Explored index w) : Explored index w' := by
  refine ⟨h.truthful hw.truthful, fun n hn r hr m hm hnone => ?_, fun n hn n' hn' => ?_⟩
  · rcases (h.expanded_iff (by simp [hr])).1 hn with hold | hscanned
    · exact h.reports (hw.reported n hold r hr m hm hnone)
    · exact (h.of_scanned hscanned hr).1 m hm hnone
  · cases hr : index.resolveById? n.1 n.2 with
    | none =>
      rw [needsWithin, hr] at hn'
      cases hn'
    | some r =>
      rcases (h.expanded_iff (by simp [hr])).1 hn with hold | hscanned
      · obtain ⟨hedge, hseen⟩ := hw.linked n hold n' hn'
        exact ⟨h.edge hedge, h.covers hseen⟩
      · obtain ⟨hedge, hneed⟩ := (h.of_scanned hscanned hr).2 n' hn'
        exact ⟨hedge, .inl hneed⟩

section Rounds

variable {n : Nat} {scanned : List Need}

/-- Rounds that lead to the end are the whole run. -/
theorem run_eq_of_rounds (h : Rounds index w n scanned w') (done : w'.isDone = true) :
    run index w = w' := by
  induction h with
  | refl w => rw [run, dif_pos done]
  | next busy _ ih =>
    rw [run, dif_neg (by simp [busy])]
    exact ih done

theorem exists_rounds (index : Index) (w : Worklist) :
    ∃ n scanned, Rounds index w n scanned (run index w) ∧ (run index w).isDone = true := by
  induction w using run.induct index with
  | case1 w done =>
    rw [run, dif_pos done]
    exact ⟨0, [], .refl w, done⟩
  | case2 w busy ih =>
    rw [run, dif_neg busy]
    obtain ⟨n, scanned, h, done⟩ := ih
    exact ⟨_, _, .next (Bool.eq_false_iff.2 busy) h, done⟩

/-- What every round keeps, rounds keep. -/
theorem Rounds.keeps {P : Worklist → Prop}
    (hround : ∀ {w need? w'}, Round index w need? w' → P w → P w')
    (h : Rounds index w n scanned w') (hw : P w) : P w' := by
  induction h with
  | refl w => exact hw
  | next busy _ ih => exact ih (hround (round_round busy) hw)

theorem needs_run (index : Index) (w : Worklist) : (run index w).needs = [] := by
  obtain ⟨_, _, -, done⟩ := exists_rounds index w
  exact List.isEmpty_iff.1 done

end Rounds

theorem run_keeps {P : Worklist → Prop}
    (hround : ∀ {w need? w'}, Round index w need? w' → P w → P w') (hw : P w) :
    P (run index w) := by
  obtain ⟨_, _, h, -⟩ := exists_rounds index w
  exact h.keeps hround hw

section Start

variable {r : CompileRequest}

theorem mem_needs_start {n : Need} : n ∈ (start r).needs ↔
    ∃ b ∈ r.document.orderedBlocks, ∃ m ∈ Mention.ofBlock b,
      m.need? (Index.ofBundles r.snippets) = some n := by
  simp only [start, mentionsOf, List.flatMap_map, List.mem_flatMap, List.mem_filterMap]

theorem explored_start (r : CompileRequest) :
    Explored (Index.ofBundles r.snippets) (start r) :=
  ⟨(Dependencies.foldl_reportAll _ (mentionsOf r) Dependencies.truthful_empty).1,
    fun n hn => by simp [start] at hn, fun n hn => by simp [start] at hn⟩

end Start

section FromStart

variable {r : CompileRequest} {n : Nat} {scanned : List Need}
  (h : Rounds (Index.ofBundles r.snippets) (start r) n scanned w)
include h

theorem Rounds.explored : Explored (Index.ofBundles r.snippets) w :=
  h.keeps (fun h hw => h.explored hw) (explored_start r)

/-- Once the list is empty, every need that is reached has been looked into. -/
theorem Rounds.contains_of_reached (hempty : w.needs = []) {need : Need}
    (hneed : Reached (Index.ofBundles r.snippets) r.document.orderedBlocks need) :
    w.expanded.contains need = true := by
  have hcovers : ∀ n ∈ (start r).needs, n ∈ w.needs ∨ w.expanded.contains n = true :=
    h.keeps (P := fun w => ∀ n ∈ (start r).needs, n ∈ w.needs ∨ w.expanded.contains n = true)
      (fun h hw n hn => h.covers (hw n hn)) fun n hn => .inl hn
  have hseen {n : Need} (hn : n ∈ w.needs ∨ w.expanded.contains n = true) :
      w.expanded.contains n = true := hn.resolve_left (hempty ▸ List.not_mem_nil)
  induction hneed with
  | ofBlock hb hm hn => exact hseen (hcovers _ (mem_needs_start.2 ⟨_, hb, _, hm, hn⟩))
  | ofBody _ hr hm hn ih =>
    have hwithin := List.mem_filterMap.2 ⟨_, hm, hn⟩
    rw [← needsWithin_of_some hr] at hwithin
    exact hseen (h.explored.linked _ ih _ hwithin).2

end FromStart

end Worklist
end DocCompiler.Preflight
