import DocCompiler.Proofs.Preflight.Exportable
import Mathlib.Algebra.GroupWithZero.Nat
import Mathlib.Algebra.Order.BigOperators.Group.Finset

/-! The worklist of the dependency check, round by round. A round takes the first need off the list
and scans its body, unless that has been done before. A body puts on the list what it needs, so the
rounds are as many as the needs of the blocks and of the scanned bodies; and no body is scanned
twice, so there is an end to them. -/

namespace DocCompiler.Preflight

open Snippet (Index Resolved)

namespace Worklist

variable {index : Index} {w w' : Worklist}

section Round

variable {need? : Option Need} (h : Round index w need? w')
include h

theorem Round.length_needs :
    w'.needs.length + 1 =
      w.needs.length + (need?.toList.map fun n => (needsWithin index n).length).sum := by
  cases h with
  | again | bodiless => simp
  | scan =>
    simp only [Option.toList_some, List.map_cons, List.map_nil, List.sum_cons, List.sum_nil,
      List.length_append, List.length_cons]
    omega

theorem Round.new_of_mem {n : Need} (hn : n ∈ need?) :
    w.expanded.contains n = false ∧ index.resolveById? n.1 n.2 ≠ none := by
  cases h with
  | again | bodiless => cases hn
  | scan new hr =>
    obtain rfl := Option.some.inj hn
    exact ⟨new, by simp [hr]⟩

end Round

section Rounds

variable {n : Nat} {scanned : List Need}

variable (h : Rounds index w n scanned w')
include h

/-- Each round takes a need off the list, and each scanned body puts on what it needs. -/
theorem Rounds.length_needs :
    w'.needs.length + n =
      w.needs.length + (scanned.map fun s => (needsWithin index s).length).sum := by
  induction h with
  | refl w => simp
  | next busy _ ih =>
    have hround : Round index _ _ _ := round_round busy
    have hlength := hround.length_needs
    rw [List.map_append, List.sum_append]
    omega

theorem Rounds.expanded_iff {s : Need} (hbody : index.resolveById? s.1 s.2 ≠ none) :
    w'.expanded.contains s = true ↔ w.expanded.contains s = true ∨ s ∈ scanned := by
  induction h with
  | refl w => simp
  | next busy _ ih =>
    rw [ih, (round_round busy).expanded_iff hbody, List.mem_append, Option.mem_toList, or_assoc,
      Option.mem_def]

theorem Rounds.new_of_mem {s : Need} (hs : s ∈ scanned) :
    w.expanded.contains s = false ∧ index.resolveById? s.1 s.2 ≠ none := by
  induction h with
  | refl w => cases hs
  | next busy _ ih =>
    rcases List.mem_append.1 hs with hs | hs
    · exact (round_round busy).new_of_mem (Option.mem_toList.1 hs)
    · obtain ⟨hnew, hbody⟩ := ih hs
      refine ⟨Bool.eq_false_iff.2 fun hold => ?_, hbody⟩
      rw [((round_round busy).expanded_iff hbody).2 (.inl hold)] at hnew
      exact Bool.noConfusion hnew

theorem Rounds.nodup : scanned.Nodup := by
  induction h with
  | refl w => exact .nil
  | @next w w' n scanned busy rest ih =>
    refine List.nodup_append.2 ⟨?_, ih, ?_⟩
    · cases w.scanned? index <;> simp
    · rintro s hs _ hs' rfl
      have hs := Option.mem_toList.1 hs
      obtain ⟨hnew, hbody⟩ := rest.new_of_mem hs'
      rw [((round_round busy).expanded_iff hbody).2 (.inr hs)] at hnew
      exact Bool.noConfusion hnew

theorem Rounds.reached {blocks : List Block} (hw : ∀ s ∈ w.needs, Reached index blocks s) :
    ∀ s ∈ scanned, Reached index blocks s := by
  induction h with
  | refl w => nofun
  | next busy _ ih =>
    obtain ⟨hneeds, hscanned⟩ := (round_round busy).reached hw
    intro s hs
    rcases List.mem_append.1 hs with hs | hs
    · exact hscanned s (Option.mem_toList.1 hs)
    · exact ih hneeds s hs

theorem Rounds.le_sum : n ≤ w.needs.length +
    ∑ s ∈ (Dependencies.possible index).toFinset, (needsWithin index s).length := by
  have hlength := h.length_needs
  have hsub : scanned.toFinset ⊆ (Dependencies.possible index).toFinset := by
    intro s hs
    obtain ⟨r, hr⟩ := Option.ne_none_iff_exists'.1 (h.new_of_mem (List.mem_toFinset.1 hs)).2
    exact List.mem_toFinset.2 (Dependencies.mem_possible hr)
  have hsum : (scanned.map fun s => (needsWithin index s).length).sum ≤
      ∑ s ∈ (Dependencies.possible index).toFinset, (needsWithin index s).length := by
    rw [← List.sum_toFinset _ h.nodup]
    exact Finset.sum_le_sum_of_subset hsub
  omega

end Rounds
end Worklist

section Issues

/-- The snippet and the revision that each issue of a missing snippet gives in its details. -/
def Report.missingDetails (report : Report) : List (Option Json × Option Json) :=
  (report.issues.filter (·.code == "PREFLIGHT_SNIPPET_DEPENDENCY_MISSING")).map fun i =>
    (i.details.bind (·.field? "snippetId"), i.details.bind (·.field? "revision"))

def shownKey (k : String × Option UInt32) : Option Json × Option Json :=
  (some (.str k.1), some (k.2.elim .null (.nat ·.toNat)))

theorem shownKey_injective : Function.Injective shownKey := by
  rintro ⟨reference, revision⟩ ⟨reference', revision'⟩ h
  simp only [shownKey, Prod.mk.injEq, Option.some.injEq, Json.str.injEq] at h
  obtain ⟨rfl, h⟩ := h
  cases revision <;> cases revision'
  case none.none => rfl
  case none.some => cases h
  case some.none => cases h
  case some.some rev rev' =>
    have hnat : (rev.toNat : Int) = rev'.toNat := Json.Number.int.inj (Json.num.inj h)
    rw [UInt32.toNat_inj.1 (Int.ofNat_inj.1 hnat)]

theorem missingDetails_ofIssues (ps : List Problem) :
    (Report.ofIssues (ps.map (·.toIssue))).missingDetails =
      (ps.filterMap (·.missingKey?)).map shownKey := by
  show ((ps.map (·.toIssue)).filter _).map _ = _
  induction ps with
  | nil => rfl
  | cons p ps ih =>
    rw [List.map_cons, List.filter_cons]
    cases p with
    | dependencyMissing => exact congrArg (_ :: ·) ih
    | _ => exact ih

theorem Problem.missingKey?_eq_none {p : Problem}
    (h : p.code ≠ "PREFLIGHT_SNIPPET_DEPENDENCY_MISSING") : p.missingKey? = none := by
  cases p with
  | dependencyMissing => exact absurd rfl h
  | _ => rfl

theorem missingDetails_eq (r : CompileRequest) :
    (Compile.preflightDocument r).missingDetails =
      ((checkDependencies r).filterMap (·.missingKey?)).map shownKey := by
  have hnone {ps : List Problem}
      (h : ∀ p ∈ ps, p.code ≠ "PREFLIGHT_SNIPPET_DEPENDENCY_MISSING") :
      ps.filterMap (·.missingKey?) = [] :=
    List.filterMap_eq_nil_iff.2 fun p hp => Problem.missingKey?_eq_none (h p hp)
  have hstatus := hnone fun _ hp => (code_ne_of_mem (r := r) (.inl hp)).1
  have hrequired := hnone fun _ hp => (code_ne_of_mem (r := r) (.inr (.inl hp))).1
  have hoptions := hnone fun _ hp => (code_ne_of_mem (r := r) (.inr (.inr (.inl hp)))).1
  have hschema := hnone fun _ hp => (code_ne_of_mem (r := r) (.inr (.inr (.inr (.inl hp))))).1
  have hblocks := hnone fun _ hp => (code_ne_of_mem (r := r) (.inr (.inr (.inr (.inr hp))))).1
  rw [Compile.preflightDocument, run_nil, missingDetails_ofIssues, problems]
  simp only [List.filterMap_append, hstatus, hrequired, hoptions, hschema, hblocks,
    List.nil_append, List.append_nil]

theorem mem_checkDependencies_missingKey? {r : CompileRequest} {k : String × Option UInt32} :
    k ∈ (checkDependencies r).filterMap (·.missingKey?) ↔
      ∃ m, Mentioned (Index.ofBundles r.snippets) r.document.orderedBlocks m ∧
        m.target? (Index.ofBundles r.snippets) = none ∧ m.key = k := by
  rw [List.mem_filterMap]
  constructor
  · rintro ⟨p, hp, hkey⟩
    rcases mem_checkDependencies hp with ⟨m, referencedBy, hm, hnone, rfl⟩ | ⟨path, -, rfl⟩
    · exact ⟨m, hm, hnone, Option.some.inj hkey⟩
    · cases hkey
  · rintro ⟨m, hm, hnone, rfl⟩
    obtain ⟨referencedBy, hp⟩ := dependencyMissing_of_mentioned hm hnone
    exact ⟨_, hp, rfl⟩

end Issues

namespace Worklist

/-- A mention in one of the blocks, or in the body of one of the scanned needs. -/
def Seen (index : Index) (blocks : List Block) (scanned : List Need) (m : Mention) : Prop :=
  (∃ b ∈ blocks, m ∈ Mention.ofBlock b) ∨
    ∃ s ∈ scanned, ∃ v, index.resolveById? s.1 s.2 = some v ∧ m ∈ Mention.all v.body

theorem seen_iff {index : Index} {blocks : List Block} {scanned : List Need}
    (h : ∀ s, s ∈ scanned ↔ Reached index blocks s ∧ index.resolveById? s.1 s.2 ≠ none)
    {m : Mention} : Seen index blocks scanned m ↔ Mentioned index blocks m := by
  constructor
  · rintro (⟨b, hb, hm⟩ | ⟨s, hs, v, hv, hm⟩)
    · exact .ofBlock hb hm
    · exact .ofBody ((h s).1 hs).1 hv hm
  · intro hm
    cases hm with
    | ofBlock hb hm => exact .inl ⟨_, hb, hm⟩
    | ofBody hs hv hm => exact .inr ⟨_, (h _).2 ⟨hs, by simp [hv]⟩, _, hv, hm⟩

section Start

variable {r : CompileRequest} {n : Nat} {scanned : List Need} {w : Worklist}
  (h : Rounds (Index.ofBundles r.snippets) (start r) n scanned w) (hempty : w.needs = [])
include h hempty

theorem Rounds.checkDependencies_eq : checkDependencies r = w.findings (start r).needs := by
  have hrun : (start r).run (Index.ofBundles r.snippets) = w :=
    run_eq_of_rounds h (List.isEmpty_iff.2 hempty)
  rw [checkDependencies, hrun]

theorem Rounds.mem_scanned_iff {s : Need} : s ∈ scanned ↔
    Reached (Index.ofBundles r.snippets) r.document.orderedBlocks s ∧
      (Index.ofBundles r.snippets).resolveById? s.1 s.2 ≠ none := by
  constructor
  · intro hs
    refine ⟨h.reached (fun n hn => ?_) s hs, (h.new_of_mem hs).2⟩
    obtain ⟨b, hb, m, hm, hneed⟩ := mem_needs_start.1 hn
    exact .ofBlock hb hm hneed
  · rintro ⟨hs, hbody⟩
    have hexpanded := (h.expanded_iff hbody).1 (h.contains_of_reached hempty hs)
    exact hexpanded.resolve_left (by simp [start])

theorem Rounds.filterMap_missingKey? :
    (checkDependencies r).filterMap (·.missingKey?) = w.deps.keys := by
  have hcycles (paths : List (List String)) :
      (paths.map Problem.snippetCycle).filterMap (·.missingKey?) = [] := by
    rw [List.filterMap_map]
    exact List.filterMap_eq_nil_iff.2 fun _ _ => rfl
  rw [h.checkDependencies_eq hempty, findings, List.filterMap_append, hcycles, List.append_nil]
  rfl

end Start

/-- **The worklist comes to an end, scans no body twice and reports each missing snippet once.**
From the worklist that the check of a request starts with, rounds lead to an empty list; and however
far they have gone, they are bounded by the request, and no need has been scanned twice. When the
list is empty, the check reports what has been found; the scanned needs are those with a body that
the document reaches; and the details of the issues of missing snippets are all different, and are
those of the mentions in blocks and scanned bodies that do not resolve. -/
theorem rounds_scan_and_report_once (r : CompileRequest) :
    let index := Index.ofBundles r.snippets
    let details := (Compile.preflightDocument r).missingDetails
    (∃ n scanned w, Rounds index (start r) n scanned w ∧ w.needs = []) ∧
    ∀ n scanned w, Rounds index (start r) n scanned w →
      n ≤ (start r).needs.length +
        ∑ s ∈ (Dependencies.possible index).toFinset, (needsWithin index s).length ∧
      scanned.Nodup ∧
      (w.needs = [] →
        checkDependencies r = w.findings (start r).needs ∧
        (∀ s, s ∈ scanned ↔
          Reached index r.document.blocks s ∧ index.resolveById? s.1 s.2 ≠ none) ∧
        details.Nodup ∧
        ∀ d, d ∈ details ↔ ∃ m, Seen index r.document.blocks scanned m ∧
          m.target? index = none ∧ shownKey m.key = d) := by
  intro index details
  obtain ⟨n, scanned, hrounds, -⟩ := exists_rounds index (start r)
  refine ⟨⟨n, scanned, _, hrounds, needs_run index (start r)⟩,
    fun n scanned w h => ⟨h.le_sum, h.nodup, fun hempty => ?_⟩⟩
  have hreached (s : Need) :
      Reached index r.document.orderedBlocks s ↔ Reached index r.document.blocks s :=
    ⟨.mono (orderedBlocks_subset r.document), .mono (subset_orderedBlocks r.document)⟩
  have hscanned (s : Need) : s ∈ scanned ↔
      Reached index r.document.blocks s ∧ index.resolveById? s.1 s.2 ≠ none := by
    rw [h.mem_scanned_iff hempty, hreached]
  have hmentioned (m : Mention) : Mentioned index r.document.orderedBlocks m ↔
      Seen index r.document.blocks scanned m := by
    rw [seen_iff hscanned]
    exact ⟨.mono (orderedBlocks_subset r.document), .mono (subset_orderedBlocks r.document)⟩
  have hdetails : details = ((checkDependencies r).filterMap (·.missingKey?)).map shownKey :=
    missingDetails_eq r
  refine ⟨h.checkDependencies_eq hempty, hscanned, ?_, fun d => ?_⟩
  · rw [hdetails, h.filterMap_missingKey? hempty]
    exact h.explored.truthful.distinct.map shownKey_injective
  · simp only [hdetails, List.mem_map, mem_checkDependencies_missingKey?]
    constructor
    · rintro ⟨_, ⟨m, hm, hnone, rfl⟩, rfl⟩
      exact ⟨m, (hmentioned m).1 hm, hnone, rfl⟩
    · rintro ⟨m, hm, hnone, rfl⟩
      exact ⟨_, ⟨m, (hmentioned m).2 hm, hnone, rfl⟩, rfl⟩

end Worklist
end DocCompiler.Preflight
