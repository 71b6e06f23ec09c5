import DocCompiler.Proofs.Graph.Edges
import DocCompiler.Proofs.Transclusion.Uses
import DocCompiler.Preflight.Dependencies
import Mathlib.Logic.Basic

/-! What a document reaches in a library, as the least set closed under the mentions of bodies, and
what is found on the way. Missing mentions are known by labels, which tell them apart, so each is
reported once. -/

namespace DocCompiler.Preflight

open Snippet (Index Resolved)

section Reach

variable (index : Index) (blocks : List Block)

/-- The needs of the blocks, and those of the bodies of needs. -/
inductive Reached : Need → Prop where
  | ofBlock {b : Block} {m : Mention} {n : Need} (hb : b ∈ blocks) (hm : m ∈ Mention.ofBlock b)
      (hn : m.need? index = some n) : Reached n
  | ofBody {n n' : Need} {r : Resolved} {m : Mention} (h : Reached n)
      (hr : index.resolveById? n.1 n.2 = some r) (hm : m ∈ Mention.all r.body)
      (hn : m.need? index = some n') : Reached n'

/-- The mentions of the blocks and of reached bodies. -/
inductive Mentioned : Mention → Prop where
  | ofBlock {b : Block} {m : Mention} (hb : b ∈ blocks) (hm : m ∈ Mention.ofBlock b) : Mentioned m
  | ofBody {n : Need} {r : Resolved} {m : Mention} (h : Reached index blocks n)
      (hr : index.resolveById? n.1 n.2 = some r) (hm : m ∈ Mention.all r.body) : Mentioned m

/-- A reached body of the one snippet mentions the other. -/
def Contains (a b : String) : Prop :=
  ∃ n r m n', Reached index blocks n ∧ index.resolveById? n.1 n.2 = some r ∧
    m ∈ Mention.all r.body ∧ m.need? index = some n' ∧ n.1 = a ∧ n'.1 = b

end Reach

variable {index : Index} {blocks : List Block}

theorem Mentioned.reached {m : Mention} {n : Need} (h : Mentioned index blocks m)
    (hn : m.need? index = some n) : Reached index blocks n := by
  cases h with
  | ofBlock hb hm => exact .ofBlock hb hm hn
  | ofBody h hr hm => exact .ofBody h hr hm hn

theorem orderedBlocks_subset (d : Document) : d.orderedBlocks ⊆ d.blocks :=
  fun _ hb => List.mem_mergeSort.1 hb

theorem subset_orderedBlocks (d : Document) : d.blocks ⊆ d.orderedBlocks :=
  fun _ hb => List.mem_mergeSort.2 hb

section Blocks

variable {blocks' : List Block} (hsub : blocks ⊆ blocks')
include hsub

theorem Reached.mono {n : Need} (h : Reached index blocks n) : Reached index blocks' n := by
  induction h with
  | ofBlock hb hm hn => exact .ofBlock (hsub hb) hm hn
  | ofBody _ hr hm hn ih => exact .ofBody ih hr hm hn

theorem Mentioned.mono {m : Mention} (h : Mentioned index blocks m) :
    Mentioned index blocks' m := by
  cases h with
  | ofBlock hb hm => exact .ofBlock (hsub hb) hm
  | ofBody h hr hm => exact .ofBody (h.mono hsub) hr hm

theorem Contains.mono {a b : String} (h : Contains index blocks a b) :
    Contains index blocks' a b := by
  obtain ⟨n, r, m, n', hn, h⟩ := h
  exact ⟨n, r, m, n', hn.mono hsub, h⟩

end Blocks

def Problem.missingKey? : Problem → Option (String × Option UInt32)
  | .dependencyMissing reference revision _ => some (reference, revision)
  | _ => none

theorem Problem.eq_of_missingKey? {p : Problem} {k : String × Option UInt32}
    (h : p.missingKey? = some k) : ∃ referencedBy, p = .dependencyMissing k.1 k.2 referencedBy := by
  cases p <;> cases h
  exact ⟨_, rfl⟩

namespace Mention

theorem at_not_mem_revisionText (revision : Option UInt32) :
    '@' ∉ (revisionText revision).toList := by
  cases revision with
  | none => decide
  | some rev => simpa [revisionText] using Transclusion.ProvenanceEntry.at_not_mem_revision rev

theorem revisionText_inj {revision revision' : Option UInt32}
    (h : revisionText revision = revisionText revision') : revision = revision' := by
  have hlists := congrArg String.toList h
  cases revision <;> cases revision'
  case none.none => rfl
  case none.some rev => simp [revisionText] at hlists
  case some.none rev => simp [revisionText] at hlists
  case some.some rev rev' =>
    simp only [revisionText, String.toList_append, List.append_left_inj,
      List.append_right_inj] at hlists
    have hnat : rev.toNat = rev'.toNat := Nat.repr_injective (String.toList_injective hlists)
    rw [UInt32.toNat_inj.1 hnat]

/-- Labels tell keys apart, whatever characters are in a reference: the revision stands behind the
last `@`. -/
theorem labelOf_eq_labelOf_iff {k k' : String × Option UInt32} :
    labelOf k = labelOf k' ↔ k = k' := by
  constructor
  · intro h
    have hlists := congrArg String.toList h
    simp only [labelOf, String.toList_append, List.append_assoc] at hlists
    obtain ⟨hreference, hrevision⟩ := Text.append_cons_inj_of_last
      (at_not_mem_revisionText k.2) (at_not_mem_revisionText k'.2) hlists
    exact Prod.ext (String.toList_injective hreference)
      (revisionText_inj (String.toList_injective hrevision))
  · rintro rfl
    rfl

end Mention

namespace Dependencies

variable {deps : Dependencies}

/-- A mention of this key counts as reported. -/
def Reports (deps : Dependencies) (k : String × Option UInt32) : Prop :=
  deps.reported.contains (Mention.labelOf k) = true

def keys (deps : Dependencies) : List (String × Option UInt32) :=
  deps.missing.toList.filterMap (·.missingKey?)

/-- What counts as reported has been, and once only. -/
structure Truthful (deps : Dependencies) : Prop where
  distinct : deps.keys.Nodup
  reports_iff : ∀ k, deps.Reports k ↔ k ∈ deps.keys

theorem truthful_empty : Truthful empty :=
  ⟨.nil, fun k => by simp [Reports, keys, empty]⟩

theorem Truthful.exists_missing (h : deps.Truthful) {k : String × Option UInt32}
    (hk : deps.Reports k) :
    ∃ referencedBy, Problem.dependencyMissing k.1 k.2 referencedBy ∈ deps.missing := by
  obtain ⟨p, hp, hkey⟩ := List.mem_filterMap.1 ((h.reports_iff k).1 hk)
  obtain ⟨referencedBy, rfl⟩ := Problem.eq_of_missingKey? hkey
  exact ⟨referencedBy, Array.mem_toList_iff.1 hp⟩

theorem report_of_old (referencedBy : String) {m : Mention} (hold : deps.Reports m.key) :
    report referencedBy deps m = deps := if_pos hold

theorem keys_report_of_new (referencedBy : String) {m : Mention} (hnew : ¬ deps.Reports m.key) :
    (report referencedBy deps m).keys = deps.keys ++ [m.key] := by
  rw [report, if_neg (by exact hnew), keys, Array.toList_push, List.filterMap_append]
  rfl

@[simp] theorem graph_report (referencedBy : String) (m : Mention) :
    (report referencedBy deps m).graph = deps.graph := by
  unfold report
  split <;> rfl

theorem reports_report (referencedBy : String) (m : Mention) (k : String × Option UInt32) :
    (report referencedBy deps m).Reports k ↔ deps.Reports k ∨ m.key = k := by
  unfold report
  split
  case isTrue h =>
    constructor
    · exact .inl
    · rintro (hk | rfl)
      · exact hk
      · exact h
  case isFalse =>
    rw [Reports, Std.HashSet.contains_insert, Bool.or_eq_true, beq_iff_eq,
      Mention.labelOf_eq_labelOf_iff, or_comm, Reports]

theorem Truthful.report (h : deps.Truthful) (referencedBy : String) (m : Mention) :
    (report referencedBy deps m).Truthful := by
  by_cases hold : deps.Reports m.key
  · rwa [report_of_old referencedBy hold]
  · have hkeys := keys_report_of_new referencedBy hold
    refine ⟨?_, fun k => ?_⟩
    · rw [hkeys, List.nodup_append]
      refine ⟨h.distinct, List.nodup_singleton _, fun k hk k' hk' => ?_⟩
      rw [List.mem_singleton.1 hk']
      exact fun heq : k = m.key => hold ((h.reports_iff _).2 (heq ▸ hk))
    · rw [reports_report, h.reports_iff, hkeys, List.mem_append, List.mem_singleton,
        eq_comm (a := k)]

theorem Truthful.reportAll (h : deps.Truthful) (index : Index) (referencedBy : String) (mentions : List Mention) :
    (reportAll index referencedBy mentions deps).Truthful := by
  unfold Dependencies.reportAll
  generalize mentions.filter _ = l
  induction l generalizing deps with
  | nil => exact h
  | cons m rest ih => exact ih (h.report referencedBy m)

@[simp] theorem graph_reportAll (referencedBy : String) (mentions : List Mention) :
    (reportAll index referencedBy mentions deps).graph = deps.graph := by
  unfold reportAll
  generalize mentions.filter _ = l
  induction l generalizing deps with
  | nil => rfl
  | cons m rest ih => rw [List.foldl_cons, ih, graph_report]

theorem reports_reportAll (referencedBy : String) (mentions : List Mention)
    (k : String × Option UInt32) :
    (reportAll index referencedBy mentions deps).Reports k ↔
      deps.Reports k ∨ ∃ m ∈ mentions, m.target? index = none ∧ m.key = k := by
  have hfold : ∀ (l : List Mention) (deps : Dependencies),
      (l.foldl (report referencedBy) deps).Reports k ↔ deps.Reports k ∨ ∃ m ∈ l, m.key = k := by
    intro l
    induction l with
    | nil => simp
    | cons m rest ih =>
      intro deps
      rw [List.foldl_cons, ih, reports_report, or_assoc]
      simp only [List.mem_cons, exists_eq_or_imp]
  rw [reportAll, hfold]
  simp only [List.mem_filter, Option.isNone_iff_eq_none, and_assoc]

theorem foldl_reportAll (index : Index) (blocks : List (String × List Mention)) (h : deps.Truthful) :
    (blocks.foldl (fun deps b => reportAll index b.1 b.2 deps) deps).Truthful ∧
      ∀ k, (deps.Reports k ∨ ∃ b ∈ blocks, ∃ m ∈ b.2, m.target? index = none ∧ m.key = k) →
        (blocks.foldl (fun deps b => reportAll index b.1 b.2 deps) deps).Reports k := by
  induction blocks generalizing deps with
  | nil =>
    refine ⟨h, ?_⟩
    intro k hk
    rcases hk with hk | ⟨b, hb, -⟩
    · exact hk
    · cases hb
  | cons b rest ih =>
    obtain ⟨htrue, hall⟩ := ih (h.reportAll index b.1 b.2)
    refine ⟨htrue, fun k hk => hall k ?_⟩
    rw [reports_reportAll]
    rcases hk with hk | ⟨b', hb', hm⟩
    · exact .inl (.inl hk)
    · rcases List.mem_cons.1 hb' with rfl | hb'
      · exact .inl (.inr hm)
      · exact .inr ⟨b', hb', hm⟩

theorem Truthful.link (h : deps.Truthful) (id : String) (needs : List Need) :
    (link id needs deps).Truthful := ⟨h.distinct, h.reports_iff⟩

theorem edge_link (id : String) (needs : List Need) (a b : String) :
    (link id needs deps).graph.Edge a b ↔
      deps.graph.Edge a b ∨ (a = id ∧ ∃ n ∈ needs, n.1 = b) := by
  rw [link, Graph.edge_foldl_addEdge (fun _ => id), Graph.edge_addNode]
  simp only [eq_comm (a := id), exists_and_left, and_left_comm]

end Dependencies
end DocCompiler.Preflight
