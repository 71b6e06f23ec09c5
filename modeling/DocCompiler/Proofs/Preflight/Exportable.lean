import DocCompiler.Compile.Pipeline
import DocCompiler.Proofs.Preflight.Completeness
import DocCompiler.Proofs.Preflight.Problems

/-! What it means that a request may be exported, said without worklists and searches. What a check
reports as an error is there, and what is there it reports; so the gate is open exactly if nothing
of it is there. -/

namespace DocCompiler.Preflight

open Snippet (Index)

/-- Nothing stands in the way of exporting a request. The snippets that count are those that the
blocks reach in its library, through whatever bodies and at whatever revisions. -/
structure Exportable (r : CompileRequest) : Prop where
  /-- No statuses are listed, or the status of the document is. -/
  status : r.allowedStatuses = none ∨ r.allowedStatuses = some [] ∨
    ∃ allowed, r.allowedStatuses = some allowed ∧ r.document.statusKey ∈ allowed
  required : ∀ d ∈ r.document.definitions, d.required = some true → d.key ∈ r.values.keys
  resolved : ∀ m, Mentioned (Index.ofBundles r.snippets) r.document.blocks m →
    m.target? (Index.ofBundles r.snippets) ≠ none
  /-- No snippet contains itself, be it through others and at different revisions. -/
  snippets : ∀ id, ¬ Relation.TransGen
    (Contains (Index.ofBundles r.snippets) r.document.blocks) id id
  blocks : ∀ id, ¬ Relation.TransGen (Linked r.document) id id

variable {r : CompileRequest}

theorem Exportable.severity_ne_error (h : Exportable r) {p : Problem} (hp : p ∈ problems r) :
    p.severity ≠ .error := by
  have hblocks := orderedBlocks_subset r.document
  rcases mem_problems.1 hp with hp | hp | hp | hp | hp | hp
  · obtain ⟨allowed, hallowed, hne, hstatus, rfl⟩ := mem_checkStatus.1 hp
    rcases h.status with hnone | hempty | ⟨allowed', hallowed', hmem⟩
    · simp [hallowed] at hnone
    · simp [hallowed, hne] at hempty
    · obtain rfl : allowed = allowed' := Option.some.inj (hallowed.symm.trans hallowed')
      exact absurd hmem hstatus
  · obtain ⟨d, hd, hrequired, hkey, rfl⟩ := mem_checkRequired.1 hp
    exact absurd (h.required d hd hrequired) hkey
  · obtain ⟨key, value, options, rfl⟩ := eq_of_mem_checkOptions hp
    exact nofun
  · obtain ⟨found, rfl⟩ := eq_of_mem_checkSchemaVersion hp
    exact nofun
  · rcases mem_checkDependencies hp with ⟨m, referencedBy, hm, hnone, rfl⟩ | ⟨path, hpath, rfl⟩
    · exact absurd hnone (h.resolved m (hm.mono hblocks))
    · obtain ⟨id, hcircle⟩ := (hpath.mono fun _ _ hab => hab.mono hblocks).exists_transGen
      exact absurd hcircle (h.snippets id)
  · rcases mem_checkBlockGraph hp with ⟨e, unknown, rfl⟩ | ⟨path, hpath, rfl⟩ | ⟨group, child, rfl⟩
    · exact nofun
    · obtain ⟨id, hcircle⟩ := hpath.exists_transGen
      exact absurd hcircle (h.blocks id)
    · exact nofun

theorem exportable_of_severity_ne_error (h : ∀ p ∈ problems r, p.severity ≠ .error) :
    Exportable r := by
  have hblocks := subset_orderedBlocks r.document
  refine ⟨?_, ?_, ?_, ?_, ?_⟩
  · cases hallowed : r.allowedStatuses with
    | none => exact .inl rfl
    | some allowed =>
      by_contra hstatus
      simp only [reduceCtorEq, Option.some.injEq, exists_eq_left', false_or, not_or] at hstatus
      have hmem := mem_checkStatus.2 ⟨allowed, hallowed, hstatus.1, hstatus.2, rfl⟩
      exact h _ (mem_problems.2 (.inl hmem)) rfl
  · intro d hd hrequired
    by_contra hkey
    have hmem := mem_checkRequired.2 ⟨d, hd, hrequired, hkey, rfl⟩
    exact h _ (mem_problems.2 (.inr (.inl hmem))) rfl
  · intro m hm hnone
    obtain ⟨referencedBy, hmem⟩ := dependencyMissing_of_mentioned (hm.mono hblocks) hnone
    exact h _ (mem_problems.2 (.inr (.inr (.inr (.inr (.inl hmem)))))) rfl
  · intro id hcircle
    obtain ⟨path, hmem⟩ := snippetCycle_of_contains
      (Relation.TransGen.mono (fun _ _ hab => hab.mono hblocks) id id hcircle)
    exact h _ (mem_problems.2 (.inr (.inr (.inr (.inr (.inl hmem)))))) rfl
  · intro id hcircle
    obtain ⟨path, hmem⟩ := blockCycle_of_linked hcircle
    exact h _ (mem_problems.2 (.inr (.inr (.inr (.inr (.inr hmem)))))) rfl

/-- **The gate is open exactly if nothing stands in the way.** -/
theorem isExportable_iff (r : CompileRequest) :
    (Compile.preflightDocument r).isExportable = true ↔ Exportable r := by
  rw [Compile.preflightDocument, isExportable_run]
  exact ⟨exportable_of_severity_ne_error, fun h p hp => h.severity_ne_error hp⟩

end DocCompiler.Preflight
