import DocCompiler.Preflight.Rule
import DocCompiler.Proofs.Preflight.BlockGraph
import DocCompiler.Proofs.Preflight.Soundness

/-! The problems of a request: each check is taken for itself, and the report is no more than what
the checks find, one after the other. -/

namespace DocCompiler

theorem SortedMap.contains_iff_mem_keys {α : Type} (m : SortedMap α) (key : String) :
    m.contains key = true ↔ key ∈ m.keys := by
  unfold contains find? keys
  rw [Option.isSome_map, List.find?_isSome, List.mem_map]
  simp

namespace Preflight

variable {r : CompileRequest} {p : Problem}

theorem count_eq_zero_iff (n : Nat) : Report.count n = 0 ↔ n = 0 := by
  have hsize : UInt64.size = 18446744073709551616 := rfl
  rw [Report.count, ← UInt64.toNat_inj, UInt64.toNat_ofNat', UInt64.toNat_zero, hsize]
  omega

/-- A report lets an export pass exactly if none of its issues is an error. -/
theorem isExportable_ofIssues (issues : List Issue) :
    (Report.ofIssues issues).isExportable = true ↔ ∀ i ∈ issues, i.severity ≠ .error := by
  rw [Report.isExportable, Report.ofIssues, beq_iff_eq, count_eq_zero_iff, List.countP_eq_zero]
  simp only [decide_eq_true_eq, ne_eq]

theorem mem_checkStatus : p ∈ checkStatus r ↔
    ∃ allowed, r.allowedStatuses = some allowed ∧ allowed ≠ [] ∧
      r.document.statusKey ∉ allowed ∧ p = .statusNotAllowed r.document.statusKey allowed := by
  unfold checkStatus
  cases r.allowedStatuses with
  | none => simp
  | some allowed =>
    simp only [Option.getD_some, Bool.or_eq_true, List.isEmpty_iff, List.contains_iff_mem]
    split
    case isTrue h => simp; tauto
    case isFalse h => simp; tauto

theorem isRequired_iff (d : VariableDefinition) : d.isRequired = true ↔ d.required = some true := by
  rw [VariableDefinition.isRequired]
  cases d.required with
  | none => simp
  | some required => simp

theorem mem_checkRequired : p ∈ checkRequired r ↔
    ∃ d ∈ r.document.definitions, d.required = some true ∧ d.key ∉ r.values.keys ∧
      p = .variableRequired d.key d.id := by
  unfold checkRequired
  simp only [List.mem_map, List.mem_filter, Bool.and_eq_true, Bool.not_eq_true', isRequired_iff,
    ← Bool.not_eq_true, SortedMap.contains_iff_mem_keys]
  constructor
  · rintro ⟨d, ⟨hd, hrequired, hkey⟩, rfl⟩
    exact ⟨d, hd, hrequired, hkey, rfl⟩
  · rintro ⟨d, hd, hrequired, hkey, rfl⟩
    exact ⟨d, ⟨hd, hrequired, hkey⟩, rfl⟩

theorem eq_of_mem_checkOptions (h : p ∈ checkOptions r) :
    ∃ key value options, p = .variableOption key value options := by
  obtain ⟨d, -, hd⟩ := List.mem_filterMap.1 h
  unfold checkOption at hd
  split at hd
  · split at hd
    · cases hd
    · split at hd
      · cases hd
      · exact ⟨_, _, _, (Option.some.inj hd).symm⟩
  · cases hd

theorem eq_of_mem_checkSchemaVersion (h : p ∈ checkSchemaVersion r) :
    ∃ found, p = .schemaVersion found := by
  unfold checkSchemaVersion at h
  dsimp only at h
  split at h
  · cases h
  · exact ⟨_, List.mem_singleton.1 h⟩

/-- The problems of a request, in the order in which they are reported. -/
def problems (r : CompileRequest) : List Problem :=
  checkStatus r ++ checkRequired r ++ checkOptions r ++ checkSchemaVersion r ++
    checkDependencies r ++ checkBlockGraph r

theorem mem_problems : p ∈ problems r ↔
    p ∈ checkStatus r ∨ p ∈ checkRequired r ∨ p ∈ checkOptions r ∨ p ∈ checkSchemaVersion r ∨
      p ∈ checkDependencies r ∨ p ∈ checkBlockGraph r := by
  simp only [problems, List.mem_append, or_assoc]

theorem run_eq (rules : List Rule) (r : CompileRequest) :
    run rules r = .ofIssues ((problems r).map (·.toIssue) ++ rules.flatMap (·.check r)) := by
  simp [run, Rule.builtin, Rule.ofProblems, problems]

/-- Requests of the same problems have the same report, if no further rule tells them apart. -/
theorem run_congr {rules : List Rule} {r' : CompileRequest} (hproblems : problems r' = problems r)
    (hrules : ∀ rule ∈ rules, rule.check r' = rule.check r) : run rules r' = run rules r := by
  rw [run_eq, run_eq, hproblems, List.flatMap_congr hrules]

theorem run_nil (r : CompileRequest) : run [] r = .ofIssues ((problems r).map (·.toIssue)) := by
  rw [run_eq, List.flatMap_nil, List.append_nil]

theorem issues_run (r : CompileRequest) : (run [] r).issues = (problems r).map (·.toIssue) := by
  rw [run_nil]
  rfl

theorem isExportable_run (r : CompileRequest) :
    (run [] r).isExportable = true ↔ ∀ p ∈ problems r, p.severity ≠ .error := by
  rw [run_nil, isExportable_ofIssues]
  exact List.forall_mem_map

theorem code_ne_of_mem (h : p ∈ checkStatus r ∨ p ∈ checkRequired r ∨ p ∈ checkOptions r ∨
    p ∈ checkSchemaVersion r ∨ p ∈ checkBlockGraph r) :
    p.code ≠ "PREFLIGHT_SNIPPET_DEPENDENCY_MISSING" ∧ p.code ≠ "PREFLIGHT_SNIPPET_CYCLE" := by
  rcases h with h | h | h | h | h
  · obtain ⟨allowed, -, -, -, rfl⟩ := mem_checkStatus.1 h
    simp [Problem.code]
  · obtain ⟨d, -, -, -, rfl⟩ := mem_checkRequired.1 h
    simp [Problem.code]
  · obtain ⟨key, value, options, rfl⟩ := eq_of_mem_checkOptions h
    simp [Problem.code]
  · obtain ⟨found, rfl⟩ := eq_of_mem_checkSchemaVersion h
    simp [Problem.code]
  · rcases mem_checkBlockGraph h with ⟨e, unknown, rfl⟩ | ⟨path, -, rfl⟩ | ⟨group, child, rfl⟩
    all_goals simp [Problem.code]

theorem mem_checkDependencies_of_code (h : p ∈ problems r)
    (hcode : p.code = "PREFLIGHT_SNIPPET_DEPENDENCY_MISSING" ∨ p.code = "PREFLIGHT_SNIPPET_CYCLE") :
    p ∈ checkDependencies r := by
  by_contra hother
  have hchecks := mem_problems.1 h
  simp only [hother, false_or] at hchecks
  exact hcode.elim (code_ne_of_mem hchecks).1 (code_ne_of_mem hchecks).2

end Preflight
end DocCompiler
