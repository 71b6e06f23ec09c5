import DocCompiler.Compile.Pipeline
import DocCompiler.Proofs.Compile.Opened
import DocCompiler.Proofs.Preflight.Completeness
import DocCompiler.Proofs.Preflight.Problems
import DocCompiler.Proofs.Transclusion.Chains

/-! The export gate against the compilation it guards. Rendering walks through blocks and tokens,
the check through a worklist and a graph; what the one can find is foreseen by what the document
reaches, and the other reports all of that. -/

namespace DocCompiler

open Preflight (Mention Mentioned Problem Report Unshadowed)
open Snippet (Index)
open Transclusion (Foreseen Placed Token only)

namespace Finding

theorem code_eq_snippetNotFoundCode {f : Finding} :
    f.toDiagnostic.code = snippetNotFoundCode ↔
      ∃ reference revision stack, f = .snippetNotFound reference revision stack := by
  cases f <;> simp [toDiagnostic, snippetNotFoundCode, snippetCycleCode, variableMissingCode,
    formatterNotFoundCode]

theorem code_eq_snippetCycleCode {f : Finding} :
    f.toDiagnostic.code = snippetCycleCode ↔ ∃ id stack, f = .snippetCycle id stack := by
  cases f <;> simp [toDiagnostic, snippetNotFoundCode, snippetCycleCode, variableMissingCode,
    formatterNotFoundCode]

end Finding

namespace Preflight

/-- What the dependency check finds is reported, whatever further rules there are. -/
theorem toIssue_mem_run {p : Problem} {r : CompileRequest} (rules : List Rule)
    (h : p ∈ checkDependencies r) : p.toIssue ∈ (run rules r).issues := by
  have hrule : Rule.ofProblems "snippet_dependencies" checkDependencies ∈ Rule.builtin ++ rules :=
    List.mem_append_left _ (by simp [Rule.builtin])
  exact List.mem_flatMap.2 ⟨_, hrule, List.mem_map_of_mem h⟩

end Preflight

namespace Compile

variable {index : Index} {blocks : List Block}

theorem foreseen_of_mem_rendering (h : Unshadowed index blocks) {b : Block} (hb : b ∈ blocks) :
    ∀ f ∈ (Rendering.of index b).findings, Foreseen index blocks f := by
  obtain ⟨id, sequence, metadata, content⟩ := b
  intro f hf
  cases content with
  | markdown body =>
    have hplaced : Placed index blocks [] (Token.pieces body) :=
      ⟨fun t ht => .ofBlock hb (Transclusion.mention_mem_all ht), nofun⟩
    exact Transclusion.foreseen_of_mem_findings h _ _ hplaced f hf
  | snippet snippetId revision mode =>
    have hm : (⟨snippetId, some revision⟩ : Mention) ∈
        Mention.ofBlock ⟨id, sequence, metadata, .snippet snippetId revision mode⟩ :=
      List.mem_singleton_self _
    cases hres : index.resolve? snippetId revision with
    | some r =>
      have hplaced : Placed index blocks ([] ++ [r.snippet.id]) (Token.pieces r.body) :=
        Transclusion.placed_body (h.reachedVersion (.ofBlock hb hm) hres) nofun
      simp only [Rendering.of, hres] at hf
      exact Transclusion.foreseen_of_mem_findings h _ _ hplaced f hf
    | none =>
      simp only [Rendering.of, hres, List.mem_singleton] at hf
      subst hf
      exact ⟨_, .ofBlock hb hm, hres, rfl⟩
  | divider | group | comment => cases hf

theorem foreseen_of_mem_draft {r : CompileRequest}
    (h : Unshadowed (Index.ofBundles r.snippets) r.document.orderedBlocks)
    {isKnown : String → Bool} {f : Finding} (hf : f ∈ (Draft.of isKnown r).allFindings) :
    Foreseen (Index.ofBundles r.snippets) r.document.orderedBlocks f := by
  rcases Draft.mem_allFindings hf with ⟨b, hb, hf⟩ | ⟨blockId, id, rfl⟩ | ⟨key, rfl⟩
  · exact foreseen_of_mem_rendering h hb f hf
  · trivial
  · trivial

theorem foreseen_of_mem_allFindings {r : CompileRequest}
    (hids : (r.snippets.map (·.snippet.id)).Nodup) {isKnown : String → Bool} {f : Finding}
    (hf : f ∈ (Draft.of isKnown r).allFindings) :
    Foreseen (Index.ofBundles r.snippets) r.document.orderedBlocks f :=
  foreseen_of_mem_draft (Preflight.unshadowed_of_nodup hids) hf

/-- What a pipeline returns is the result for the draft, whatever the formatters did. -/
theorem exists_texts_of_compile {p : Pipeline} {r : CompileRequest} {result : Result}
    (h : (p.compile r).result = .ok result) :
    ∃ texts, result = Result.of p.filters p.rules r
      (Draft.of (fun id => (p.formatter? id).isSome) r) texts := by
  rw [Pipeline.compile, Sandbox.Outcome.map] at h
  cases hrun : (Sandbox.Script.runAll p.scope
    ((Draft.of (fun id => (p.formatter? id).isSome) r).segments.toList.map p.script)).result with
  | error message => rw [hrun] at h; cases h
  | ok texts =>
    rw [hrun] at h
    exact ⟨texts, (Except.ok.inj h).symm⟩

theorem toDiagnostic_mem_diagnostics {r : CompileRequest} {f : Finding}
    (h : FoundIn (Index.ofBundles r.snippets) r.document.orderedBlocks f) :
    f.toDiagnostic ∈ (compileDocument r).diagnostics := by
  obtain ⟨b, hb, hf⟩ := h
  refine List.mem_map_of_mem (List.mem_append_left _ ?_)
  rw [Draft.findings_of]
  exact List.mem_flatMap.2 ⟨b, hb, List.mem_append_left _ hf⟩

/-- **The export gate is sound.** Among bundles of distinct ids, a reference that a compilation
does not find is a missing dependency of its report, a cycle that it runs into makes the report
show one, and a report that lets the export pass comes with no error. -/
theorem exportGate_sound (p : Pipeline) (r : CompileRequest) (result : Result)
    (hids : (r.snippets.map (·.snippet.id)).Nodup) (hresult : (p.compile r).result = .ok result) :
    (∀ d ∈ result.diagnostics, d.code = Finding.snippetNotFoundCode →
      ∃ reference, d.details.bind (·.field? "reference") = some (.str reference) ∧
        ∃ i ∈ result.preflight.issues, i.code = "PREFLIGHT_SNIPPET_DEPENDENCY_MISSING" ∧
          i.details.bind (·.field? "snippetId") = some (.str reference)) ∧
    ((∃ d ∈ result.diagnostics, d.code = Finding.snippetCycleCode) →
      ∃ i ∈ result.preflight.issues, i.code = "PREFLIGHT_SNIPPET_CYCLE") ∧
    (result.preflight.isExportable = true → ∀ d ∈ result.diagnostics, d.severity ≠ .error) := by
  obtain ⟨texts, rfl⟩ := exists_texts_of_compile hresult
  set findings := (Draft.of (fun id => (p.formatter? id).isSome) r).allFindings
  have hissue : ∀ problem ∈ Preflight.checkDependencies r,
      problem.toIssue ∈ (Preflight.run p.rules r).issues :=
    fun _ h => Preflight.toIssue_mem_run p.rules h
  have hnotFound : ∀ reference revision stack, .snippetNotFound reference revision stack ∈ findings →
      ∃ rev referencedBy, Problem.dependencyMissing reference rev referencedBy ∈
        Preflight.checkDependencies r := by
    intro reference revision stack hf
    obtain ⟨m, hm, hnone, rfl⟩ := foreseen_of_mem_allFindings hids hf
    exact ⟨_, Preflight.dependencyMissing_of_mentioned hm hnone⟩
  have hcycle : ∀ id stack, .snippetCycle id stack ∈ findings →
      ∃ path, Problem.snippetCycle path ∈ Preflight.checkDependencies r := by
    intro id stack hf
    obtain ⟨x, hx⟩ := foreseen_of_mem_allFindings hids hf
    exact Preflight.snippetCycle_of_contains hx
  refine ⟨?_, ?_, ?_⟩
  · intro d hd hcode
    obtain ⟨f, hf, rfl⟩ := List.mem_map.1 hd
    obtain ⟨reference, revision, stack, rfl⟩ := Finding.code_eq_snippetNotFoundCode.1 hcode
    obtain ⟨rev, referencedBy, hmem⟩ := hnotFound _ _ _ hf
    exact ⟨reference, rfl, _, hissue _ hmem, rfl, rfl⟩
  · rintro ⟨d, hd, hcode⟩
    obtain ⟨f, hf, rfl⟩ := List.mem_map.1 hd
    obtain ⟨id, stack, rfl⟩ := Finding.code_eq_snippetCycleCode.1 hcode
    obtain ⟨path, hmem⟩ := hcycle _ _ hf
    exact ⟨_, hissue _ hmem, rfl⟩
  · intro hexport d hd
    have hclean := (Preflight.isExportable_ofIssues _).1 hexport
    obtain ⟨f, hf, rfl⟩ := List.mem_map.1 hd
    cases f with
    | snippetNotFound reference revision stack =>
      obtain ⟨rev, referencedBy, hmem⟩ := hnotFound _ _ _ hf
      exact absurd rfl (hclean _ (hissue _ hmem))
    | snippetCycle id stack =>
      obtain ⟨path, hmem⟩ := hcycle _ _ hf
      exact absurd rfl (hclean _ (hissue _ hmem))
    | variableMissing | formatterNotFound => exact nofun

/-- Two snippets that contain each other, one of which refers to a third that there is not. -/
def loop : CompileRequest where
  document := { Document.empty "d" "" "" with blocks := [.snippet "block" 0 "a"] }
  snippets := [.single "a" "\x7b\x7b> b\x7d\x7d",
    .single "b" "\x7b\x7b> a\x7d\x7d \x7b\x7b> c\x7d\x7d"]
  values := ∅
  allowedStatuses := none

section Loop

theorem target?_loop :
    (⟨"a", some none⟩ : Mention).target? (Index.ofBundles loop.snippets) =
        some (only "a" "\x7b\x7b> b\x7d\x7d") ∧
      (⟨"b", some none⟩ : Mention).target? (Index.ofBundles loop.snippets) =
        some (only "b" "\x7b\x7b> a\x7d\x7d \x7b\x7b> c\x7d\x7d") ∧
      (⟨"c", some none⟩ : Mention).target? (Index.ofBundles loop.snippets) = none :=
  ⟨(Index.resolve?_eq ..).trans rfl, (Index.resolve?_eq ..).trans rfl,
    (Index.resolve?_eq ..).trans rfl⟩

/-- Inside the second snippet, which the first one opens, both of its tokens are found. -/
theorem foundIn_loop :
    (∃ revision stack, FoundIn (Index.ofBundles loop.snippets) loop.document.orderedBlocks
      (.snippetNotFound "c" revision stack)) ∧
    ∃ stack, FoundIn (Index.ofBundles loop.snippets) loop.document.orderedBlocks
      (.snippetCycle "a" stack) := by
  obtain ⟨ha, hb, hc⟩ := target?_loop
  have hblock : Block.snippet "block" 0 "a" ∈ loop.document.orderedBlocks :=
    List.mem_mergeSort.2 (.head _)
  have hall : Mention.all "\x7b\x7b> b\x7d\x7d" = [⟨"b", some none⟩] := rfl
  have hall' : Mention.all "\x7b\x7b> a\x7d\x7d \x7b\x7b> c\x7d\x7d" =
      [⟨"a", some none⟩, ⟨"c", some none⟩] := rfl
  have hopens : Opens (Index.ofBundles loop.snippets) loop.document.orderedBlocks
      (only "b" "\x7b\x7b> a\x7d\x7d \x7b\x7b> c\x7d\x7d") [only "a" "\x7b\x7b> b\x7d\x7d"] :=
    .ofBody (.ofBlock hblock (.head _) ha) (hall ▸ .head _) hb (by decide)
  refine ⟨hopens.notFound (hall' ▸ .tail _ (.head _)) hc, ?_⟩
  rcases hopens.ofBody_or_cycle (hall' ▸ .head _) ha with hopens' | ⟨-, hcycle⟩
  · exact absurd (by decide) hopens'.notMem
  · exact hcycle

end Loop

/-- Both errors are found, so the report lists the reference, shows the cycle and blocks the
export. -/
theorem exportGate_sound_loop :
    (loop.snippets.map (·.snippet.id)).Nodup ∧
      (Pipeline.default.compile loop).result = .ok (compileDocument loop) ∧
      (∃ i ∈ (compileDocument loop).preflight.issues,
        i.code = "PREFLIGHT_SNIPPET_DEPENDENCY_MISSING" ∧
          i.details.bind (·.field? "snippetId") = some (.str "c")) ∧
      (∃ i ∈ (compileDocument loop).preflight.issues, i.code = "PREFLIGHT_SNIPPET_CYCLE") ∧
      (compileDocument loop).preflight.isExportable = false := by
  have hids : (loop.snippets.map (·.snippet.id)).Nodup := by
    show ["a", "b"].Nodup
    decide
  have hresult : (Pipeline.default.compile loop).result = .ok (compileDocument loop) := by
    rw [Pipeline.compile_default]
  obtain ⟨hmissing, hcycle, hclean⟩ := exportGate_sound _ _ _ hids hresult
  obtain ⟨⟨revision, stack, hfound⟩, stack', hcyclic⟩ := foundIn_loop
  have herror := toDiagnostic_mem_diagnostics hfound
  refine ⟨hids, hresult, ?_, ?_, ?_⟩
  · obtain ⟨reference, hreference, hissue⟩ := hmissing _ herror rfl
    obtain rfl : "c" = reference := Json.str.inj (Option.some.inj hreference)
    exact hissue
  · exact hcycle ⟨_, toDiagnostic_mem_diagnostics hcyclic, rfl⟩
  · exact Bool.eq_false_iff.2 fun hexport => hclean hexport _ herror rfl

end Compile
end DocCompiler
