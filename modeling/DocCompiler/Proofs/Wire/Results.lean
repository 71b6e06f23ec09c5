import DocCompiler.Proofs.Wire.Received
import DocCompiler.Wire.Result

/-! Results as the far end of a codec has them: as they were sent, where the details of what they
report are values that read back. -/

namespace DocCompiler

def DetailsReadBack (depth : Nat) (details : Option Json) : Prop :=
  ∀ v, details = some v → v ≠ .null ∧ v.ReadsBack depth

/-- The details of all that is reported read back where they stand. -/
structure Compile.Result.ReadsBack (depth : Nat) (r : Compile.Result) : Prop where
  diagnostics : ∀ d ∈ r.diagnostics, DetailsReadBack (depth + 2) d.details
  issues : ∀ i ∈ r.preflight.issues, DetailsReadBack (depth + 1) i.details

namespace Wire

open Codec Fields.Carries

variable {depth : Nat}

theorem carries_severity (s : Severity) : severity.Carries (depth + 1) s (some s) :=
  carries_choice (by cases s <;> rfl)

theorem carries_details {σ : Type} {s : σ} {get : σ → Option Json}
    (h : DetailsReadBack depth (get s)) :
    (Fields.optional "details" .any get).Carries depth ["details"] s (some (get s)) :=
  .optional fun v hv => ⟨carries_any (h v hv).2.1 (h v hv).2.2, (h v hv).1⟩

theorem carries_diagnostic {d : Diagnostic} (h : DetailsReadBack (depth + 1) d.details) :
    diagnostic.Carries (depth + 2) d (some d) :=
  carries_struct ((((Fields.Carries.map _ (.field (carries_string _ _))).seq
    (.field (carries_string _ _)) (by decide)).seq
    (.field (carries_severity _)) (by decide)).seq (carries_details h) (by decide)) rfl

theorem carries_issue {i : Preflight.Issue} (h : DetailsReadBack (depth + 1) i.details) :
    issue.Carries (depth + 2) i (some i) :=
  carries_struct ((((Fields.Carries.map _ (.field (carries_string _ _))).seq
    (.field (carries_string _ _)) (by decide)).seq
    (.field (carries_severity _)) (by decide)).seq (carries_details h) (by decide)) rfl

theorem carries_summary (s : Preflight.Summary) : summary.Carries (depth + 2) s (some s) :=
  carries_struct ((Fields.Carries.map _ (.field (carries_uint64 _))).seq
    (.field (carries_uint64 _)) (by decide)) rfl

theorem carries_report {r : Preflight.Report}
    (h : ∀ i ∈ r.issues, DetailsReadBack (depth + 1) i.details) :
    report.Carries (depth + 4) r (some r) := by
  refine carries_struct ((Fields.Carries.map _
    (.field (carries_all (f := id) fun i hi => carries_issue (h i hi)))).seq
    (.field (carries_summary _)) (by decide)) ?_
  rw [List.map_id]
  rfl

theorem carries_provenanceEntry (e : Transclusion.ProvenanceEntry) :
    provenanceEntry.Carries (depth + 2) e (some e) :=
  carries_struct (((((Fields.Carries.map _ (.field (carries_string _ _))).seq
    (.field (carries_uint32 _)) (by decide)).seq
    (.field (carries_string _ _)) (by decide)).seq
    (.field (carries_choice (by cases e.mode <;> rfl))) (by decide)).seq
    (.field (carries_string _ _)) (by decide)) rfl

theorem carries_result {r : Compile.Result} (h : r.ReadsBack depth) :
    result.Carries (depth + 5) r (some r) := by
  refine carries_struct ((((((Fields.Carries.map _ (.field (carries_string _ _))).seq
    (.field (carries_string _ _)) (by decide)).seq
    (.field (carries_all (f := id) fun d hd => carries_diagnostic (h.diagnostics d hd)))
      (by decide)).seq
    (.field (carries_all (f := id) fun e _ => carries_provenanceEntry e)) (by decide)).seq
    (.field (carries_report h.issues)) (by decide)).seq
    (.field (carries_string _ _)) (by decide)) ?_
  simp only [List.map_id]
  rfl

end Wire
end DocCompiler
