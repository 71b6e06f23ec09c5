import DocCompiler.Compile.Pipeline
import DocCompiler.Proofs.Compile.Rendering
import DocCompiler.Proofs.Preflight.Problems
import DocCompiler.Proofs.Wire.Results

/-! What the built-in compiler reports comes with details that read back: objects of strings,
numbers and lists of strings, with their keys in order. -/

namespace DocCompiler

namespace Json

variable {depth : Nat}

theorem readsBack_null : Json.null.ReadsBack (depth + 1) := ⟨rfl, .null depth⟩

theorem readsBack_str (s : String) : (Json.str s).ReadsBack (depth + 1) := ⟨rfl, .str depth s⟩

theorem readsBack_nat (n : UInt32) : (Json.nat n.toNat).ReadsBack (depth + 1) := by
  have hlt : n.toNat < UInt64.size := Nat.lt_trans n.toNat_lt_size (by decide)
  exact ⟨rfl, .num depth (readsBack_int (by omega) (by omega))⟩

theorem readsBack_strings (l : List String) : (Json.strings l).ReadsBack (depth + 2) := by
  have hmem : ∀ v ∈ l.map Json.str, v.ReadsBack (depth + 1) := by
    intro v hv
    obtain ⟨s, -, rfl⟩ := List.mem_map.1 hv
    exact readsBack_str s
  exact ⟨canonical_arr fun v hv => (hmem v hv).1, .arr fun v hv => (hmem v hv).2⟩

theorem readsBack_obj {entries : List (String × Json)}
    (hordered : (entries.map (·.1)).Pairwise (· < ·))
    (h : ∀ e ∈ entries, e.2.ReadsBack (depth + 1)) : (Json.obj entries).ReadsBack (depth + 2) :=
  ⟨canonical_sorted (List.pairwise_map.1 hordered) fun e he => (h e he).1,
    .obj fun e he => (h e he).2⟩

end Json

/-- A revision as it is shown: none, a number, or what was written for one. -/
def ShownRevision (v : Json) : Prop :=
  v = .null ∨ (∃ n : UInt32, v = .nat n.toNat) ∨ ∃ s, v = .str s

theorem ShownRevision.readsBack {depth : Nat} {v : Json} (h : ShownRevision v) :
    v.ReadsBack (depth + 1) := by
  rcases h with rfl | ⟨n, rfl⟩ | ⟨s, rfl⟩
  · exact Json.readsBack_null
  · exact Json.readsBack_nat n
  · exact Json.readsBack_str s

theorem shownRevision_elim (revision : Option UInt32) :
    ShownRevision (revision.elim .null (.nat ·.toNat)) := by
  cases revision with
  | none => exact .inl rfl
  | some n => exact .inr (.inl ⟨n, rfl⟩)

namespace Finding

def Shown : Finding → Prop
  | .snippetNotFound _ revision _ => ShownRevision revision
  | .snippetCycle .. | .variableMissing _ | .formatterNotFound .. => True

theorem Shown.details {f : Finding} (h : f.Shown) (depth : Nat) :
    DetailsReadBack (depth + 3) f.toDiagnostic.details := by
  have hstr {s : String} : (Json.str s).ReadsBack (depth + 2) := Json.readsBack_str s
  have hstrings {l : List String} : (Json.strings l).ReadsBack (depth + 2) :=
    Json.readsBack_strings l
  cases f with
  | snippetNotFound reference revision stack =>
    have hrevision : revision.ReadsBack (depth + 2) := ShownRevision.readsBack h
    rintro _ ⟨⟩
    refine ⟨Json.noConfusion, Json.readsBack_obj ?_ (by simp [hstr, hstrings, hrevision])⟩
    simp only [List.map_cons, List.map_nil]
    decide
  | snippetCycle | variableMissing | formatterNotFound =>
    rintro _ ⟨⟩
    refine ⟨Json.noConfusion, Json.readsBack_obj ?_ (by simp [hstr, hstrings])⟩
    simp only [List.map_cons, List.map_nil]
    decide

end Finding

namespace Preflight

theorem Problem.readsBack_details (p : Problem) (depth : Nat) :
    DetailsReadBack (depth + 3) p.toIssue.details := by
  have hstr {s : String} : (Json.str s).ReadsBack (depth + 2) := Json.readsBack_str s
  have hstrings {l : List String} : (Json.strings l).ReadsBack (depth + 2) :=
    Json.readsBack_strings l
  have hnat {n : UInt32} : (Json.nat n.toNat).ReadsBack (depth + 2) := Json.readsBack_nat n
  have hrevision {revision : Option UInt32} :
      (revision.elim Json.null fun n => .nat n.toNat).ReadsBack (depth + 2) :=
    (shownRevision_elim revision).readsBack
  rintro _ ⟨⟩
  refine ⟨Json.noConfusion, ?_⟩
  refine Json.readsBack_obj ?_ ?_
  · cases p <;> simp only [details, List.map_cons, List.map_nil] <;> decide
  · cases p <;> simp [details, hstr, hstrings, hnat, hrevision]

end Preflight

theorem Transclusion.shownRevision_token (t : Token) : ShownRevision t.shownRevision := by
  unfold Token.shownRevision
  split
  · exact .inl rfl
  · exact .inr (.inl ⟨_, rfl⟩)
  · exact .inr (.inr ⟨_, rfl⟩)

namespace Compile

open Snippet (Index)

theorem shown_of_mem_rendering {index : Index} {b : Block} :
    ∀ f ∈ (Rendering.of index b).findings, f.Shown :=
  Rendering.forall_mem_findings (fun _ revision => shownRevision_elim revision)
    (fun t _ => Transclusion.shownRevision_token t) (fun _ _ => trivial)

/-- A result reads back, wherever it stands, if what the rules report does that are not built in. -/
theorem readsBack_result {rules : List Preflight.Rule} {r : CompileRequest} {depth : Nat}
    (h : ∀ rule ∈ rules, ∀ i ∈ rule.check r, DetailsReadBack (depth + 3) i.details)
    (filters : List Formatting.Filter) (isKnown : String → Bool) (texts : List String) :
    (Result.of filters rules r (Draft.of isKnown r) texts).ReadsBack (depth + 2) where
  diagnostics d hd := by
    obtain ⟨f, hf, rfl⟩ := List.mem_map.1 hd
    have hshown : f.Shown := by
      rcases Draft.mem_allFindings hf with ⟨b, -, hf⟩ | ⟨blockId, id, rfl⟩ | ⟨key, rfl⟩
      · exact shown_of_mem_rendering f hf
      · trivial
      · trivial
    exact hshown.details (depth + 1)
  issues i hi := by
    have hissues : (Preflight.run rules r).issues =
        (Preflight.run [] r).issues ++ rules.flatMap (·.check r) := by
      simp [Preflight.run, Preflight.Report.ofIssues]
    rcases List.mem_append.1 (hissues ▸ hi) with hi | hi
    · obtain ⟨p, -, rfl⟩ := List.mem_map.1 (Preflight.issues_run r ▸ hi)
      exact p.readsBack_details depth
    · obtain ⟨rule, hrule, hi⟩ := List.mem_flatMap.1 hi
      exact h rule hrule i hi

theorem readsBack_compileDocument (r : CompileRequest) (depth : Nat) :
    (compileDocument r).ReadsBack (depth + 2) :=
  readsBack_result (fun _ h => by cases h) ..

end Compile
end DocCompiler
