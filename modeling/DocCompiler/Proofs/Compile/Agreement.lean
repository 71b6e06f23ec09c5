import DocCompiler.Proofs.Compile.ExportGate
import DocCompiler.Proofs.Preflight.Soundness

/-! What a compilation finds against what its report says of snippets. The report looks into every
body that the document reaches, and takes all revisions of a snippet for one; a compilation stops
where a snippet would be opened inside itself. So the two agree but for snippets of which the
document reaches more than one revision. And they agree only where references lead to the bundles
that their ids lead to, as the report keeps the ids and not the bundles. -/

namespace DocCompiler.Compile

open Preflight (Contains LeadsTo Mention Mentioned Problem TwoRevisions Unshadowed)
open Snippet (Bundle Index Resolved)
open Transclusion (Token expandPieces)

def NotFound (r : CompileRequest) : Prop :=
  ∃ d ∈ (compileDocument r).diagnostics, d.code = Finding.snippetNotFoundCode

def RunsIntoCycle (r : CompileRequest) : Prop :=
  ∃ d ∈ (compileDocument r).diagnostics, d.code = Finding.snippetCycleCode

def ReportsMissing (r : CompileRequest) : Prop :=
  ∃ i ∈ (compileDocument r).preflight.issues, i.code = "PREFLIGHT_SNIPPET_DEPENDENCY_MISSING"

def ReportsCycle (r : CompileRequest) : Prop :=
  ∃ i ∈ (compileDocument r).preflight.issues, i.code = "PREFLIGHT_SNIPPET_CYCLE"

variable {r : CompileRequest}

theorem mentioned_of_mem_issues {i : Preflight.Issue}
    (hi : i ∈ (compileDocument r).preflight.issues)
    (hcode : i.code = "PREFLIGHT_SNIPPET_DEPENDENCY_MISSING") :
    ∃ m, Mentioned (Index.ofBundles r.snippets) r.document.orderedBlocks m ∧
      m.target? (Index.ofBundles r.snippets) = none ∧
      i.details.bind (·.field? "snippetId") = some (.str m.reference) := by
  obtain ⟨p, hp, rfl⟩ := List.mem_map.1 (Preflight.issues_run r ▸ hi)
  rcases Preflight.mem_checkDependencies (Preflight.mem_checkDependencies_of_code hp (.inl hcode))
    with ⟨m, referencedBy, hm, hnone, rfl⟩ | ⟨path, -, rfl⟩
  · exact ⟨m, hm, hnone, rfl⟩
  · simp [Problem.toIssue, Problem.code] at hcode

theorem closedPath_of_mem_issues {i : Preflight.Issue}
    (hi : i ∈ (compileDocument r).preflight.issues) (hcode : i.code = "PREFLIGHT_SNIPPET_CYCLE") :
    ∃ path, Graph.ClosedPath
        (Contains (Index.ofBundles r.snippets) r.document.orderedBlocks) path ∧
      i.details.bind (·.field? "cycle") = some (.strings path) := by
  obtain ⟨p, hp, rfl⟩ := List.mem_map.1 (Preflight.issues_run r ▸ hi)
  rcases Preflight.mem_checkDependencies (Preflight.mem_checkDependencies_of_code hp (.inr hcode))
    with ⟨m, referencedBy, -, -, rfl⟩ | ⟨path, hpath, rfl⟩
  · simp [Problem.toIssue, Problem.code] at hcode
  · exact ⟨path, hpath, rfl⟩

theorem reportsMissing_of_mentioned {m : Mention}
    (hm : Mentioned (Index.ofBundles r.snippets) r.document.orderedBlocks m)
    (hnone : m.target? (Index.ofBundles r.snippets) = none) : ReportsMissing r := by
  obtain ⟨referencedBy, hmem⟩ := Preflight.dependencyMissing_of_mentioned hm hnone
  exact ⟨_, Preflight.toIssue_mem_run [] hmem, rfl⟩

theorem reportsCycle_of_contains {id : String} (h : Relation.TransGen
      (Contains (Index.ofBundles r.snippets) r.document.orderedBlocks) id id) : ReportsCycle r := by
  obtain ⟨path, hmem⟩ := Preflight.snippetCycle_of_contains h
  exact ⟨_, Preflight.toIssue_mem_run [] hmem, rfl⟩

section Requests

variable {b : Block} {snippets : List Bundle}

def requestOf (b : Block) (snippets : List Bundle) : CompileRequest :=
  ⟨{ Document.empty "doc" "Title" "draft" with blocks := [b] }, snippets, ∅, none⟩

theorem orderedBlocks_requestOf : (requestOf b snippets).document.orderedBlocks = [b] :=
  List.mergeSort_singleton _

theorem mentioned_requestOf {m : Mention} (hm : m ∈ Mention.ofBlock b) :
    Mentioned (Index.ofBundles snippets) (requestOf b snippets).document.orderedBlocks m :=
  .ofBlock (orderedBlocks_requestOf ▸ List.mem_singleton_self b) hm

theorem exists_finding_of_code {d : Diagnostic}
    (hd : d ∈ (compileDocument (requestOf b snippets)).diagnostics)
    (hcode : d.code = Finding.snippetNotFoundCode ∨ d.code = Finding.snippetCycleCode) :
    ∃ f ∈ (Rendering.of (Index.ofBundles snippets) b).findings, f.toDiagnostic = d := by
  obtain ⟨f, hf, rfl⟩ := List.mem_map.1 hd
  rw [Finding.code_eq_snippetNotFoundCode, Finding.code_eq_snippetCycleCode] at hcode
  rcases Draft.mem_allFindings hf with ⟨b', hb', hfound⟩ | ⟨blockId, id, rfl⟩ | ⟨key, rfl⟩
  · rw [orderedBlocks_requestOf, List.mem_singleton] at hb'
    subst hb'
    exact ⟨f, hfound, rfl⟩
  · simp at hcode
  · simp at hcode

theorem clean_of_findings_eq_nil
    (h : (Rendering.of (Index.ofBundles snippets) b).findings = []) :
    ¬ NotFound (requestOf b snippets) ∧ ¬ RunsIntoCycle (requestOf b snippets) := by
  constructor
  · rintro ⟨d, hd, hcode⟩
    obtain ⟨f, hf, -⟩ := exists_finding_of_code hd (.inl hcode)
    simp [h] at hf
  · rintro ⟨d, hd, hcode⟩
    obtain ⟨f, hf, -⟩ := exists_finding_of_code hd (.inr hcode)
    simp [h] at hf

def twoBodies (id first second : String) : Bundle :=
  .ofVersions id [.sealed 1 none first ∅, .sealed 2 (some 1) second ∅]

theorem leadsTo_twoBodies {id first second : String}
    (h : snippets.find? (·.snippet.id == id) = some (twoBodies id first second)) :
    LeadsTo (Index.ofBundles snippets) ⟨id, some (some 1)⟩ id first ∧
      LeadsTo (Index.ofBundles snippets) ⟨id, some (some 2)⟩ id second := by
  have hres (revision : Option UInt32) : (Index.ofBundles snippets).resolve? id revision =
      (twoBodies id first second).pick? revision := Index.resolve?_of_id h
  exact ⟨⟨_, hres (some 1), rfl, rfl⟩, ⟨_, hres (some 2), rfl, rfl⟩⟩

def atPath (id path body : String) : Bundle :=
  { Bundle.single id body with snippet := { (Bundle.single id body).snippet with path } }

theorem all_c : Mention.all "\x7b\x7b> c\x7d\x7d" = [⟨"c", some none⟩] := rfl

end Requests

/-- **A clean compilation is blocked only by snippets in two revisions.** Where every reference is
found and none runs into a cycle, no dependency is missing, and every cycle in the report leads
through two snippets of each of which the document reaches two revisions. -/
theorem twoRevisions_of_clean (r : CompileRequest)
    (hids : (r.snippets.map (·.snippet.id)).Nodup) (hfound : ¬ NotFound r)
    (hclean : ¬ RunsIntoCycle r) :
    ¬ ReportsMissing r ∧
    ∀ i ∈ (compileDocument r).preflight.issues, i.code = "PREFLIGHT_SNIPPET_CYCLE" →
      ∃ path, i.details.bind (·.field? "cycle") = some (.strings path) ∧
        ∃ a ∈ path, ∃ b ∈ path, a ≠ b ∧
          TwoRevisions (Index.ofBundles r.snippets) r.document.blocks a ∧
          TwoRevisions (Index.ofBundles r.snippets) r.document.blocks b := by
  have hplain : Unshadowed (Index.ofBundles r.snippets) r.document.orderedBlocks :=
    Preflight.unshadowed_of_nodup hids
  have hnoCycle : ∀ id stack, ¬ FoundIn (Index.ofBundles r.snippets) r.document.orderedBlocks
      (.snippetCycle id stack) :=
    fun id stack h => hclean ⟨_, toDiagnostic_mem_diagnostics h, rfl⟩
  refine ⟨?_, fun i hi hcode => ?_⟩
  · rintro ⟨i, hi, hcode⟩
    obtain ⟨m, hm, hnone, -⟩ := mentioned_of_mem_issues hi hcode
    rcases found_of_mentioned hplain hm hnone with ⟨revision, stack, h⟩ | ⟨id, stack, -, h⟩
    · exact hfound ⟨_, toDiagnostic_mem_diagnostics h, rfl⟩
    · exact hnoCycle id stack h
  · obtain ⟨path, hpath, hcycle⟩ := closedPath_of_mem_issues hi hcode
    obtain ⟨a, ha, b, hb, hne, htwo, htwo'⟩ := two_snippets_of_closedPath hplain hnoCycle hpath
    have hsub := Preflight.orderedBlocks_subset r.document
    exact ⟨path, hcycle, a, ha, b, hb, hne, htwo.mono hsub, htwo'.mono hsub⟩

/-- Two snippets, each of which mentions the other in one of its two revisions. The document asks
for both mentions, and neither leads on to another. -/
def crossedPins : CompileRequest :=
  requestOf (.markdown "block" 0 "\x7b\x7b> a@1\x7d\x7d \x7b\x7b> b@2\x7d\x7d")
    [twoBodies "a" "\x7b\x7b> b@1\x7d\x7d" "A", twoBodies "b" "B" "\x7b\x7b> a@2\x7d\x7d"]

section CrossedPins

theorem leadsTo_a : LeadsTo (Index.ofBundles crossedPins.snippets) ⟨"a", some (some 1)⟩ "a"
      "\x7b\x7b> b@1\x7d\x7d" ∧
    LeadsTo (Index.ofBundles crossedPins.snippets) ⟨"a", some (some 2)⟩ "a" "A" :=
  leadsTo_twoBodies rfl

theorem leadsTo_b : LeadsTo (Index.ofBundles crossedPins.snippets) ⟨"b", some (some 1)⟩ "b" "B" ∧
    LeadsTo (Index.ofBundles crossedPins.snippets) ⟨"b", some (some 2)⟩ "b"
      "\x7b\x7b> a@2\x7d\x7d" :=
  leadsTo_twoBodies rfl

theorem all_b1 : Mention.all "\x7b\x7b> b@1\x7d\x7d" = [⟨"b", some (some 1)⟩] := rfl

theorem all_a2 : Mention.all "\x7b\x7b> a@2\x7d\x7d" = [⟨"a", some (some 2)⟩] := rfl

theorem all_crossedPins : Mention.all "\x7b\x7b> a@1\x7d\x7d \x7b\x7b> b@2\x7d\x7d" =
    [⟨"a", some (some 1)⟩, ⟨"b", some (some 2)⟩] := rfl

theorem ids_crossedPins : (crossedPins.snippets.map (·.snippet.id)).Nodup := by
  show ["a", "b"].Nodup
  decide

theorem clean_crossedPins : ¬ NotFound crossedPins ∧ ¬ RunsIntoCycle crossedPins := by
  have hA : Mention.all "A" = [] := rfl
  have hB : Mention.all "B" = [] := rfl
  refine clean_of_findings_eq_nil ?_
  show (expandPieces _ [] (Token.pieces _)).findings = []
  refine findings_eq_nil ?_
  rw [all_crossedPins, List.forall_mem_cons, List.forall_mem_singleton]
  constructor
  · refine ⟨_, _, leadsTo_a.1, List.not_mem_nil, findings_eq_nil ?_⟩
    rw [all_b1, List.forall_mem_singleton]
    exact ⟨_, _, leadsTo_b.1, by decide, findings_eq_nil (hB ▸ List.forall_mem_nil _)⟩
  · refine ⟨_, _, leadsTo_b.2, List.not_mem_nil, findings_eq_nil ?_⟩
    rw [all_a2, List.forall_mem_singleton]
    exact ⟨_, _, leadsTo_a.2, by decide, findings_eq_nil (hA ▸ List.forall_mem_nil _)⟩

theorem reportsCycle_crossedPins : ReportsCycle crossedPins := by
  have hplain : Unshadowed (Index.ofBundles crossedPins.snippets)
      crossedPins.document.orderedBlocks := Preflight.unshadowed_of_nodup ids_crossedPins
  have hmentioned : ∀ m ∈ Mention.all "\x7b\x7b> a@1\x7d\x7d \x7b\x7b> b@2\x7d\x7d",
      Mentioned (Index.ofBundles crossedPins.snippets) crossedPins.document.orderedBlocks m :=
    fun m hm => mentioned_requestOf hm
  rw [all_crossedPins, List.forall_mem_cons, List.forall_mem_singleton] at hmentioned
  obtain ⟨ha, hb⟩ := hmentioned
  have hab := leadsTo_a.1.contains hplain ha (all_b1 ▸ List.mem_singleton_self _) leadsTo_b.1
  have hba := leadsTo_b.2.contains hplain hb (all_a2 ▸ List.mem_singleton_self _) leadsTo_a.2
  exact reportsCycle_of_contains (.tail (.single hab) hba)

end CrossedPins

/-- A clean compilation whose report shows a cycle. -/
theorem crossedPins_blocked :
    (crossedPins.snippets.map (·.snippet.id)).Nodup ∧ ¬ NotFound crossedPins ∧
      ¬ RunsIntoCycle crossedPins ∧ ReportsCycle crossedPins :=
  ⟨ids_crossedPins, clean_crossedPins.1, clean_crossedPins.2, reportsCycle_crossedPins⟩

theorem twoRevisions_of_clean_crossedPins :
    (crossedPins.snippets.map (·.snippet.id)).Nodup ∧ ¬ NotFound crossedPins ∧
      ¬ RunsIntoCycle crossedPins ∧ ∃ a b, a ≠ b ∧
        TwoRevisions (Index.ofBundles crossedPins.snippets) crossedPins.document.blocks a ∧
        TwoRevisions (Index.ofBundles crossedPins.snippets) crossedPins.document.blocks b := by
  obtain ⟨hfound, hclean⟩ := clean_crossedPins
  refine ⟨ids_crossedPins, hfound, hclean, ?_⟩
  obtain ⟨i, hi, hcode⟩ := reportsCycle_crossedPins
  obtain ⟨path, -, a, -, b, -, htwo⟩ :=
    (twoRevisions_of_clean crossedPins ids_crossedPins hfound hclean).2 i hi hcode
  exact ⟨a, b, htwo⟩

/-- **The report and the compilation agree on missing snippets, up to cycles across revisions.** A
reference that is not found makes a dependency missing. Where a dependency is missing, a reference
is not found, or the compilation runs into a cycle at a snippet of which the document reaches two
revisions. -/
theorem missing_agrees (r : CompileRequest)
    (hplain : Unshadowed (Index.ofBundles r.snippets) r.document.blocks) :
    (NotFound r → ReportsMissing r) ∧
    (ReportsMissing r → NotFound r ∨
      ∃ d ∈ (compileDocument r).diagnostics, d.code = Finding.snippetCycleCode ∧
        ∃ id, d.details.bind (·.field? "snippetId") = some (.str id) ∧
          TwoRevisions (Index.ofBundles r.snippets) r.document.blocks id) := by
  have hsub := Preflight.orderedBlocks_subset r.document
  refine ⟨?_, ?_⟩
  · rintro ⟨d, hd, hcode⟩
    obtain ⟨f, hf, rfl⟩ := List.mem_map.1 hd
    obtain ⟨reference, revision, stack, rfl⟩ := Finding.code_eq_snippetNotFoundCode.1 hcode
    obtain ⟨m, hm, hnone, -⟩ := foreseen_of_mem_draft (hplain.anti hsub) hf
    exact reportsMissing_of_mentioned hm hnone
  · rintro ⟨i, hi, hcode⟩
    obtain ⟨m, hm, hnone, -⟩ := mentioned_of_mem_issues hi hcode
    rcases found_of_mentioned (hplain.anti hsub) hm hnone
      with ⟨revision, stack, h⟩ | ⟨id, stack, htwo, h⟩
    · exact .inl ⟨_, toDiagnostic_mem_diagnostics h, rfl⟩
    · exact .inr ⟨_, toDiagnostic_mem_diagnostics h, rfl, id, rfl, htwo.mono hsub⟩

/-- A snippet whose first revision mentions the second one, and that one a snippet that there is
not. -/
def cutOff : CompileRequest :=
  requestOf (.markdown "block" 0 "\x7b\x7b> a@1\x7d\x7d")
    [twoBodies "a" "\x7b\x7b> a@2\x7d\x7d" "\x7b\x7b> c\x7d\x7d"]

/-- Two bundles of one id. The document finds the one behind by its path. -/
def shadowed (front behind : String) : CompileRequest :=
  requestOf (.snippet "block" 0 "new.md") [atPath "a" "old.md" front, atPath "a" "new.md" behind]

section CutOff

theorem leadsTo_cutOff : LeadsTo (Index.ofBundles cutOff.snippets) ⟨"a", some (some 1)⟩ "a"
      "\x7b\x7b> a@2\x7d\x7d" ∧
    LeadsTo (Index.ofBundles cutOff.snippets) ⟨"a", some (some 2)⟩ "a" "\x7b\x7b> c\x7d\x7d" :=
  leadsTo_twoBodies rfl

theorem unshadowed_cutOff : Unshadowed (Index.ofBundles cutOff.snippets) cutOff.document.blocks :=
  Preflight.unshadowed_of_nodup (List.nodup_singleton "a")

theorem not_notFound_cutOff : ¬ NotFound cutOff := by
  rintro ⟨d, hd, hcode⟩
  obtain ⟨f, hf, rfl⟩ := exists_finding_of_code hd (.inl hcode)
  obtain ⟨reference, revision, stack, rfl⟩ := Finding.code_eq_snippetNotFoundCode.1 hcode
  rcases cases_of_leadsTo rfl leadsTo_cutOff.1 hf with ⟨hs, -⟩ | ⟨-, hf⟩
  · cases hs
  · rcases cases_of_leadsTo rfl leadsTo_cutOff.2 hf with ⟨-, heq⟩ | ⟨hs, -⟩
    · cases heq
    · exact hs (List.mem_singleton_self _)

theorem reportsMissing_cutOff : ReportsMissing cutOff := by
  have hplain := unshadowed_cutOff.anti (Preflight.orderedBlocks_subset _)
  have hfirst : Mentioned (Index.ofBundles cutOff.snippets) cutOff.document.orderedBlocks
      ⟨"a", some (some 1)⟩ := mentioned_requestOf (List.mem_singleton_self _)
  have hsecond := leadsTo_cutOff.1.mentioned hplain hfirst (all_a2 ▸ List.mem_singleton_self _)
  have hc := leadsTo_cutOff.2.mentioned hplain hsecond (all_c ▸ List.mem_singleton_self _)
  exact reportsMissing_of_mentioned hc ((Index.resolve?_eq ..).trans rfl)

end CutOff

section Shadowed

variable (front behind : String)

theorem find?_shadowed : (shadowed front behind).snippets.find?
    (Snippet.pathKey ·.snippet.path == Snippet.pathKey "new.md") =
      some (atPath "a" "new.md" behind) := by
  have hold : ¬ (Snippet.pathKey "old.md" == Snippet.pathKey "new.md") = true := by decide
  show List.find? _ [atPath "a" "old.md" front, atPath "a" "new.md" behind] = _
  rw [List.find?_cons_of_neg, List.find?_cons_of_pos]
  · exact beq_self_eq_true _
  · exact hold

theorem leadsTo_behind : LeadsTo (Index.ofBundles (shadowed front behind).snippets)
    ⟨"new.md", some none⟩ "a" behind := by
  refine ⟨⟨(atPath "a" "new.md" behind).snippet, .sealed 1 none behind ∅⟩, ?_, rfl, rfl⟩
  exact Index.resolve?_of_path (b := atPath "a" "new.md" behind) rfl (find?_shadowed front behind)

theorem resolveById?_shadowed :
    (Index.ofBundles (shadowed front behind).snippets).resolveById? "a" none =
      some ⟨(atPath "a" "old.md" front).snippet, .sealed 1 none front ∅⟩ := by
  rw [Index.resolveById?, Index.byId_eq]
  rfl

variable {front behind} in
theorem body_of_resolveById?_shadowed {id : String} {revision : Option UInt32} {r : Resolved}
    (h : (Index.ofBundles (shadowed front behind).snippets).resolveById? id revision = some r) :
    r.body = front := by
  obtain ⟨b, hb, hpick⟩ := Option.bind_eq_some_iff.1 h
  rw [Index.byId_eq] at hb
  have hfound : b.snippet.id = id := by simpa using List.find?_some hb
  obtain rfl : "a" = id := by
    rcases List.mem_pair.1 (List.mem_of_find?_eq_some hb) with rfl | rfl <;> exact hfound
  obtain rfl : atPath "a" "old.md" front = b := Option.some.inj hb
  have hversion := (Transclusion.version_mem_of_pick? hpick).2
  rw [Resolved.body, List.mem_singleton.1 hversion]
  rfl

/-- The compilation opens the bundle behind, and does not find what that one mentions. -/
theorem notFound_shadowed : NotFound (shadowed "old" "\x7b\x7b> c\x7d\x7d") := by
  obtain ⟨r, hr, -, hbody⟩ := leadsTo_behind "old" "\x7b\x7b> c\x7d\x7d"
  have hopens : Opens _ (shadowed "old" "\x7b\x7b> c\x7d\x7d").document.orderedBlocks r [] :=
    .ofBlock (orderedBlocks_requestOf ▸ List.mem_singleton_self _) (List.mem_singleton_self _) hr
  have hc : ⟨"c", some none⟩ ∈ Mention.all r.body := by
    rw [hbody, all_c]
    exact List.mem_singleton_self _
  obtain ⟨revision, stack, h⟩ := hopens.notFound hc ((Index.resolve?_eq ..).trans rfl)
  exact ⟨_, toDiagnostic_mem_diagnostics h, rfl⟩

theorem not_reportsMissing_shadowed :
    ¬ ReportsMissing (shadowed "old" "\x7b\x7b> c\x7d\x7d") := by
  rintro ⟨i, hi, hcode⟩
  obtain ⟨m, hm, hnone, -⟩ := mentioned_of_mem_issues hi hcode
  cases hm with
  | ofBlock hb hm =>
    rw [shadowed, orderedBlocks_requestOf, List.mem_singleton] at hb
    subst hb
    obtain rfl := List.mem_singleton.1 hm
    exact (leadsTo_behind _ _).ne_none hnone
  | ofBody _ hr hm =>
    rw [body_of_resolveById?_shadowed hr] at hm
    cases hm

theorem not_notFound_shadowed : ¬ NotFound (shadowed "\x7b\x7b> c\x7d\x7d" "new") := by
  obtain ⟨r, hr, -, hbody⟩ := leadsTo_behind "\x7b\x7b> c\x7d\x7d" "new"
  have hres : (Index.ofBundles (shadowed "\x7b\x7b> c\x7d\x7d" "new").snippets).resolve?
      "new.md" none = some r := hr
  have hnil : (Rendering.of (Index.ofBundles (shadowed "\x7b\x7b> c\x7d\x7d" "new").snippets)
      (.snippet "block" 0 "new.md")).findings = [] := by
    simp only [Rendering.of, Block.snippet, hres]
    refine findings_eq_nil ?_
    rw [hbody]
    exact List.forall_mem_nil _
  exact (clean_of_findings_eq_nil hnil).1

/-- The report looks into the bundle in front, and misses what that one mentions. -/
theorem reportsMissing_shadowed : ReportsMissing (shadowed "\x7b\x7b> c\x7d\x7d" "new") := by
  obtain ⟨r, hr, hid, -⟩ := leadsTo_behind "\x7b\x7b> c\x7d\x7d" "new"
  have hblock : Mentioned _ (shadowed "\x7b\x7b> c\x7d\x7d" "new").document.orderedBlocks
      ⟨"new.md", some none⟩ := mentioned_requestOf (List.mem_singleton_self _)
  have hneed := hblock.reached (Preflight.Mention.need?_eq_some.2 ⟨r, hr, rfl⟩)
  rw [hid] at hneed
  have hc := Mentioned.ofBody hneed (resolveById?_shadowed _ _) (all_c ▸ List.mem_singleton_self _)
  exact reportsMissing_of_mentioned hc ((Index.resolve?_eq ..).trans rfl)

end Shadowed

/-- The report misses a snippet that the compilation does not come to, behind a cycle or in a body
that it does not open, or it does not miss one that the compilation does not find. -/
theorem missing_disagrees :
    (¬ NotFound cutOff ∧ ReportsMissing cutOff) ∧
      (¬ NotFound (shadowed "\x7b\x7b> c\x7d\x7d" "new") ∧
        ReportsMissing (shadowed "\x7b\x7b> c\x7d\x7d" "new")) ∧
      NotFound (shadowed "old" "\x7b\x7b> c\x7d\x7d") ∧
        ¬ ReportsMissing (shadowed "old" "\x7b\x7b> c\x7d\x7d") :=
  ⟨⟨not_notFound_cutOff, reportsMissing_cutOff⟩, ⟨not_notFound_shadowed, reportsMissing_shadowed⟩,
    notFound_shadowed, not_reportsMissing_shadowed⟩

/-- Where the second revision is cut off, the compilation runs into a cycle. -/
theorem missing_agrees_cutOff :
    Unshadowed (Index.ofBundles cutOff.snippets) cutOff.document.blocks ∧
      ReportsMissing cutOff ∧
      ∃ d ∈ (compileDocument cutOff).diagnostics, d.code = Finding.snippetCycleCode ∧
        ∃ id, d.details.bind (·.field? "snippetId") = some (.str id) ∧
          TwoRevisions (Index.ofBundles cutOff.snippets) cutOff.document.blocks id := by
  refine ⟨unshadowed_cutOff, reportsMissing_cutOff, ?_⟩
  have hagrees := (missing_agrees cutOff unshadowed_cutOff).2 reportsMissing_cutOff
  exact hagrees.resolve_left not_notFound_cutOff

/-- **Without cycles, no missing snippet is made up.** Among bundles of distinct ids, where the
report shows no cycle of snippets, every dependency that it misses is a reference that the
compilation does not find. -/
theorem notFound_of_dependencyMissing (r : CompileRequest)
    (hids : (r.snippets.map (·.snippet.id)).Nodup)
    (hacyclic : ¬ ReportsCycle r) :
    ∀ i ∈ (compileDocument r).preflight.issues,
      i.code = "PREFLIGHT_SNIPPET_DEPENDENCY_MISSING" →
      ∃ reference, i.details.bind (·.field? "snippetId") = some (.str reference) ∧
        ∃ d ∈ (compileDocument r).diagnostics, d.code = Finding.snippetNotFoundCode ∧
          d.details.bind (·.field? "reference") = some (.str reference) := by
  have hplain : Unshadowed (Index.ofBundles r.snippets) r.document.orderedBlocks :=
    Preflight.unshadowed_of_nodup hids
  intro i hi hcode
  obtain ⟨m, hm, hnone, hreference⟩ := mentioned_of_mem_issues hi hcode
  rcases found_of_mentioned hplain hm hnone
    with ⟨revision, stack, h⟩ | ⟨id, stack, -, b, hb, hf⟩
  · exact ⟨m.reference, hreference, _, toDiagnostic_mem_diagnostics h, rfl, rfl⟩
  · -- a cycle that rendering runs into is a circle of snippets, which the report would show
    obtain ⟨x, hx⟩ := foreseen_of_mem_rendering hplain hb _ hf
    exact absurd (reportsCycle_of_contains hx) hacyclic

def dangling : CompileRequest :=
  requestOf (.markdown "block" 0 "\x7b\x7b> a\x7d\x7d") [.single "a" "\x7b\x7b> c\x7d\x7d"]

section Dangling

theorem leadsTo_dangling : LeadsTo (Index.ofBundles dangling.snippets) ⟨"a", some none⟩ "a"
    "\x7b\x7b> c\x7d\x7d" :=
  ⟨_, (Index.resolve?_eq ..).trans rfl, rfl, rfl⟩

theorem target?_dangling :
    (⟨"c", some none⟩ : Mention).target? (Index.ofBundles dangling.snippets) = none :=
  (Index.resolve?_eq ..).trans rfl

theorem ids_dangling : (dangling.snippets.map (·.snippet.id)).Nodup := List.nodup_singleton "a"

theorem reportsMissing_dangling : ReportsMissing dangling := by
  have ha : Mentioned (Index.ofBundles dangling.snippets) dangling.document.orderedBlocks
      ⟨"a", some none⟩ := mentioned_requestOf (List.mem_singleton_self _)
  have hc := leadsTo_dangling.mentioned (Preflight.unshadowed_of_nodup ids_dangling) ha
    (all_c ▸ List.mem_singleton_self _)
  exact reportsMissing_of_mentioned hc target?_dangling

theorem not_reportsCycle_dangling : ¬ ReportsCycle dangling := by
  have hnone : ∀ x y, ¬ Contains (Index.ofBundles dangling.snippets)
      dangling.document.orderedBlocks x y := by
    rintro x y ⟨n, r, m, n', -, hr, hm, hneed, -, -⟩
    obtain ⟨b, hb, hpick⟩ := Option.bind_eq_some_iff.1 hr
    rw [Index.byId_eq] at hb
    obtain rfl := List.mem_singleton.1 (List.mem_of_find?_eq_some hb)
    have hversion := (Transclusion.version_mem_of_pick? hpick).2
    have hbody : r.body = "\x7b\x7b> c\x7d\x7d" := by
      rw [Resolved.body, List.mem_singleton.1 hversion]
      rfl
    rw [hbody, all_c, List.mem_singleton] at hm
    subst hm
    obtain ⟨r', hr', -⟩ := Preflight.Mention.need?_eq_some.1 hneed
    simp [target?_dangling] at hr'
  rintro ⟨i, hi, hcode⟩
  obtain ⟨path, hpath, -⟩ := closedPath_of_mem_issues hi hcode
  obtain ⟨a, hcircle⟩ := hpath.exists_transGen
  obtain ⟨y, hay, -⟩ := Relation.TransGen.head'_iff.1 hcircle
  exact hnone a y hay

end Dangling

theorem notFound_of_dependencyMissing_dangling :
    (dangling.snippets.map (·.snippet.id)).Nodup ∧ ¬ ReportsCycle dangling ∧
      ReportsMissing dangling ∧
      ∃ reference, ∃ d ∈ (compileDocument dangling).diagnostics,
        d.code = Finding.snippetNotFoundCode ∧
          d.details.bind (·.field? "reference") = some (.str reference) := by
  refine ⟨ids_dangling, not_reportsCycle_dangling, reportsMissing_dangling, ?_⟩
  obtain ⟨i, hi, hcode⟩ := reportsMissing_dangling
  obtain ⟨reference, -, d, hd⟩ :=
    notFound_of_dependencyMissing dangling ids_dangling not_reportsCycle_dangling i hi hcode
  exact ⟨reference, d, hd⟩

end DocCompiler.Compile
