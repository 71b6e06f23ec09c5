import DocCompiler.Proofs.Compile.Rendering
import DocCompiler.Proofs.Graph.ClosedPaths
import DocCompiler.Proofs.Transclusion.Foreseen

/-! Which bodies a compilation opens, and what it finds in them. A body is opened inside others,
each mentioned in the one around it, and no snippet is opened inside itself. So the renderer looks
into every version that the document reaches, unless a cycle that it runs into leads to another
revision of a snippet than the one being expanded. -/

namespace DocCompiler.Compile

open Preflight (Contains LeadsTo Mention Mentioned Reached ReachedVersion TwoRevisions Unshadowed)
open Snippet (Index Resolved)
open Transclusion (Token expandPieces)

variable {index : Index} {blocks : List Block} {r r' : Resolved} {around : List Resolved}
  {m : Mention}

def FoundIn (index : Index) (blocks : List Block) (f : Finding) : Prop :=
  ∃ b ∈ blocks, f ∈ (Rendering.of index b).findings

/-- A version is opened inside others, the innermost first, when a block is rendered. -/
inductive Opens (index : Index) (blocks : List Block) : Resolved → List Resolved → Prop where
  | ofBlock {b : Block} {m : Mention} {r : Resolved} (hb : b ∈ blocks) (hm : m ∈ Mention.ofBlock b)
      (hr : m.target? index = some r) : Opens index blocks r []
  | ofBody {r r' : Resolved} {around : List Resolved} {m : Mention}
      (h : Opens index blocks r around) (hm : m ∈ Mention.all r.body)
      (hr : m.target? index = some r')
      (hnew : r'.snippet.id ∉ (r :: around).map (·.snippet.id)) :
      Opens index blocks r' (r :: around)

theorem Opens.notMem (h : Opens index blocks r around) :
    r.snippet.id ∉ around.map (·.snippet.id) := by
  cases h with
  | ofBlock => exact List.not_mem_nil
  | ofBody _ _ _ hnew => exact hnew

theorem Opens.of_mem (h : Opens index blocks r around) (hmem : r' ∈ r :: around) :
    ∃ around', Opens index blocks r' around' := by
  induction h with
  | ofBlock hb hm hr =>
    rw [List.mem_singleton.1 hmem]
    exact ⟨[], .ofBlock hb hm hr⟩
  | ofBody h hm hr hnew ih =>
    rcases List.mem_cons.1 hmem with rfl | hmem
    · exact ⟨_, .ofBody h hm hr hnew⟩
    · exact ih hmem

theorem Opens.reachedVersion (h : Opens index blocks r around)
    (hplain : Unshadowed index blocks) : ReachedVersion index blocks r := by
  induction h with
  | ofBlock hb hm hr => exact hplain.reachedVersion (.ofBlock hb hm) hr
  | ofBody _ hm hr _ ih => exact hplain.reachedVersion (ih.mentioned hm) hr

section Pieces

variable {stack : List String} {text : String}

theorem notFound_mem_findings (hm : m ∈ Mention.all text) (hnone : m.target? index = none) :
    ∃ revision, Finding.snippetNotFound m.reference revision stack ∈
      (expandPieces index stack (Token.pieces text)).findings := by
  obtain ⟨t, ht, rfl⟩ := Transclusion.mem_all.1 hm
  refine ⟨t.shownRevision, Transclusion.mem_findings_expandPieces.2 ⟨_, ht, ?_⟩⟩
  rw [Transclusion.expandPieces_missing hnone]
  exact List.mem_cons_self ..

theorem cycle_mem_findings (hm : m ∈ Mention.all text) (hr : m.target? index = some r)
    (hs : r.snippet.id ∈ stack) :
    Finding.snippetCycle r.snippet.id (stack ++ [r.snippet.id]) ∈
      (expandPieces index stack (Token.pieces text)).findings := by
  obtain ⟨t, ht, rfl⟩ := Transclusion.mem_all.1 hm
  refine Transclusion.mem_findings_expandPieces.2 ⟨_, ht, ?_⟩
  rw [Transclusion.expandPieces_cycle hr hs]
  exact List.mem_cons_self ..

theorem findings_inside_subset (hm : m ∈ Mention.all text) (hr : m.target? index = some r)
    (hs : r.snippet.id ∉ stack) :
    (expandPieces index (stack ++ [r.snippet.id]) (Token.pieces r.body)).findings ⊆
      (expandPieces index stack (Token.pieces text)).findings := by
  obtain ⟨t, ht, rfl⟩ := Transclusion.mem_all.1 hm
  intro f hf
  refine Transclusion.mem_findings_expandPieces.2 ⟨_, ht, ?_⟩
  rw [Transclusion.expandPieces_inside hr hs]
  exact List.mem_append_left _ hf

/-- What is found in a text is a mention of it that does not resolve, one of a snippet that is being
expanded, or is found in a body that it opens. -/
theorem cases_of_mem_findings {f : Finding}
    (hf : f ∈ (expandPieces index stack (Token.pieces text)).findings) :
    ∃ m ∈ Mention.all text,
      (m.target? index = none ∧ ∃ revision, f = .snippetNotFound m.reference revision stack) ∨
      ∃ r, m.target? index = some r ∧
        (r.snippet.id ∈ stack ∧ f = .snippetCycle r.snippet.id (stack ++ [r.snippet.id]) ∨
          r.snippet.id ∉ stack ∧
            f ∈ (expandPieces index (stack ++ [r.snippet.id]) (Token.pieces r.body)).findings) := by
  obtain ⟨p, hp, hf⟩ := Transclusion.mem_findings_expandPieces.1 hf
  cases p with
  | plain c =>
    rw [expandPieces] at hf
    simp [Transclusion.Expansion.verbatim] at hf
  | found t =>
    refine ⟨.ofToken t, Transclusion.mention_mem_all hp, ?_⟩
    cases hr : t.target? index with
    | none =>
      rw [Transclusion.expandPieces_missing hr] at hf
      simp only [Transclusion.Expansion.findings_append, Transclusion.findings_expandPieces_nil,
        List.append_nil] at hf
      exact .inl ⟨hr, t.shownRevision, List.mem_singleton.1 hf⟩
    | some r =>
      refine .inr ⟨r, hr, ?_⟩
      by_cases hs : r.snippet.id ∈ stack
      · rw [Transclusion.expandPieces_cycle hr hs] at hf
        simp only [Transclusion.Expansion.findings_append, Transclusion.findings_expandPieces_nil,
          List.append_nil] at hf
        exact .inl ⟨hs, List.mem_singleton.1 hf⟩
      · rw [Transclusion.expandPieces_inside hr hs] at hf
        simp only [Transclusion.Expansion.findings_append, Transclusion.findings_expandPieces_nil,
          List.append_nil] at hf
        exact .inr ⟨hs, hf⟩

variable {id body : String}

theorem cases_of_leadsTo (hall : Mention.all text = [m]) (h : LeadsTo index m id body) {f : Finding}
    (hf : f ∈ (expandPieces index stack (Token.pieces text)).findings) :
    id ∈ stack ∧ f = .snippetCycle id (stack ++ [id]) ∨
      id ∉ stack ∧ f ∈ (expandPieces index (stack ++ [id]) (Token.pieces body)).findings := by
  obtain ⟨m', hm, hcases⟩ := cases_of_mem_findings hf
  rw [hall, List.mem_singleton] at hm
  subst hm
  rcases hcases with ⟨hnone, -⟩ | ⟨r, hr, hcases⟩
  · exact absurd hnone h.ne_none
  · obtain ⟨rfl, rfl⟩ := h.eq hr
    exact hcases

theorem findings_eq_nil (h : ∀ m ∈ Mention.all text, ∃ id body, LeadsTo index m id body ∧
      id ∉ stack ∧ (expandPieces index (stack ++ [id]) (Token.pieces body)).findings = []) :
    (expandPieces index stack (Token.pieces text)).findings = [] := by
  refine List.eq_nil_iff_forall_not_mem.2 fun f hf => ?_
  obtain ⟨m, hm, hcases⟩ := cases_of_mem_findings hf
  obtain ⟨id, body, hleads, hs, hnil⟩ := h m hm
  rcases hcases with ⟨hnone, -⟩ | ⟨r, hr, hcases⟩
  · exact hleads.ne_none hnone
  · obtain ⟨rfl, rfl⟩ := hleads.eq hr
    rcases hcases with ⟨hs', -⟩ | ⟨-, hf⟩
    · exact hs hs'
    · simp [hnil] at hf

end Pieces

theorem Opens.findings_subset (h : Opens index blocks r around) :
    ∃ b ∈ blocks, (expandPieces index ((r :: around).map (·.snippet.id)).reverse
      (Token.pieces r.body)).findings ⊆ (Rendering.of index b).findings := by
  induction h with
  | @ofBlock b m r hb hm hr =>
    refine ⟨b, hb, ?_⟩
    obtain ⟨id, sequence, metadata, content⟩ := b
    cases content with
    | markdown body =>
      exact findings_inside_subset hm hr List.not_mem_nil
    | snippet snippetId revision mode =>
      obtain rfl := List.mem_singleton.1 hm
      have hres : index.resolve? snippetId revision = some r := hr
      simp only [Rendering.of, hres]
      exact List.Subset.refl _
    | divider | group | comment => cases hm
  | ofBody h hm hr hnew ih =>
    obtain ⟨b, hb, hsub⟩ := ih
    refine ⟨b, hb, List.Subset.trans ?_ hsub⟩
    rw [List.map_cons, List.reverse_cons]
    exact findings_inside_subset hm hr fun hs => hnew (List.mem_reverse.1 hs)

theorem Opens.ofBody_or_cycle (h : Opens index blocks r around) (hm : m ∈ Mention.all r.body)
    (hr : m.target? index = some r') :
    Opens index blocks r' (r :: around) ∨
      (∃ v ∈ r :: around, v.snippet.id = r'.snippet.id) ∧
        ∃ stack, FoundIn index blocks (.snippetCycle r'.snippet.id stack) := by
  by_cases hmem : r'.snippet.id ∈ (r :: around).map (·.snippet.id)
  · obtain ⟨b, hb, hsub⟩ := h.findings_subset
    refine .inr ⟨List.mem_map.1 hmem, _, b, hb, hsub (cycle_mem_findings hm hr ?_)⟩
    exact List.mem_reverse.2 hmem
  · exact .inl (.ofBody h hm hr hmem)

theorem Opens.notFound (h : Opens index blocks r around) (hm : m ∈ Mention.all r.body)
    (hnone : m.target? index = none) :
    ∃ revision stack, FoundIn index blocks (.snippetNotFound m.reference revision stack) := by
  obtain ⟨b, hb, hsub⟩ := h.findings_subset
  obtain ⟨revision, hf⟩ := notFound_mem_findings hm hnone
  exact ⟨revision, _, b, hb, hsub hf⟩

theorem notFound_of_mem_block {b : Block} (hb : b ∈ blocks) (hm : m ∈ Mention.ofBlock b)
    (hnone : m.target? index = none) :
    ∃ revision stack, FoundIn index blocks (.snippetNotFound m.reference revision stack) := by
  obtain ⟨id, sequence, metadata, content⟩ := b
  cases content with
  | markdown body =>
    obtain ⟨revision, hf⟩ := notFound_mem_findings hm hnone
    exact ⟨revision, [], _, hb, hf⟩
  | snippet snippetId revision mode =>
    obtain rfl := List.mem_singleton.1 hm
    have hres : index.resolve? snippetId revision = none := hnone
    refine ⟨revision.elim .null (.nat ·.toNat), [], _, hb, ?_⟩
    simp only [Rendering.of, hres]
    exact List.mem_cons_self ..
  | divider | group | comment => cases hm

/-- Rendering runs into a cycle that leads to another revision of a snippet being expanded. -/
def CrossesRevisions (index : Index) (blocks : List Block) : Prop :=
  ∃ id stack, TwoRevisions index blocks id ∧ FoundIn index blocks (.snippetCycle id stack)

/-- Every version that the document reaches is opened, unless rendering crosses revisions. -/
theorem exists_opens (hplain : Unshadowed index blocks) {n : Preflight.Need}
    (hn : Reached index blocks n) (hr : index.resolveById? n.1 n.2 = some r) :
    (∃ around, Opens index blocks r around) ∨ CrossesRevisions index blocks := by
  induction hn generalizing r with
  | ofBlock hb hm hneed =>
    obtain ⟨r', hr', rfl⟩ := Preflight.Mention.need?_eq_some.1 hneed
    obtain rfl : r' = r := Option.some.inj ((hplain _ (.ofBlock hb hm) r' hr').symm.trans hr)
    exact .inl ⟨[], .ofBlock hb hm hr'⟩
  | @ofBody n n' v m hn hv hm hneed ih =>
    obtain ⟨r', hr', rfl⟩ := Preflight.Mention.need?_eq_some.1 hneed
    have hmentioned : Mentioned index blocks m := .ofBody hn hv hm
    obtain rfl : r' = r := Option.some.inj ((hplain m hmentioned r' hr').symm.trans hr)
    rcases ih hv with ⟨around, hopens⟩ | hcrosses
    · rcases hopens.ofBody_or_cycle hm hr' with hopens' | ⟨⟨inside, hinside, hid⟩, stack, hfound⟩
      · exact .inl ⟨_, hopens'⟩
      · -- the snippet is being expanded: at the same revision, or at another one
        obtain ⟨around', hopens'⟩ := hopens.of_mem hinside
        have hreached := hopens'.reachedVersion hplain
        have hreached' := hplain.reachedVersion hmentioned hr'
        rcases hreached.eq_or_twoRevisions hreached' hid with rfl | htwo
        · exact .inl ⟨around', hopens'⟩
        · exact .inr ⟨_, stack, htwo, hfound⟩
    · exact .inr hcrosses

theorem found_of_mentioned (hplain : Unshadowed index blocks) (hm : Mentioned index blocks m)
    (hnone : m.target? index = none) :
    (∃ revision stack, FoundIn index blocks (.snippetNotFound m.reference revision stack)) ∨
      CrossesRevisions index blocks := by
  cases hm with
  | ofBlock hb hm => exact .inl (notFound_of_mem_block hb hm hnone)
  | ofBody hn hr hm =>
    rcases exists_opens hplain hn hr with ⟨around, hopens⟩ | hcrosses
    · exact .inl (hopens.notFound hm hnone)
    · exact .inr hcrosses

section Clean

variable (hplain : Unshadowed index blocks)
  (hclean : ∀ id stack, ¬ FoundIn index blocks (.snippetCycle id stack))

include hclean

theorem Opens.ofBody_of_clean (h : Opens index blocks r around) (hm : m ∈ Mention.all r.body)
    (hr : m.target? index = some r') : Opens index blocks r' (r :: around) := by
  rcases h.ofBody_or_cycle hm hr with hopens | ⟨-, stack, hfound⟩
  · exact hopens
  · exact absurd hfound (hclean _ stack)

include hplain

theorem exists_opens_of_clean (hr : ReachedVersion index blocks r) :
    ∃ around, Opens index blocks r around := by
  obtain ⟨n, hn, hres⟩ := hr
  rcases exists_opens hplain hn hres with hopens | ⟨id, stack, -, hfound⟩
  · exact hopens
  · exact absurd hfound (hclean id stack)

/-- A way from one snippet along others that are reached at one revision each is opened as it
goes: its end inside its beginning. -/
theorem exists_opens_of_transGen {path : List String} {a b : String}
    (hone : ∀ x ∈ path, x ≠ a → ¬ TwoRevisions index blocks x)
    (h : Relation.TransGen (fun x y => Contains index blocks x y ∧ x ∈ path) a b) :
    ∃ r around, Opens index blocks r around ∧ r.snippet.id = b ∧
      a ∈ around.map (·.snippet.id) := by
  induction h with
  | single hab =>
    obtain ⟨r, m, r', hreached, hm, hr', rfl, rfl⟩ := Preflight.contains_iff.1 hab.1
    obtain ⟨around, hopens⟩ := exists_opens_of_clean hplain hclean hreached
    exact ⟨r', r :: around, hopens.ofBody_of_clean hclean hm hr', rfl, List.mem_cons_self ..⟩
  | tail _ hbc ih =>
    obtain ⟨r, around, hopens, rfl, hinside⟩ := ih
    obtain ⟨⟨v, m, r', hv, hm, hr', hid, rfl⟩, hpath⟩ :=
      And.imp_left Preflight.contains_iff.1 hbc
    -- the body that is open is the one with the mention, as the snippet has no other revision
    have hne : r.snippet.id ≠ a := by
      rintro rfl
      exact hopens.notMem hinside
    obtain rfl : v = r :=
      (hv.eq_or_twoRevisions (hopens.reachedVersion hplain) hid).resolve_right (hone _ hpath hne)
    refine ⟨r', v :: around, hopens.ofBody_of_clean hclean hm hr', rfl, ?_⟩
    exact List.mem_cons_of_mem _ hinside

/-- Without a cycle in rendering, a circle of snippets takes two of them at two revisions each. -/
theorem two_snippets_of_closedPath {path : List String}
    (hclosed : Graph.ClosedPath (Contains index blocks) path) :
    ∃ a ∈ path, ∃ b ∈ path, a ≠ b ∧ TwoRevisions index blocks a ∧ TwoRevisions index blocks b := by
  by_contra hfew
  have hone : ∃ a ∈ path, ∀ b ∈ path, b ≠ a → ¬ TwoRevisions index blocks b := by
    by_cases hsome : ∃ a ∈ path, TwoRevisions index blocks a
    · obtain ⟨a, ha, htwo⟩ := hsome
      exact ⟨a, ha, fun b hb hne htwo' => hfew ⟨b, hb, a, ha, hne, htwo', htwo⟩⟩
    · obtain ⟨a, ha⟩ := hclosed.exists_mem
      exact ⟨a, ha, fun b hb _ htwo => hsome ⟨b, hb, htwo⟩⟩
  obtain ⟨a, ha, hone⟩ := hone
  obtain ⟨r, around, hopens, rfl, hinside⟩ :=
    exists_opens_of_transGen hplain hclean hone (hclosed.transGen ha)
  exact hopens.notMem hinside

end Clean

end DocCompiler.Compile
