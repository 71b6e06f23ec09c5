import DocCompiler.Proofs.Snippet.Lookup
import Mathlib.Data.List.Induction
import Mathlib.Data.List.Nodup

/-! The head of a bundle that is made of versions. It is chosen as the last of the versions of the
greatest revision, and found again as the first one of that revision; the two are one version if no
revision is given twice. -/

namespace DocCompiler.Snippet

def IsGreatestRev (versions : List Version) (rev : UInt32) : Prop :=
  (∃ v ∈ versions, v.rev = rev) ∧ ∀ v ∈ versions, v.rev ≤ rev

/-- Without a revision, the id of the bundle leads to a version of the greatest revision, which has
the body and the frontmatter of the head. -/
def Bundle.LeadsToHead (b : Bundle) : Prop :=
  ∃ r, (Index.ofBundles [b]).resolve? b.snippet.id none = some r ∧ r.snippet = b.snippet ∧
    r.version ∈ b.versions ∧ IsGreatestRev b.versions r.version.rev ∧
    r.version.body = b.snippet.body ∧ r.version.frontmatter = b.snippet.frontmatter

variable {versions : List Version} {rev : UInt32} {v first last : Version}

section Latest

theorem isGreatestRev_singleton (v : Version) : IsGreatestRev [v] v.rev :=
  ⟨⟨v, .head _, rfl⟩, by simp⟩

theorem IsGreatestRev.concat_later (h : IsGreatestRev versions rev) (hle : rev ≤ v.rev) :
    IsGreatestRev (versions ++ [v]) v.rev := by
  refine ⟨⟨v, by simp, rfl⟩, List.forall_mem_append.2 ⟨fun w hw => ?_, by simp⟩⟩
  exact UInt32.le_trans (h.2 w hw) hle

theorem IsGreatestRev.concat_earlier (h : IsGreatestRev versions rev) (hlt : v.rev < rev) :
    IsGreatestRev (versions ++ [v]) rev := by
  obtain ⟨⟨w, hw, hrev⟩, hle⟩ := h
  refine ⟨⟨w, List.mem_append_left _ hw, hrev⟩, List.forall_mem_append.2 ⟨hle, ?_⟩⟩
  simpa using UInt32.le_of_lt hlt

theorem latest?_concat (versions : List Version) (v : Version) :
    Bundle.latest? (versions ++ [v]) = match Bundle.latest? versions with
      | some b => if b.rev ≤ v.rev then some v else some b
      | none => some v := List.foldl_concat ..

theorem exists_latest (hne : versions ≠ []) : ∃ last, Bundle.latest? versions = some last ∧
    IsGreatestRev versions last.rev ∧ IsFirst (·.rev = last.rev) versions.reverse last := by
  induction versions using List.reverseRecOn with
  | nil => exact absurd rfl hne
  | append_singleton versions v ih =>
    rw [latest?_concat, List.reverse_concat]
    rcases eq_or_ne versions [] with rfl | hbefore
    · exact ⟨v, rfl, isGreatestRev_singleton v, isFirst_cons_self (by rfl) _⟩
    · obtain ⟨last, hlast, hgreatest, hfirst⟩ := ih hbefore
      rw [hlast]
      dsimp only
      split
      case isTrue hle =>
        exact ⟨v, rfl, hgreatest.concat_later hle, isFirst_cons_self (by rfl) _⟩
      case isFalse hnot =>
        have hlt : v.rev < last.rev := UInt32.not_le.1 hnot
        exact ⟨last, rfl, hgreatest.concat_earlier hlt, hfirst.cons (UInt32.ne_of_lt hlt)⟩

end Latest

theorem ofVersions_eq (id : String) (h : Bundle.latest? versions = some last) :
    Bundle.ofVersions id versions =
      ⟨⟨id, id, none, last.rev, last.body, last.frontmatter, none⟩, versions⟩ := by
  rw [Bundle.ofVersions, h]
  rfl

section OwnId

variable {b : Bundle}

theorem byId_own (b : Bundle) : (Index.ofBundles [b]).byId[b.snippet.id]? = some b :=
  (Index.byId_eq _ _).trans (isFirst_iff_find?.1 (isFirst_cons_self (by rfl) []))

/-- Without a revision, the id of a bundle leads to the first version of the head's revision. -/
theorem resolve?_own_id (h : IsFirst (·.rev = b.snippet.headRev) b.versions first) :
    (Index.ofBundles [b]).resolve? b.snippet.id none = some ⟨b.snippet, first⟩ := by
  rw [Index.resolve?, byId_own]
  exact pick?_eq_some_iff.2 ⟨h, rfl⟩

theorem resolveById?_own_id (h : IsFirst (·.rev = b.snippet.headRev) b.versions first) :
    (Index.ofBundles [b]).resolveById? b.snippet.id none = some ⟨b.snippet, first⟩ := by
  rw [Index.resolveById?, byId_own]
  exact pick?_eq_some_iff.2 ⟨h, rfl⟩

theorem leadsToHead_iff (h : IsFirst (·.rev = b.snippet.headRev) b.versions first)
    (hgreatest : IsGreatestRev b.versions b.snippet.headRev) :
    b.LeadsToHead ↔ first.body = b.snippet.body ∧ first.frontmatter = b.snippet.frontmatter := by
  have hresolve := resolve?_own_id h
  constructor
  · rintro ⟨r, hr, -, -, -, hbody, hfrontmatter⟩
    obtain rfl := Option.some.inj (hresolve.symm.trans hr)
    exact ⟨hbody, hfrontmatter⟩
  · rintro ⟨hbody, hfrontmatter⟩
    refine ⟨_, hresolve, rfl, h.mem, ?_, hbody, hfrontmatter⟩
    rw [h.1]
    exact hgreatest

end OwnId

/-- **A bundle of versions leads to its head where its greatest revision is given once.** The id
alone leads to the first version of the greatest revision, while the head has the body and the
frontmatter of the last one; so the two agree if and only if those two versions do, and whenever no
revision is given twice. -/
theorem ofVersions_leads_to_head (id : String) (hne : versions ≠ []) :
    let b := Bundle.ofVersions id versions
    ∃ rev first last, IsGreatestRev versions rev ∧
      IsFirst (·.rev = rev) versions first ∧ IsFirst (·.rev = rev) versions.reverse last ∧
      (Index.ofBundles [b]).resolve? id none = some ⟨b.snippet, first⟩ ∧
      (Index.ofBundles [b]).resolveById? id none = some ⟨b.snippet, first⟩ ∧
      b.snippet.headRev = rev ∧ b.snippet.body = last.body ∧
      b.snippet.frontmatter = last.frontmatter ∧
      (b.LeadsToHead ↔ first.body = last.body ∧ first.frontmatter = last.frontmatter) ∧
      ((versions.map (·.rev)).Nodup → b.LeadsToHead) := by
  intro b
  obtain ⟨last, hlast, hgreatest, hisLast⟩ := exists_latest hne
  let head : Snippet := ⟨id, id, none, last.rev, last.body, last.frontmatter, none⟩
  have hb : b = ⟨head, versions⟩ := ofVersions_eq id hlast
  have hmem : last ∈ versions := List.mem_reverse.1 hisLast.mem
  obtain ⟨first, hfirst⟩ : ∃ first, versions.find? (·.rev == last.rev) = some first :=
    Option.isSome_iff_exists.1 (List.find?_isSome.2 ⟨last, hmem, beq_self_eq_true _⟩)
  have hisFirst : IsFirst (·.rev = last.rev) versions first := isFirst_iff_find?.2 hfirst
  have hhead := leadsToHead_iff (b := ⟨head, versions⟩) hisFirst hgreatest
  rw [hb]
  refine ⟨last.rev, first, last, hgreatest, hisFirst, hisLast, resolve?_own_id hisFirst,
    resolveById?_own_id hisFirst, rfl, rfl, rfl, hhead, fun hdistinct => hhead.2 ?_⟩
  obtain rfl : first = last := List.inj_on_of_nodup_map hdistinct hisFirst.mem hmem hisFirst.1
  exact ⟨rfl, rfl⟩

def shuffled : List Version :=
  [.sealed 2 (some 1) "second" ∅, .sealed 3 (some 1) "third" ∅, .sealed 1 none "first" ∅]

theorem ofVersions_leads_to_head_shuffled :
    shuffled ≠ [] ∧ (shuffled.map (·.rev)).Nodup ∧ (Bundle.ofVersions "s" shuffled).LeadsToHead := by
  have hne : shuffled ≠ [] := List.cons_ne_nil _ _
  have hdistinct : (shuffled.map (·.rev)).Nodup := by decide
  obtain ⟨-, -, -, -, -, -, -, -, -, -, -, -, hhead⟩ := ofVersions_leads_to_head "s" hne
  exact ⟨hne, hdistinct, hhead hdistinct⟩

def doubled : List Version := [.sealed 1 none "first" ∅, .sealed 1 none "second" ∅]

/-- The head is made of the second version, and its id leads to the first. -/
theorem ofVersions_misses_head : ¬ (Bundle.ofVersions "s" doubled).LeadsToHead := by
  have hfirst : IsFirst (·.rev = 1) doubled (.sealed 1 none "first" ∅) :=
    isFirst_cons_self (by rfl) _
  have hgreatest : IsGreatestRev doubled 1 :=
    (isGreatestRev_singleton (.sealed 1 none "first" ∅)).concat_later (UInt32.le_refl 1)
  intro h
  have hbodies := ((leadsToHead_iff hfirst hgreatest).1 h).1
  exact absurd hbodies (by decide)

end DocCompiler.Snippet
