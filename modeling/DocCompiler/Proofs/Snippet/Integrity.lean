import DocCompiler.Snippet.Integrity
import Mathlib.Logic.Basic

/-! Intact bundles. The checks of a bundle stop at the first fault, but which revisions they pass
does not depend on the order of the revisions, and parents lead back to a revision that has none. -/

namespace DocCompiler.Snippet.Bundle

/-- Revisions that belong together: each number is given once, every hash seals what it is stored
with, parents are earlier revisions, and the head is one of the revisions. -/
structure Intact (b : Bundle) : Prop where
  distinct : (b.versions.map (·.rev)).Nodup
  hashes : ∀ v ∈ b.versions, v.hash = sealHash v.body v.frontmatter
  parents : ∀ v ∈ b.versions, ∀ parent, v.parentRev = some parent →
    parent < v.rev ∧ ∃ w ∈ b.versions, w.rev = parent
  head : ∃ v ∈ b.versions, v.rev = b.snippet.headRev

theorem checkVersions_eq_ok_iff (id : String) (seen : List UInt32) (versions : List Version) :
    checkVersions id seen versions = .ok () ↔
      (versions.map (·.rev)).Nodup ∧ (∀ v ∈ versions, v.rev ∉ seen) ∧
        ∀ v ∈ versions, v.hash = sealHash v.body v.frontmatter := by
  induction versions generalizing seen with
  | nil => simp [checkVersions]
  | cons v rest ih =>
    rw [checkVersions]
    split
    case isTrue hseen => simp [hseen]
    case isFalse hnew =>
      split
      case isTrue hhash =>
        have hne : v.hash ≠ sealHash v.body v.frontmatter := Ne.symm hhash
        simp [hne]
      case isFalse hhash =>
        have heq : v.hash = sealHash v.body v.frontmatter := (Decidable.not_not.1 hhash).symm
        rw [ih, List.map_cons, List.nodup_cons, List.forall_mem_cons, List.forall_mem_cons,
          and_iff_right hnew, and_iff_right heq]
        simp only [List.mem_cons, List.mem_map, not_or]
        -- that the others are not `v` is told of the others here and of `v` there
        constructor
        · rintro ⟨hnodup, hothers, hhashes⟩
          refine ⟨⟨?_, hnodup⟩, fun w hw => (hothers w hw).2, hhashes⟩
          rintro ⟨w, hw, hrev⟩
          exact (hothers w hw).1 hrev
        · rintro ⟨⟨hnot, hnodup⟩, hothers, hhashes⟩
          exact ⟨hnodup, fun w hw => ⟨fun hrev => hnot ⟨w, hw, hrev⟩, hothers w hw⟩, hhashes⟩

theorem checkLineage_eq_ok_iff (id : String) (revs : List UInt32) (versions : List Version) :
    checkLineage id revs versions = .ok () ↔
      ∀ v ∈ versions, ∀ parent, v.parentRev = some parent → parent < v.rev ∧ parent ∈ revs := by
  induction versions with
  | nil => simp [checkLineage]
  | cons v rest ih =>
    rw [checkLineage, List.forall_mem_cons]
    cases hparent : v.parentRev with
    | none => simp [ih]
    | some parent =>
      simp only [Option.some.injEq, forall_eq']
      by_cases hearlier : parent < v.rev ∧ parent ∈ revs
      · have hok : ¬(v.rev ≤ parent ∨ parent ∉ revs) := by
          rw [not_or, UInt32.not_le, not_not]
          exact hearlier
        rw [if_neg hok, ih, and_iff_right hearlier]
      · have hbroken : v.rev ≤ parent ∨ parent ∉ revs := by
          rw [not_and_or, UInt32.not_lt] at hearlier
          exact hearlier
        simp [if_pos hbroken, hearlier]

theorem verify_eq_ok (b : Bundle) : b.verify = .ok () ↔ b.Intact := by
  have hsteps : b.verify = .ok () ↔ checkVersions b.snippet.id [] b.versions = .ok () ∧
      checkLineage b.snippet.id (b.versions.map (·.rev)) b.versions = .ok () ∧
        b.snippet.headRev ∈ b.versions.map (·.rev) := by
    simp only [verify, bind, Except.bind]
    cases checkVersions b.snippet.id [] b.versions with
    | error f => simp
    | ok =>
      cases checkLineage b.snippet.id (b.versions.map (·.rev)) b.versions with
      | error f => simp
      | ok => by_cases hhead : b.snippet.headRev ∈ b.versions.map (·.rev) <;> simp [hhead]
  rw [hsteps, checkVersions_eq_ok_iff, checkLineage_eq_ok_iff]
  simp only [List.not_mem_nil, not_false_eq_true, implies_true, true_and, List.mem_map]
  exact ⟨fun ⟨⟨hdistinct, hhashes⟩, hparents, hhead⟩ => ⟨hdistinct, hhashes, hparents, hhead⟩,
    fun h => ⟨⟨h.distinct, h.hashes⟩, h.parents, h.head⟩⟩

theorem Intact.perm {b : Bundle} (h : b.Intact) {versions : List Version}
    (hperm : versions.Perm b.versions) : { b with versions := versions }.Intact where
  distinct := (hperm.map _).nodup_iff.2 h.distinct
  hashes v hv := h.hashes v (hperm.mem_iff.1 hv)
  parents v hv parent hparent := by
    obtain ⟨hlt, w, hw, hrev⟩ := h.parents v (hperm.mem_iff.1 hv) parent hparent
    exact ⟨hlt, w, hperm.mem_iff.2 hw, hrev⟩
  head := by
    obtain ⟨v, hv, hrev⟩ := h.head
    exact ⟨v, hperm.mem_iff.2 hv, hrev⟩

def parent? (b : Bundle) (v : Version) : Option Version := v.parentRev.bind b.version?

/-- The revision that so many steps from parent to parent lead to. -/
def ancestor? (b : Bundle) : Nat → Version → Option Version
  | 0, v => some v
  | n + 1, v => (b.parent? v).bind (b.ancestor? n)

theorem Intact.exists_parent {b : Bundle} (h : b.Intact) {v : Version} (hv : v ∈ b.versions)
    {parent : UInt32} (hparent : v.parentRev = some parent) :
    ∃ w ∈ b.versions, b.parent? v = some w ∧ w.rev < v.rev := by
  obtain ⟨hlt, w, hw, hrev⟩ := h.parents v hv parent hparent
  cases hfound : b.version? parent with
  | none =>
    have hnone := List.find?_eq_none.1 hfound w hw
    simp [hrev] at hnone
  | some u =>
    refine ⟨u, List.mem_of_find?_eq_some hfound, ?_, ?_⟩
    · rw [parent?, hparent, Option.bind_some, hfound]
    · have hu : u.rev = parent := beq_iff_eq.1 (List.find?_some hfound :)
      rw [hu]
      exact hlt

theorem Intact.exists_root {b : Bundle} (h : b.Intact) {v : Version} (hv : v ∈ b.versions) :
    ∃ n, ∃ root ∈ b.versions, b.ancestor? n v = some root ∧ root.parentRev = none := by
  induction hrev : v.rev.toNat using Nat.strongRecOn generalizing v with
  | ind rev ih =>
    cases hparent : v.parentRev with
    | none => exact ⟨0, v, hv, rfl, hparent⟩
    | some parent =>
      obtain ⟨w, hw, hstep, hlt⟩ := h.exists_parent hv hparent
      obtain ⟨n, root, hroot, hreach, hnone⟩ :=
        ih w.rev.toNat (hrev ▸ UInt32.lt_iff_toNat_lt.1 hlt) hw rfl
      refine ⟨n + 1, root, hroot, ?_, hnone⟩
      rw [ancestor?, hstep, Option.bind_some, hreach]

/-- **What is verified.** A bundle passes exactly if it is intact, so the order of its revisions
makes no difference to that; and every revision of a bundle that passes has a first ancestor, all
within the bundle. -/
theorem verify_iff_intact (b : Bundle) :
    (b.verify = .ok () ↔ b.Intact) ∧
    (∀ versions, versions.Perm b.versions →
      ({ b with versions := versions }.verify = .ok () ↔ b.verify = .ok ())) ∧
    (b.verify = .ok () → ∀ v ∈ b.versions,
      ∃ n, ∃ root ∈ b.versions, b.ancestor? n v = some root ∧ root.parentRev = none) := by
  refine ⟨b.verify_eq_ok, fun versions hperm => ?_, fun hok v hv => ?_⟩
  · rw [verify_eq_ok, verify_eq_ok]
    exact ⟨fun h => h.perm hperm.symm, fun h => h.perm hperm⟩
  · exact (b.verify_eq_ok.1 hok).exists_root hv

/-- Three revisions, the latest of which stands first and is not the head. -/
def childFirst : Bundle :=
  ⟨⟨"a", "a", none, 4, "", ∅, none⟩,
    [.sealed 7 (some 4) "seven" ∅, .sealed 2 none "two" ∅, .sealed 4 (some 2) "four" ∅]⟩

theorem verify_iff_intact_childFirst :
    childFirst.verify = .ok () ∧
      { childFirst with versions := childFirst.versions.reverse }.verify = .ok () ∧
      ∃ n, ∃ root ∈ childFirst.versions,
        childFirst.ancestor? n (.sealed 7 (some 4) "seven" ∅) = some root ∧
          root.parentRev = none := by
  obtain ⟨hiff, hperm, hroot⟩ := verify_iff_intact childFirst
  have hintact : childFirst.Intact := {
    distinct := by decide
    hashes := by simp [childFirst, Version.sealed]
    parents := by simp [childFirst, Version.sealed]
    head := by simp [childFirst, Version.sealed] }
  have hok := hiff.2 hintact
  exact ⟨hok, (hperm _ (List.reverse_perm _)).2 hok, hroot hok _ (.head _)⟩

end DocCompiler.Snippet.Bundle
