import DocCompiler.Proofs.Preflight.Reach
import DocCompiler.Proofs.Snippet.Lookup

/-! From references to versions. A need names a snippet by its id, whatever the reference was
written as. Where ids are distinct, the id leads back to what the reference stands for; with
repeated ids a path may lead to a bundle that stands behind another one of its id. -/

namespace DocCompiler

theorem find?_key_eq_some {α κ : Type} [BEq κ] [LawfulBEq κ] {key : α → κ} {l : List α} {a : α}
    (hkeys : (l.map key).Nodup) (ha : a ∈ l) : l.find? (key · == key a) = some a := by
  induction l with
  | nil => cases ha
  | cons b rest ih =>
    rw [List.map_cons, List.nodup_cons] at hkeys
    rcases List.mem_cons.1 ha with rfl | ha
    · rw [List.find?_cons_of_pos (by simp)]
    · have hne : key b ≠ key a := fun heq => hkeys.1 (heq ▸ List.mem_map_of_mem ha)
      rw [List.find?_cons_of_neg (by simpa using hne)]
      exact ih hkeys.2 ha

namespace Snippet.Index

variable {index : Index} {id : String} {revision revision' : Option UInt32} {r r' : Resolved}

theorem resolve?_of_id {b : Bundle} {reference : String}
    (h : index.bundles.find? (·.snippet.id == reference) = some b) :
    index.resolve? reference revision = b.pick? revision := by
  rw [resolve?_eq, bundle?, h, Option.some_or, Option.bind_some]

theorem resolve?_of_path {b : Bundle} {reference : String}
    (hid : index.bundles.find? (·.snippet.id == reference) = none)
    (hpath : index.bundles.find? (pathKey ·.snippet.path == pathKey reference) = some b) :
    index.resolve? reference revision = b.pick? revision := by
  rw [resolve?_eq, bundle?, hid, hpath, Option.none_or, Option.bind_some]

/-- A snippet found by its path is found by its id too, and at the same revision. -/
theorem resolveById?_of_resolve? (hids : (index.bundles.map (·.snippet.id)).Nodup)
    {reference : String} (h : index.resolve? reference revision = some r) :
    index.resolveById? r.snippet.id revision = some r := by
  rw [resolve?_eq] at h
  obtain ⟨b, hb, hpick⟩ := Option.bind_eq_some_iff.1 h
  rw [Index.resolveById?, (Transclusion.version_mem_of_pick? hpick).1, index.byId_eq,
    find?_key_eq_some hids (mem_of_bundle? hb)]
  exact hpick

theorem id_of_resolveById? (h : index.resolveById? id revision = some r) : r.snippet.id = id := by
  obtain ⟨b, hb, hpick⟩ := Option.bind_eq_some_iff.1 h
  rw [index.byId_eq] at hb
  rw [(Transclusion.version_mem_of_pick? hpick).1]
  simpa using List.find?_some hb

theorem eq_of_resolveById? (h : index.resolveById? id revision = some r)
    (h' : index.resolveById? id revision' = some r') (hrev : r.version.rev = r'.version.rev) :
    r = r' := by
  obtain ⟨b, hb, hpick⟩ := Option.bind_eq_some_iff.1 h
  obtain ⟨b', hb', hpick'⟩ := Option.bind_eq_some_iff.1 h'
  obtain rfl : b = b' := Option.some.inj (hb.symm.trans hb')
  obtain ⟨v, hv, rfl⟩ := Option.map_eq_some_iff.1 hpick
  obtain ⟨v', hv', rfl⟩ := Option.map_eq_some_iff.1 hpick'
  have hnumber : v.rev = revision.getD b.snippet.headRev := by simpa using List.find?_some hv
  have hnumber' : v'.rev = revision'.getD b.snippet.headRev := by simpa using List.find?_some hv'
  rw [← hnumber, show v.rev = v'.rev from hrev, hnumber'] at hv
  rw [Option.some.inj (hv.symm.trans hv')]

end Snippet.Index

namespace Preflight

open Snippet (Index Resolved)

variable {index : Index} {blocks : List Block}

theorem Mention.need?_eq_some {m : Mention} {n : Need} :
    m.need? index = some n ↔
      ∃ r, m.target? index = some r ∧ n = (r.snippet.id, m.request?.join) := by
  rw [Mention.need?, Option.map_eq_some_iff]
  simp only [eq_comm (b := n)]

/-- What the document refers to is found again by its id: no reference leads to a bundle that
stands behind another one of its id. -/
def Unshadowed (index : Index) (blocks : List Block) : Prop :=
  ∀ m, Mentioned index blocks m → ∀ r, m.target? index = some r →
    index.resolveById? r.snippet.id m.request?.join = some r

theorem unshadowed_of_nodup (hids : (index.bundles.map (·.snippet.id)).Nodup) :
    Unshadowed index blocks := by
  intro m _ r hr
  obtain ⟨revision, hrevision, hr⟩ := Option.bind_eq_some_iff.1 hr
  rw [hrevision, Option.join_some]
  exact Index.resolveById?_of_resolve? hids hr

def ReachedVersion (index : Index) (blocks : List Block) (r : Resolved) : Prop :=
  ∃ n, Reached index blocks n ∧ index.resolveById? n.1 n.2 = some r

def TwoRevisions (index : Index) (blocks : List Block) (id : String) : Prop :=
  ∃ r r', ReachedVersion index blocks r ∧ ReachedVersion index blocks r' ∧
    r.snippet.id = id ∧ r'.snippet.id = id ∧ r.version.rev ≠ r'.version.rev

theorem ReachedVersion.eq_or_twoRevisions {r r' : Resolved} (h : ReachedVersion index blocks r)
    (h' : ReachedVersion index blocks r') (hid : r.snippet.id = r'.snippet.id) :
    r = r' ∨ TwoRevisions index blocks r'.snippet.id := by
  by_cases hrev : r.version.rev = r'.version.rev
  · obtain ⟨⟨id, revision⟩, -, hr⟩ := h
    obtain ⟨⟨id', revision'⟩, -, hr'⟩ := h'
    obtain rfl : id = id' :=
      (Index.id_of_resolveById? hr).symm.trans (hid.trans (Index.id_of_resolveById? hr'))
    exact .inl (Index.eq_of_resolveById? hr hr' hrev)
  · exact .inr ⟨r, r', h, h', hid, rfl, hrev⟩

theorem contains_iff {a b : String} :
    Contains index blocks a b ↔ ∃ r m r', ReachedVersion index blocks r ∧
      m ∈ Mention.all r.body ∧ m.target? index = some r' ∧ r.snippet.id = a ∧
      r'.snippet.id = b := by
  constructor
  · rintro ⟨n, r, m, n', hn, hr, hm, hneed, rfl, rfl⟩
    obtain ⟨r', hr', rfl⟩ := Mention.need?_eq_some.1 hneed
    exact ⟨r, m, r', ⟨n, hn, hr⟩, hm, hr', Index.id_of_resolveById? hr, rfl⟩
  · rintro ⟨r, m, r', ⟨n, hn, hr⟩, hm, hr', rfl, rfl⟩
    exact ⟨n, r, m, _, hn, hr, hm, Mention.need?_eq_some.2 ⟨r', hr', rfl⟩,
      (Index.id_of_resolveById? hr).symm, rfl⟩

section Blocks

variable {blocks' : List Block} (hsub : blocks ⊆ blocks')
include hsub

theorem Unshadowed.anti (h : Unshadowed index blocks') : Unshadowed index blocks :=
  fun m hm => h m (hm.mono hsub)

theorem ReachedVersion.mono {r : Resolved} (h : ReachedVersion index blocks r) :
    ReachedVersion index blocks' r := by
  obtain ⟨n, hn, hr⟩ := h
  exact ⟨n, hn.mono hsub, hr⟩

theorem TwoRevisions.mono {id : String} (h : TwoRevisions index blocks id) :
    TwoRevisions index blocks' id := by
  obtain ⟨r, r', hr, hr', h⟩ := h
  exact ⟨r, r', hr.mono hsub, hr'.mono hsub, h⟩

end Blocks

theorem Unshadowed.reachedVersion (h : Unshadowed index blocks) {m : Mention} {r : Resolved}
    (hm : Mentioned index blocks m) (hr : m.target? index = some r) :
    ReachedVersion index blocks r :=
  ⟨_, hm.reached (Mention.need?_eq_some.2 ⟨r, hr, rfl⟩), h m hm r hr⟩

theorem ReachedVersion.mentioned {r : Resolved} (h : ReachedVersion index blocks r) {m : Mention}
    (hm : m ∈ Mention.all r.body) : Mentioned index blocks m := by
  obtain ⟨n, hn, hr⟩ := h
  exact .ofBody hn hr hm

def LeadsTo (index : Index) (m : Mention) (id body : String) : Prop :=
  ∃ r, m.target? index = some r ∧ r.snippet.id = id ∧ r.body = body

section LeadsTo

variable {m m' : Mention} {id id' body body' : String}

theorem LeadsTo.eq {r : Resolved} (h : LeadsTo index m id body) (hr : m.target? index = some r) :
    r.snippet.id = id ∧ r.body = body := by
  obtain ⟨r', hr', h⟩ := h
  obtain rfl : r = r' := Option.some.inj (hr.symm.trans hr')
  exact h

theorem LeadsTo.ne_none (h : LeadsTo index m id body) : m.target? index ≠ none := by
  obtain ⟨r, hr, -⟩ := h
  simp [hr]

theorem LeadsTo.mentioned (h : LeadsTo index m id body) (hplain : Unshadowed index blocks)
    (hm : Mentioned index blocks m) (hm' : m' ∈ Mention.all body) : Mentioned index blocks m' := by
  obtain ⟨r, hr, -, rfl⟩ := h
  exact (hplain.reachedVersion hm hr).mentioned hm'

theorem LeadsTo.contains (h : LeadsTo index m id body) (hplain : Unshadowed index blocks)
    (hm : Mentioned index blocks m) (hm' : m' ∈ Mention.all body)
    (h' : LeadsTo index m' id' body') : Contains index blocks id id' := by
  obtain ⟨r, hr, rfl, rfl⟩ := h
  obtain ⟨r', hr', rfl, -⟩ := h'
  exact contains_iff.2 ⟨r, m', r', hplain.reachedVersion hm hr, hm', hr', rfl, rfl⟩

end LeadsTo

end Preflight
end DocCompiler
