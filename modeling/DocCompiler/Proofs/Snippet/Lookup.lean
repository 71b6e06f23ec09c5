import DocCompiler.Snippet.Index

/-! What a reference stands for, as a search through the bundles that keeps no tables: the first
bundle of that id, else the first one of that path, and in it the first version of the revision. The
two tables of the index are filled by different keys, so a bundle that is hidden behind another one
of its id may still be found by its path; the search says which of them it is. -/

namespace DocCompiler.Snippet

/-- The first member of a list of which `p` holds. -/
def IsFirst {α : Type} (p : α → Prop) (l : List α) (a : α) : Prop :=
  p a ∧ ∃ before after, l = before ++ a :: after ∧ ∀ b ∈ before, ¬ p b

section First

variable {α : Type} {p : α → Prop} {l : List α} {a b : α}

theorem IsFirst.mem (h : IsFirst p l a) : a ∈ l := by
  obtain ⟨-, before, after, rfl, -⟩ := h
  simp

theorem isFirst_cons_self (ha : p a) (l : List α) : IsFirst p (a :: l) a :=
  ⟨ha, [], l, rfl, nofun⟩

theorem IsFirst.cons (h : IsFirst p l a) (hb : ¬ p b) : IsFirst p (b :: l) a := by
  obtain ⟨ha, before, after, rfl, hbefore⟩ := h
  exact ⟨ha, b :: before, after, rfl, List.forall_mem_cons.2 ⟨hb, hbefore⟩⟩

end First

theorem isFirst_iff_find? {α κ : Type} [BEq κ] [LawfulBEq κ] {key : α → κ} {k : κ} {l : List α}
    {a : α} : IsFirst (key · = k) l a ↔ l.find? (key · == k) = some a := by
  rw [List.find?_eq_some_iff_append]
  simp [IsFirst]

/-- What a reference stands for among bundles: the first one of that id or, where no bundle has the
id, the first one of that path. -/
inductive StandsFor (bundles : List Bundle) (reference : String) : Bundle → Prop where
  | ofId {b : Bundle} (h : IsFirst (·.snippet.id = reference) bundles b) :
      StandsFor bundles reference b
  | ofPath {b : Bundle} (hid : ∀ b ∈ bundles, b.snippet.id ≠ reference)
      (h : IsFirst (pathKey ·.snippet.path = pathKey reference) bundles b) :
      StandsFor bundles reference b

def bundle? (bundles : List Bundle) (reference : String) : Option Bundle :=
  (bundles.find? (·.snippet.id == reference)).or
    (bundles.find? (pathKey ·.snippet.path == pathKey reference))

/-- The search for what a reference means at a revision, or at the head when none is given. -/
def search? (bundles : List Bundle) (reference : String) (revision : Option UInt32) :
    Option Resolved := do
  let bundle ← bundle? bundles reference
  let version ← bundle.versions.find? (·.rev == revision.getD bundle.snippet.headRev)
  return ⟨bundle.snippet, version⟩

-- the id goes first, even where a bundle of that path stands before
example :
    let byPath := Bundle.single "other" "by path"
    let byId := Bundle.single "alpha" "by id"
    (bundle? [{ byPath with snippet.path := "./alpha" }, byId] "alpha").map (·.snippet.id) =
      some "alpha" := by rfl

variable {bundles : List Bundle} {reference : String} {revision : Option UInt32} {b : Bundle}

theorem find?_id_eq_none_iff :
    bundles.find? (·.snippet.id == reference) = none ↔
      ∀ b ∈ bundles, b.snippet.id ≠ reference := by
  simp

theorem bundle?_of_isFirst (h : IsFirst (·.snippet.id = reference) bundles b) :
    bundle? bundles reference = some b := by
  rw [bundle?, isFirst_iff_find?.1 h, Option.some_or]

theorem bundle?_of_no_id (hid : ∀ b ∈ bundles, b.snippet.id ≠ reference) :
    bundle? bundles reference =
      bundles.find? (pathKey ·.snippet.path == pathKey reference) := by
  rw [bundle?, find?_id_eq_none_iff.2 hid, Option.none_or]

theorem bundle?_eq_some_iff : bundle? bundles reference = some b ↔ StandsFor bundles reference b := by
  constructor
  · intro h
    cases hid : bundles.find? (·.snippet.id == reference) with
    | some b' =>
      rw [bundle?, hid, Option.some_or] at h
      obtain rfl := Option.some.inj h
      exact .ofId (isFirst_iff_find?.2 hid)
    | none =>
      have hnone := find?_id_eq_none_iff.1 hid
      rw [bundle?_of_no_id hnone] at h
      exact .ofPath hnone (isFirst_iff_find?.2 h)
  · rintro (h | ⟨hid, h⟩)
    · exact bundle?_of_isFirst h
    · rw [bundle?_of_no_id hid]
      exact isFirst_iff_find?.1 h

theorem mem_of_bundle? (h : bundle? bundles reference = some b) : b ∈ bundles := by
  rcases Option.or_eq_some_iff.1 h with hid | ⟨-, hpath⟩
  · exact List.mem_of_find?_eq_some hid
  · exact List.mem_of_find?_eq_some hpath

theorem bundle?_append_of_id (more : List Bundle) (h : ∃ b ∈ bundles, b.snippet.id = reference) :
    bundle? (bundles ++ more) reference = bundle? bundles reference := by
  have hid : ∃ b, bundles.find? (·.snippet.id == reference) = some b := by
    refine Option.ne_none_iff_exists'.1 fun hnone => ?_
    obtain ⟨b, hb, heq⟩ := h
    exact find?_id_eq_none_iff.1 hnone b hb heq
  obtain ⟨b, hb⟩ := hid
  rw [bundle?, bundle?, List.find?_append, hb, Option.some_or, Option.some_or, Option.some_or]

theorem search?_eq_bind : search? bundles reference revision =
    (bundle? bundles reference).bind (·.pick? revision) :=
  Option.bind_congr fun _ _ => Option.map_eq_bind.symm

theorem pick?_eq_some_iff {r : Resolved} : b.pick? revision = some r ↔
    IsFirst (·.rev = revision.getD b.snippet.headRev) b.versions r.version ∧
      r.snippet = b.snippet := by
  rw [Bundle.pick?, Option.map_eq_some_iff, isFirst_iff_find?]
  constructor
  · rintro ⟨v, hv, rfl⟩
    exact ⟨hv, rfl⟩
  · rintro ⟨hv, hsnippet⟩
    exact ⟨r.version, hv, by rw [← hsnippet]⟩

theorem pick?_eq_none_iff : b.pick? revision = none ↔
    ∀ v ∈ b.versions, v.rev ≠ revision.getD b.snippet.headRev := by
  simp [Bundle.pick?, Bundle.version?]

theorem search?_eq_some_iff {r : Resolved} : search? bundles reference revision = some r ↔
    ∃ b, StandsFor bundles reference b ∧
      IsFirst (·.rev = revision.getD b.snippet.headRev) b.versions r.version ∧
      r.snippet = b.snippet := by
  rw [search?_eq_bind, Option.bind_eq_some_iff]
  simp only [bundle?_eq_some_iff, pick?_eq_some_iff]

/-- The tables of an index give what a look through its bundles gives. -/
theorem Index.resolve?_eq (index : Index) (reference : String) (revision : Option UInt32) :
    index.resolve? reference revision =
      (bundle? index.bundles reference).bind (·.pick? revision) := by
  unfold resolve? resolveByPath? bundle?
  rw [index.byId_eq, index.byPath_eq]
  cases index.bundles.find? (·.snippet.id == reference) <;> rfl

/-- **The index is the search.** For all bundles, whatever ids, paths and revisions are repeated, the
index of them gives for a reference what the search gives: the version of the first bundle of that
id or, if there is none, of the first bundle of that path, the first one of the revision asked for,
and nothing else. A bundle of that id that lacks the revision is not passed over for one of that
path, and bundles behind one of that id do not matter. -/
theorem Index.resolve?_eq_search? (bundles : List Bundle) (reference : String)
    (revision : Option UInt32) :
    let index := Index.ofBundles bundles
    index.resolve? reference revision = search? bundles reference revision ∧
    (∀ r, index.resolve? reference revision = some r ↔
      ∃ b, StandsFor bundles reference b ∧
        IsFirst (·.rev = revision.getD b.snippet.headRev) b.versions r.version ∧
        r.snippet = b.snippet) ∧
    (∀ b, IsFirst (·.snippet.id = reference) bundles b →
      (index.resolve? reference revision = none ↔
        ∀ v ∈ b.versions, v.rev ≠ revision.getD b.snippet.headRev)) ∧
    ∀ more, (∃ b ∈ bundles, b.snippet.id = reference) →
      (Index.ofBundles (bundles ++ more)).resolve? reference revision =
        index.resolve? reference revision := by
  intro index
  have hsearch : index.resolve? reference revision = search? bundles reference revision := by
    rw [resolve?_eq, search?_eq_bind]
    rfl
  refine ⟨hsearch, fun r => ?_, fun b hb => ?_, fun more h => ?_⟩
  · rw [hsearch, search?_eq_some_iff]
  · rw [hsearch, search?_eq_bind, bundle?_of_isFirst hb, Option.bind_some, pick?_eq_none_iff]
  · have hbundle : bundle? (Index.ofBundles (bundles ++ more)).bundles reference =
        bundle? bundles reference := bundle?_append_of_id more h
    rw [resolve?_eq, resolve?_eq, hbundle]
    rfl

end DocCompiler.Snippet
