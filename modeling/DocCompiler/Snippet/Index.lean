import DocCompiler.Snippet
import DocCompiler.Snippet.PathKey
import Std.Data.HashMap

/-! Finding snippets by id and by path. Of two bundles with one id, or with one path key, the
first is found. An id goes before a path: where a bundle of that id exists, paths are not
looked at, even if it lacks the revision. -/

namespace DocCompiler.Snippet

/-- Bundles with tables of the first one for each key. -/
structure Index where
  bundles : List Bundle
  byId : Std.HashMap String Bundle
  byPath : Std.HashMap String Bundle
  byId_eq : ∀ id, byId[id]? = bundles.find? (·.snippet.id == id)
  byPath_eq : ∀ key, byPath[key]? = bundles.find? (pathKey ·.snippet.path == key)

namespace Index

def table (key : Bundle → String) (bundles : List Bundle) : Std.HashMap String Bundle :=
  bundles.foldl (fun m b => m.insertIfNew (key b) b) ∅

theorem getElem?_foldl_insertIfNew (key : Bundle → String) (bundles : List Bundle)
    (m : Std.HashMap String Bundle) (k : String) :
    (bundles.foldl (fun m b => m.insertIfNew (key b) b) m)[k]? =
      (m[k]?).or (bundles.find? (key · == k)) := by
  induction bundles generalizing m with
  | nil => simp
  | cons b rest ih =>
    rw [List.foldl_cons, ih, Std.HashMap.getElem?_insertIfNew, List.find?_cons]
    by_cases hk : key b = k
    · subst hk
      by_cases hm : key b ∈ m
      · rw [Std.HashMap.getElem?_eq_some_getElem hm]; simp [hm]
      · simp [hm]
    · have hk' : (key b == k) = false := beq_eq_false_iff_ne.2 hk
      simp [hk']

theorem getElem?_table (key : Bundle → String) (bundles : List Bundle) (k : String) :
    (table key bundles)[k]? = bundles.find? (key · == k) := by
  simp [table, getElem?_foldl_insertIfNew]

def ofBundles (bundles : List Bundle) : Index where
  bundles := bundles
  byId := table (·.snippet.id) bundles
  byPath := table (pathKey ·.snippet.path) bundles
  byId_eq := getElem?_table _ bundles
  byPath_eq := getElem?_table _ bundles

def size (index : Index) : Nat := index.byId.size

def resolveById? (index : Index) (id : String) (revision : Option UInt32) : Option Resolved :=
  index.byId[id]?.bind (·.pick? revision)

def resolveByPath? (index : Index) (path : String) (revision : Option UInt32) : Option Resolved :=
  index.byPath[pathKey path]?.bind (·.pick? revision)

/-- What a reference means: an id if there is such a bundle, else a path. -/
def resolve? (index : Index) (reference : String) (revision : Option UInt32) : Option Resolved :=
  match index.byId[reference]? with
  | some bundle => bundle.pick? revision
  | none => index.resolveByPath? reference revision

end Index
end DocCompiler.Snippet
