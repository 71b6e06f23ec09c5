import DocCompiler.Proofs.Text.Layout
import DocCompiler.Snippet.PathKey

/-! What does not matter in a path. Blanks around it never do. A leading slash or `./` is taken off
once and in a fixed order: a slash in front of `./`, or either of them in front of a blank, leaves what
would have been taken off alone, and then the key is another one, which is not its own key. -/

namespace DocCompiler.Snippet

open Text

/-- Begins neither with a blank nor with `./`. -/
def Bare (cs : List Char) : Prop := (∀ c ∈ cs.head?, isBlank c = false) ∧ ¬ ['.', '/'] <+: cs

theorem Bare.cons {c : Char} {cs : List Char} (hc : isBlank c = false)
    (hhere : ¬ ['.', '/'] <+: c :: cs) : Bare (c :: cs) :=
  ⟨fun _ hd => Option.some.inj hd ▸ hc, hhere⟩

section Key

variable {cs : List Char} {path : String}

theorem toList_pathKey (path : String) :
    (pathKey path).toList = (dropHere (trim path.toList)).dropWhile (· == '/') :=
  String.toList_ofList

theorem dropHere_suffix (cs : List Char) : dropHere cs <:+ cs := by
  unfold dropHere
  split
  · exact ⟨['.', '/'], rfl⟩
  · exact List.suffix_refl _

theorem dropHere_of_not_prefix (h : ¬ ['.', '/'] <+: cs) : dropHere cs = cs := by
  unfold dropHere
  split
  · exact absurd ⟨_, rfl⟩ h
  · rfl

theorem bare_of_dropWhile_eq (h : cs.dropWhile (· == '/') =
    (dropHere (trimStart cs)).dropWhile (· == '/')) : Bare cs := by
  have hoff : (dropHere (trimStart cs)).dropWhile (· == '/') <:+ dropHere (trimStart cs) :=
    List.dropWhile_suffix _
  rw [← h] at hoff
  refine ⟨fun c hc => ?_, fun hhere => ?_⟩
  · obtain ⟨rest, rfl⟩ := List.head?_eq_some_iff.1 hc
    refine Bool.eq_false_iff.2 fun hblank => ?_
    have hslash : (c == '/') = false := by
      refine beq_eq_false_iff_ne.2 fun heq => ?_
      subst heq
      exact absurd hblank (by decide)
    rw [List.dropWhile_cons_of_neg (by simp [hslash]), trimStart_cons_of_blank hblank] at hoff
    have hrest : c :: rest <:+ rest :=
      hoff.trans ((dropHere_suffix _).trans (List.dropWhile_suffix _))
    exact absurd hrest.length_le (Nat.not_succ_le_self _)
  · obtain ⟨rest, rfl⟩ := hhere
    have hrest : '.' :: '/' :: rest <:+ rest := hoff
    have hlength := hrest.length_le
    rw [List.length_cons, List.length_cons] at hlength
    omega

theorem dropWhile_eq_iff_bare : cs.dropWhile (· == '/') =
    (dropHere (trimStart cs)).dropWhile (· == '/') ↔ Bare cs := by
  refine ⟨bare_of_dropWhile_eq, fun ⟨hblank, hhere⟩ => ?_⟩
  cases cs with
  | nil => rfl
  | cons c cs => rw [trimStart_cons (hblank c rfl), dropHere_of_not_prefix hhere]

theorem here_prefix_trimEnd_iff : ['.', '/'] <+: trimEnd cs ↔ ['.', '/'] <+: cs := by
  constructor
  · exact fun h => h.trans (List.rdropWhile_prefix isBlank cs)
  · rintro ⟨rest, rfl⟩
    have hrest : trimEnd (['.', '/'] ++ rest) = '.' :: '/' :: trimEnd rest := by
      rw [List.cons_append, List.cons_append, trimEnd_cons rfl, trimEnd_cons rfl]
      rfl
    exact ⟨trimEnd rest, hrest.symm⟩

theorem bare_trimEnd_iff : Bare (trimEnd cs) ↔ (∀ c ∈ cs, isBlank c = true) ∨ Bare cs := by
  rcases eq_or_ne (trimEnd cs) [] with hnil | hne
  · rw [hnil]
    exact iff_of_true ⟨nofun, by simp⟩ (.inl (trimEnd_eq_nil_iff.1 hnil))
  · have hhead : (trimEnd cs).head? = cs.head? := by
      obtain ⟨blanks, hblanks⟩ := List.rdropWhile_prefix isBlank cs
      conv_rhs => rw [← hblanks]
      exact (List.head?_append_of_ne_nil _ hne).symm
    rw [or_iff_right (mt trimEnd_eq_nil_iff.2 hne), Bare, Bare, hhead, here_prefix_trimEnd_iff]

/-- In front of a slash or of `./`, only what stands behind the path is taken off. -/
theorem toList_pathKey_slash (path : String) :
    (pathKey ("/" ++ path)).toList = (trimEnd path.toList).dropWhile (· == '/') := by
  have hlist : ("/" ++ path).toList = '/' :: path.toList := by simp
  rw [toList_pathKey, hlist, trim, trimStart_cons rfl, trimEnd_cons rfl]
  rfl

theorem toList_pathKey_here (path : String) :
    (pathKey ("./" ++ path)).toList = (trimEnd path.toList).dropWhile (· == '/') := by
  have hlist : ("./" ++ path).toList = '.' :: '/' :: path.toList := by simp
  rw [toList_pathKey, hlist, trim, trimStart_cons rfl, trimEnd_cons rfl, trimEnd_cons rfl]
  rfl

theorem pathKey_slash_eq_iff (path : String) : pathKey ("/" ++ path) = pathKey path ↔
    (∀ c ∈ path.toList, isBlank c = true) ∨ Bare path.toList := by
  rw [String.ext_iff, toList_pathKey_slash, toList_pathKey, trim_eq_trimStart_trimEnd,
    dropWhile_eq_iff_bare, bare_trimEnd_iff]

theorem pathKey_pathKey_eq_iff (path : String) :
    pathKey (pathKey path) = pathKey path ↔ Bare (pathKey path).toList := by
  have hkey := toList_pathKey path
  have htrimmed : Trimmed (pathKey path).toList := by
    rw [hkey]
    exact (trimmed_trimEnd _).of_suffix ((List.dropWhile_suffix _).trans (dropHere_suffix _))
  have hslashes : (pathKey path).toList.dropWhile (· == '/') = (pathKey path).toList := by
    rw [hkey, List.dropWhile_idempotent]
  rw [String.ext_iff, toList_pathKey, trim_eq_trimStart_trimEnd, htrimmed.trimEnd_eq,
    ← dropWhile_eq_iff_bare, hslashes, eq_comm]

end Key

/-- **What does not matter in a path, and where.** Blanks around it never do. A leading slash and a
leading `./` come to the same key, which is that of the path alone if and only if the path has nothing
but blanks or begins neither with a blank nor with `./`; and a key is its own key if and only if it
begins with neither of them. -/
theorem pathKey_of_prefixed {before after : String} (hbefore : ∀ c ∈ before.toList, isBlank c = true)
    (hafter : ∀ c ∈ after.toList, isBlank c = true) (path : String) :
    pathKey (before ++ path ++ after) = pathKey path ∧
    pathKey ("./" ++ path) = pathKey ("/" ++ path) ∧
    (pathKey ("/" ++ path) = pathKey path ↔
      (∀ c ∈ path.toList, isBlank c = true) ∨ Bare path.toList) ∧
    (pathKey (pathKey path) = pathKey path ↔ Bare (pathKey path).toList) := by
  refine ⟨?_, ?_, pathKey_slash_eq_iff path, pathKey_pathKey_eq_iff path⟩
  · rw [String.ext_iff, toList_pathKey, toList_pathKey, String.toList_append, String.toList_append,
      trim_blanks hbefore hafter]
  · rw [String.ext_iff, toList_pathKey_here, toList_pathKey_slash]

/-- A path with blanks, slashes and dots, but in an order in which all of them are taken off. -/
theorem pathKey_of_prefixed_library :
    (∀ c ∈ " \t".toList, isBlank c = true) ∧ (∀ c ∈ "\u3000".toList, isBlank c = true) ∧
      pathKey (" \t" ++ "//library/ a.md" ++ "\u3000") = pathKey "//library/ a.md" ∧
      pathKey ("./" ++ "//library/ a.md") = pathKey "//library/ a.md" ∧
      pathKey (pathKey "//library/ a.md") = pathKey "//library/ a.md" := by
  have hbefore : ∀ c ∈ " \t".toList, isBlank c = true := List.all_eq_true.1 (by decide)
  have hafter : ∀ c ∈ "\u3000".toList, isBlank c = true := List.all_eq_true.1 (by decide)
  obtain ⟨hblanks, hsame, hslash, hself⟩ := pathKey_of_prefixed hbefore hafter "//library/ a.md"
  have hbare : Bare "//library/ a.md".toList := .cons rfl (by decide)
  have hkey : pathKey "//library/ a.md" = "library/ a.md" := by decide +kernel
  have hbareKey : Bare (pathKey "//library/ a.md").toList := hkey ▸ .cons rfl (by decide)
  exact ⟨hbefore, hafter, hblanks, hsame.trans (hslash.2 (.inr hbare)), hself.2 hbareKey⟩

/-- A slash, or `./`, in front of `./`: the key begins with `./` and is not its own key. -/
theorem pathKey_keeps_here : pathKey "/./a" ≠ pathKey "./a" ∧ pathKey "././a" ≠ pathKey "./a" ∧
    pathKey (pathKey "/./a") ≠ pathKey "/./a" := by
  decide +kernel

end DocCompiler.Snippet
