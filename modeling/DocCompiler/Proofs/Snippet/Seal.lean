import DocCompiler.Snippet
import DocCompiler.Proofs.Json.Unambiguous
import DocCompiler.Proofs.Text.Pieces

/-! The sealed text of a revision determines its body and its frontmatter. A body may itself hold
separators, but frontmatter holds no line break, so the last separator is the one between them. -/

namespace DocCompiler

theorem Json.lineBreak_not_mem_chars (v : Json) : '\n' ∉ v.chars := fun h =>
  absurd (v.plain_chars _ h) (by decide)

theorem toList_sealedText (body : String) (frontmatter : SortedMap Json) :
    (sealedText body frontmatter).toList = (body.toList ++ ['\n', '-', '-', '-']) ++
      '\n' :: (Json.object frontmatter).canonical.chars := by
  simp [sealedText, frontmatterSeparator, Json.canonicalText, Json.text]

theorem Json.distinctKeys_object {m : SortedMap Json} (h : ∀ e ∈ m.entries, e.2.DistinctKeys) :
    (Json.object m).DistinctKeys := .obj m.nodup_keys h

/-- **What is sealed is determined.** Two revisions with one sealed text have the same body and,
up to the order of entries, the same frontmatter. -/
theorem sealedText_injective {body body' : String} {frontmatter frontmatter' : SortedMap Json}
    (hkeys : ∀ e ∈ frontmatter.entries, e.2.DistinctKeys)
    (hkeys' : ∀ e ∈ frontmatter'.entries, e.2.DistinctKeys)
    (h : sealedText body frontmatter = sealedText body' frontmatter') :
    body = body' ∧ (Json.object frontmatter).EqUpToOrder (.object frontmatter') := by
  have hlists := congrArg String.toList h
  rw [toList_sealedText, toList_sealedText] at hlists
  obtain ⟨hbody, hchars⟩ := Text.append_cons_inj_of_last (Json.lineBreak_not_mem_chars _)
    (Json.lineBreak_not_mem_chars _) hlists
  refine ⟨String.toList_injective (List.append_cancel_right hbody), ?_⟩
  exact (Json.distinctKeys_object hkeys).eqUpToOrder (Json.distinctKeys_object hkeys')
    (congrArg String.ofList hchars)

/-- A body that ends like sealed text, sealed with two listings of one frontmatter. -/
theorem sealedText_injective_nested :
    "Hi\n---\n{}" = "Hi\n---\n{}" ∧
      (Json.object (.ofList [("k", .obj [("y", .null), ("x", .bool true)])])).EqUpToOrder
        (.object (.ofList [("k", .obj [("x", .bool true), ("y", .null)])])) := by
  have hfirst : (Json.obj [("y", .null), ("x", .bool true)]).DistinctKeys :=
    .pair (by decide) .null (.bool true)
  have hsecond : (Json.obj [("x", .bool true), ("y", .null)]).DistinctKeys :=
    .pair (by decide) (.bool true) .null
  refine sealedText_injective ?_ ?_ (by decide)
  · exact fun e he => List.mem_singleton.1 he ▸ hfirst
  · exact fun e he => List.mem_singleton.1 he ▸ hsecond

end DocCompiler
