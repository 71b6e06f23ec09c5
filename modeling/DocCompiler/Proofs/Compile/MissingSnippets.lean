import DocCompiler.Proofs.Compile.Unresolved

/-! Snippet blocks that do not resolve. What stands for one names the snippet between the braces of
a placeholder, and goes through the substitution of variables as the text of any block does. It can
be read in the markdown unless there is a placeholder in the name that has a value. -/

namespace DocCompiler.Text

variable {part front back : List Char}

theorem infix_of_append_left (h : part <:+: front ++ back) (hne : part ≠ [])
    (hapart : ∀ c ∈ part, c ∉ front) : part <:+: back := by
  induction front with
  | nil => exact h
  | cons c front ih =>
    have hrest : part <:+: front ++ back := by
      refine (List.infix_cons_iff.1 h).resolve_left fun hprefix => ?_
      obtain ⟨d, part, rfl⟩ := List.exists_cons_of_ne_nil hne
      obtain ⟨rfl, -⟩ := List.cons_prefix_cons.1 hprefix
      exact hapart d (.head _) (.head _)
    exact ih hrest fun d hd hmem => hapart d hd (.tail _ hmem)

theorem infix_of_append_right (h : part <:+: front ++ back) (hne : part ≠ [])
    (hapart : ∀ c ∈ part, c ∉ back) : part <:+: front := by
  rw [← List.reverse_infix, List.reverse_append] at h
  rw [← List.reverse_infix]
  refine infix_of_append_left h (by simpa using hne) fun c hc hmem => ?_
  exact hapart c (List.mem_reverse.1 hc) (List.mem_reverse.1 hmem)

end DocCompiler.Text

namespace DocCompiler.Compile

open Snippet (Index)
open Substitution (IsKey Keeps placeholder)

variable {b : Block} {snippetId : String} {revision : Option UInt32} {mode : SnippetMode}

theorem toList_missingPlaceholder (snippetId : String) :
    (missingPlaceholder snippetId).toList =
      '{' :: '{' :: ("missing:".toList ++ (snippetId.toList ++ ['}', '}'])) := by
  simp [missingPlaceholder]

theorem solid_missingPlaceholder (hline : '\n' ∉ snippetId.toList) :
    Text.Solid (missingPlaceholder snippetId).toList := by
  rw [toList_missingPlaceholder]
  refine .of_closed ('{' :: '{' :: ("missing:".toList ++ snippetId.toList)) ?_ ?_
  · simp [hline]
  · simp

/-- The stand-in itself is no placeholder, as a key cannot hold the colon. -/
theorem not_prefix_missingPlaceholder {key : String} (hkey : IsKey key) (snippetId : String) :
    ¬ (placeholder key).toList <+: (missingPlaceholder snippetId).toList := by
  intro hprefix
  have hcolon : ':' ∉ key.toList := hkey.not_mem rfl
  rw [Substitution.toList_placeholder, toList_missingPlaceholder] at hprefix
  obtain ⟨rest, hrest⟩ := (List.cons_prefix_cons.1 (List.cons_prefix_cons.1 hprefix).2).2
  rw [List.append_assoc] at hrest
  rcases List.append_eq_append_iff.1 hrest with ⟨more, hmore, hclosing⟩ | ⟨more, hmore, -⟩
  · cases more with
    | nil =>
      rw [List.append_nil] at hmore
      exact absurd (hmore ▸ by decide) hcolon
    | cons c more =>
      obtain rfl := (List.cons.inj hclosing).1
      have hmem : '}' ∈ "missing:".toList := hmore ▸ by simp
      exact absurd hmem (by decide)
  · exact absurd (hmore ▸ List.mem_append_left more (by decide)) hcolon

theorem braces_infix_of_missingPlaceholder
    (h : ['{', '{'] <:+: '{' :: ("missing:".toList ++ (snippetId.toList ++ ['}', '}']))) :
    ['{', '{'] <:+: snippetId.toList := by
  have hbehind : ['{', '{'] <:+: "missing:".toList ++ (snippetId.toList ++ ['}', '}']) := by
    refine (List.infix_cons_iff.1 h).resolve_left fun hprefix => ?_
    obtain ⟨hc, -⟩ := List.cons_prefix_cons.1 (List.cons_prefix_cons.1 hprefix).2
    cases hc
  have hne : ['{', '{'] ≠ [] := List.cons_ne_nil _ _
  have hleft : ∀ c ∈ ['{', '{'], c ∉ "missing:".toList := by simp
  have hright : ∀ c ∈ ['{', '{'], c ∉ ['}', '}'] := by simp
  exact Text.infix_of_append_right (Text.infix_of_append_left hbehind hne hleft) hne hright

theorem keeps_missingPlaceholder (hbraces : ¬ ['{', '{'] <:+: snippetId.toList)
    (values : Variables) : Keeps values (missingPlaceholder snippetId) := by
  intro key value hkey hwithin
  have hfront := not_prefix_missingPlaceholder hkey snippetId
  rw [Substitution.toList_placeholder, toList_missingPlaceholder] at hwithin hfront
  have hbehind := (List.infix_cons_iff.1 hwithin).resolve_left hfront
  have hopening : ['{', '{'] <+: '{' :: '{' :: (key.toList ++ ['}', '}']) :=
    List.prefix_append _ _
  exact absurd (braces_infix_of_missingPlaceholder (hopening.isInfix.trans hbehind)) hbraces

theorem textIn_of_unresolved (r : CompileRequest) (hplain : namedFormatter? b = none)
    (hcontent : b.content = .snippet snippetId revision mode)
    (hmissing : (Index.ofBundles r.snippets).resolve? snippetId revision = none)
    (hkeeps : Keeps (r.document.effectiveVariables r.values) (missingPlaceholder snippetId)) :
    textIn r b = missingPlaceholder snippetId := by
  have hrendered : (Rendering.of (Index.ofBundles r.snippets) b).text =
      missingPlaceholder snippetId := by
    simp only [Rendering.of, hcontent, hmissing]
  rw [textIn_of_unformatted r hplain, hrendered, Substitution.result_eq_self hkeeps]

theorem infix_markdown_of_textIn {r : CompileRequest} (hb : b ∈ r.document.blocks)
    (hline : '\n' ∉ snippetId.toList) (htext : textIn r b = missingPlaceholder snippetId) :
    (missingPlaceholder snippetId).toList <:+: (compileDocument r).markdown.toList := by
  have hmem : b ∈ r.document.orderedBlocks := List.mem_mergeSort.2 hb
  rw [markdown_compileDocument]
  refine (solid_missingPlaceholder hline).infix_assemble _ (List.mem_map_of_mem hmem) ?_
  rw [htext]

/-- Whatever the variables, a name without two opening braces one after the other is shown. -/
theorem infix_markdown_of_unbraced (r : CompileRequest) (hb : b ∈ r.document.blocks)
    (hplain : namedFormatter? b = none)
    (hcontent : b.content = .snippet snippetId revision mode)
    (hmissing : (Index.ofBundles r.snippets).resolve? snippetId revision = none)
    (hline : '\n' ∉ snippetId.toList) (hbraces : ¬ ['{', '{'] <:+: snippetId.toList) :
    (missingPlaceholder snippetId).toList <:+: (compileDocument r).markdown.toList := by
  have hkeeps := keeps_missingPlaceholder hbraces (r.document.effectiveVariables r.values)
  exact infix_markdown_of_textIn hb hline (textIn_of_unresolved r hplain hcontent hmissing hkeeps)

/-- **Missing snippets stay visible.** A snippet block without a formatter that does not resolve is
shown by its stand-in, name and all, if the name has no line feed and each placeholder in it is
without a value or has itself for a value. -/
theorem missingPlaceholder_infix_markdown (r : CompileRequest) (hb : b ∈ r.document.blocks)
    (hplain : namedFormatter? b = none)
    (hcontent : b.content = .snippet snippetId revision mode)
    (hmissing : (Index.ofBundles r.snippets).resolve? snippetId revision = none)
    (hline : '\n' ∉ snippetId.toList)
    (hkeeps : Keeps (r.document.effectiveVariables r.values) (missingPlaceholder snippetId)) :
    textIn r b = missingPlaceholder snippetId ∧
      (missingPlaceholder snippetId).toList <:+: (compileDocument r).markdown.toList := by
  have htext := textIn_of_unresolved r hplain hcontent hmissing hkeeps
  exact ⟨htext, infix_markdown_of_textIn hb hline htext⟩

def oddlyNamed (value : String) : CompileRequest where
  document := { Document.empty "doc" "" "" with
    blocks := [.snippet "block" 0 "\x7b\x7bx\x7d\x7d"]
    settings := SortedMap.insert ∅ "newline" (.str "\r\n") }
  snippets := []
  values := SortedMap.insert ∅ "x" (.text value)
  allowedStatuses := none

theorem resolve?_oddlyNamed (value : String) :
    (Index.ofBundles (oddlyNamed value).snippets).resolve? "\x7b\x7bx\x7d\x7d" none = none :=
  (Index.resolve?_eq ..).trans rfl

theorem keeps_oddlyNamed :
    Keeps ((oddlyNamed (placeholder "x")).document.effectiveVariables
      (oddlyNamed (placeholder "x")).values) (missingPlaceholder (placeholder "x")) := by
  intro key value _ _ hvalue
  have heffective : (oddlyNamed (placeholder "x")).document.effectiveVariables
      (oddlyNamed (placeholder "x")).values =
        SortedMap.insert ∅ "x" (.text (placeholder "x")) := rfl
  rw [heffective, SortedMap.find?_insert] at hvalue
  split at hvalue
  case isTrue hkey =>
    subst hkey
    cases hvalue
    rfl
  case isFalse => cases hvalue

theorem missingPlaceholder_infix_markdown_oddlyNamed :
    Keeps ((oddlyNamed (placeholder "x")).document.effectiveVariables
        (oddlyNamed (placeholder "x")).values) (missingPlaceholder (placeholder "x")) ∧
      (missingPlaceholder (placeholder "x")).toList <:+:
        (compileDocument (oddlyNamed (placeholder "x"))).markdown.toList :=
  ⟨keeps_oddlyNamed, (missingPlaceholder_infix_markdown _ (List.mem_singleton_self _) rfl rfl
    (resolve?_oddlyNamed _) (by decide) keeps_oddlyNamed).2⟩

/-- With another value for it, nothing shows which snippet is missing. -/
theorem missingPlaceholder_replaced :
    let block := Block.snippet "block" 0 "\x7b\x7bx\x7d\x7d"
    block ∈ (oddlyNamed "v").document.blocks ∧ namedFormatter? block = none ∧
      block.content = .snippet "\x7b\x7bx\x7d\x7d" none .transclude ∧
      (Index.ofBundles (oddlyNamed "v").snippets).resolve? "\x7b\x7bx\x7d\x7d" none = none ∧
      '\n' ∉ "\x7b\x7bx\x7d\x7d".toList ∧
      ¬ (missingPlaceholder "\x7b\x7bx\x7d\x7d").toList <:+:
        (compileDocument (oddlyNamed "v")).markdown.toList := by
  intro block
  refine ⟨List.mem_singleton_self _, rfl, rfl, resolve?_oddlyNamed _, by decide, ?_⟩
  have hordered : (oddlyNamed "v").document.orderedBlocks = [block] := List.mergeSort_singleton _
  have hrendered : (Rendering.of (Index.ofBundles (oddlyNamed "v").snippets) block).text =
      missingPlaceholder "\x7b\x7bx\x7d\x7d" := by
    simp only [Rendering.of, block, Block.snippet, resolve?_oddlyNamed]
  have hmarkdown : (compileDocument (oddlyNamed "v")).markdown =
      "\x7b\x7bmissing:v\x7d\x7d\r\n" := by
    rw [markdown_compileDocument, hordered, List.map_singleton, textIn_of_unformatted _ rfl,
      hrendered]
    rfl
  rw [hmarkdown]
  decide

end DocCompiler.Compile
