import DocCompiler.Proofs.Compile.Blocks
import DocCompiler.Proofs.Compile.Placeholders
import DocCompiler.Proofs.Text.Layout

/-! The normal form of compiled documents. Joining, filtering and ending the lines bring every text
into tidy lines, and leave tidy lines as they are; so a compiled document that is compiled again, as
the only block of a document, is itself. -/

namespace DocCompiler

/-- Asks for nothing but a text: in one markdown block without a formatter, and with no snippet and
no variable. -/
structure CompileRequest.IsPlain (r : CompileRequest) (text : String) : Prop where
  block : ∃ b, r.document.blocks = [b] ∧ b.content = .markdown text ∧
    Compile.namedFormatter? b = none
  definitions : r.document.definitions = []
  snippets : r.snippets = []
  values : r.values = ∅

def CompileRequest.again (r : CompileRequest) (text : String) : CompileRequest :=
  .ofDocument { Document.empty r.document.id r.document.title r.document.statusKey with
    blocks := [.markdown "text" 0 text], settings := r.document.settings }

theorem CompileRequest.isPlain_again (r : CompileRequest) (text : String) :
    (r.again text).IsPlain text :=
  ⟨⟨_, rfl, rfl, rfl⟩, rfl, rfl, rfl⟩

namespace Compile

open Formatting (Capped Filter capBlankLines mem_of_mem_capBlankLines tidyChars)
open Snippet (Index)
open Text (Trimmed lines trimEnd unlines)

section Closing

variable {ls : List (List Char)}

theorem exists_closed (ls : List (List Char)) :
    ∃ kept n, ls = kept ++ List.replicate n [] ∧ kept.getLast? ≠ some [] := by
  induction ls using List.reverseRecOn with
  | nil => exact ⟨[], 0, rfl, nofun⟩
  | append_singleton ls l ih =>
    by_cases hl : l = []
    · obtain ⟨kept, n, rfl, hkept⟩ := ih
      refine ⟨kept, n + 1, ?_, hkept⟩
      rw [hl, List.append_assoc, ← List.replicate_succ']
    · refine ⟨ls ++ [l], 0, (List.append_nil _).symm, ?_⟩
      rw [List.getLast?_concat]
      exact fun heq => hl (Option.some.inj heq)

theorem trimEnd_unlines_concat_nil (ls : List (List Char)) :
    trimEnd (unlines (ls ++ [[]])) = trimEnd (unlines ls) := by
  rcases List.eq_nil_or_concat ls with rfl | ⟨init, last, rfl⟩
  · rfl
  · have hlast : unlines (init ++ [last] ++ [[]]) = unlines (init ++ [last]) ++ ['\n'] := by
      rw [Text.unlines_concat, Text.unlines_concat]
      simp
    rw [List.concat_eq_append, hlast, Text.trimEnd_append_blank _ rfl]

theorem trimEnd_unlines_replicate (n : Nat) :
    trimEnd (unlines (ls ++ List.replicate n [])) = trimEnd (unlines ls) := by
  induction n with
  | zero => rw [List.replicate_zero, List.append_nil]
  | succ n ih =>
    rw [List.replicate_succ', ← List.append_assoc, trimEnd_unlines_concat_nil, ih]

theorem toList_closeText_unlines (htrimmed : ∀ l ∈ ls, Trimmed l) (hclosed : ls.getLast? ≠ some [])
    (n : Nat) : (closeText (String.ofList (unlines (ls ++ List.replicate n [])))).toList =
      LineEnding.lf.close ls := by
  rw [closeText, String.toList_ofList, trimEnd_unlines_replicate]
  rcases List.eq_nil_or_concat ls with rfl | ⟨init, last, rfl⟩
  · rfl
  · rw [List.concat_eq_append] at *
    have hne : last ≠ [] := fun heq => hclosed (by rw [heq, List.getLast?_concat])
    have hlast : trimEnd last = last := (htrimmed last (by simp)).trimEnd_eq
    have hkept : trimEnd (unlines (init ++ [last])) = unlines (init ++ [last]) := by
      rw [Text.unlines_concat, Text.trimEnd_append, hlast, if_neg (by simpa using hne)]
    have hempty : (unlines (init ++ [last])).isEmpty = false := by
      rw [Text.unlines_concat]
      exact List.isEmpty_eq_false_iff.2 (List.append_ne_nil_of_right_ne_nil _ hne)
    rw [hkept, hempty, Text.unlines_concat, LineEnding.close_append]
    simp [LineEnding.close, LineEnding.text]

theorem toList_endLines {text : String} (ending : LineEnding) (hls : ∀ l ∈ ls, '\n' ∉ l)
    (htext : text.toList = LineEnding.lf.close ls) :
    (endLines ending text).toList = ending.close ls := by
  cases ending with
  | lf => exact htext
  | crlf =>
    rw [endLines, String.toList_ofList, htext]
    clear htext
    induction ls with
    | nil => rfl
    | cons l ls ih =>
      rw [LineEnding.close_lf_cons, LineEnding.close_crlf_cons, List.flatMap_append,
        List.flatMap_cons, Text.flatMap_ending_of_not_mem _ (hls l (.head _)),
        ih fun m hm => hls m (.tail _ hm)]
      rfl

end Closing

section Tidy

/-- Whatever the texts of the blocks are, the document comes to tidy lines. -/
theorem exists_tidyLines (ending : LineEnding) (texts : List String) :
    ∃ ls, TidyLines ls ∧ (assemble Filter.builtin ending texts).toList = ending.close ls := by
  let joined := (blockSeparator.intercalate (texts.filter (!·.isEmpty))).toList
  obtain ⟨kept, n, hsplit, hclosed⟩ :=
    exists_closed (capBlankLines 0 ((lines joined).map trimEnd))
  have hline : ∀ l ∈ kept, Trimmed l ∧ '\n' ∉ l := by
    intro l hl
    have hmem : l ∈ capBlankLines 0 ((lines joined).map trimEnd) :=
      hsplit ▸ List.mem_append_left _ hl
    obtain ⟨line, hline, rfl⟩ := List.mem_map.1 (mem_of_mem_capBlankLines hmem)
    exact ⟨Text.trimmed_trimEnd line, Text.not_mem_trimEnd (Text.not_mem_of_mem_lines hline)⟩
  have hcapped : Capped kept := by
    have hall := Formatting.capped_capBlankLines (Nat.zero_le _) ((lines joined).map trimEnd)
    rw [List.replicate_zero, List.nil_append, hsplit] at hall
    exact fun hwithin => hall (hwithin.trans (List.prefix_append _ _).isInfix)
  refine ⟨kept, ⟨fun l hl => (hline l hl).2, fun l hl => (hline l hl).1, hcapped, hclosed⟩, ?_⟩
  refine toList_endLines ending (fun l hl => (hline l hl).2) ?_
  show (closeText (String.ofList (unlines (capBlankLines 0 ((lines joined).map trimEnd))))).toList = _
  rw [hsplit]
  exact toList_closeText_unlines (fun l hl => (hline l hl).1) hclosed n

variable {ls : List (List Char)} (h : TidyLines ls)

include h

theorem map_trimEnd_lines_close (ending : LineEnding) :
    (lines (ending.close ls)).map trimEnd = ls ++ [[]] := by
  have hunbroken := h.unbroken
  have htrimmed := h.trimmed
  clear h
  induction ls with
  | nil => rfl
  | cons l ls ih =>
    have hrest := ih (fun m hm => hunbroken m (.tail _ hm)) fun m hm => htrimmed m (.tail _ hm)
    have hl := hunbroken l (.head _)
    have hself := (htrimmed l (.head _)).trimEnd_eq
    cases ending with
    | lf =>
      rw [LineEnding.close_lf_cons, Text.lines_append_cons, Text.lines_of_not_mem hl,
        List.map_append, hrest, List.map_singleton, hself]
      rfl
    | crlf =>
      have hl' : '\n' ∉ l ++ ['\r'] := by simpa using hl
      rw [LineEnding.close_crlf_cons, List.append_cons, Text.lines_append_cons,
        Text.lines_of_not_mem hl', List.map_append, hrest, List.map_singleton,
        Text.trimEnd_append_blank _ rfl, hself]
      rfl

theorem capBlankLines_concat_nil : capBlankLines 0 (ls ++ [[]]) = ls ++ [[]] := by
  refine Formatting.capBlankLines_eq fun hwithin => ?_
  have hlength := h.length_le_of_blank hwithin fun line hline c hc => by
    rw [List.eq_of_mem_replicate hline] at hc
    cases hc
  rw [List.length_replicate] at hlength
  exact absurd hlength (by decide)

/-- A document in normal form that is compiled again stays as it is. -/
theorem assemble_close (ending : LineEnding) :
    assemble Filter.builtin ending [String.ofList (ending.close ls)] =
      String.ofList (ending.close ls) := by
  have hjoined : blockSeparator.intercalate ([String.ofList (ending.close ls)].filter (!·.isEmpty)) =
      String.ofList (ending.close ls) := by
    by_cases hempty : String.ofList (ending.close ls) = ""
    · simp [hempty]
    · simp [hempty]
  have htidy : Filter.applyAll Filter.builtin (String.ofList (ending.close ls)) =
      String.ofList (unlines (ls ++ [[]])) := by
    show String.ofList (tidyChars (String.ofList _).toList) = _
    rw [String.toList_ofList, tidyChars, map_trimEnd_lines_close h, capBlankLines_concat_nil h]
  have hclose := toList_closeText_unlines h.trimmed h.closed 1
  rw [assemble, hjoined, htidy, String.ext_iff, String.toList_ofList]
  exact toList_endLines ending h.unbroken hclose

end Tidy

theorem markdown_of_isPlain {r : CompileRequest} {text : String} (h : r.IsPlain text) :
    (compileDocument r).markdown = assemble Filter.builtin r.document.lineEnding [text] := by
  obtain ⟨b, hblocks, hcontent, hformatter⟩ := h.block
  have hordered : r.document.orderedBlocks = [b] := by
    rw [Document.orderedBlocks, hblocks]
    exact List.mergeSort_singleton b
  have hvalues : r.document.effectiveVariables r.values = ∅ := by
    rw [Document.effectiveVariables, h.definitions, h.values]
    rfl
  have hrendered : (Rendering.of (Index.ofBundles r.snippets) b).text = text := by
    simp only [Rendering.of, hcontent, Rendering.ofExpansion, h.snippets]
    exact Transclusion.expansionOf_ofBundles_nil [] text
  rw [markdown_compileDocument, hordered, List.map_singleton, textIn_of_unformatted r hformatter,
    hrendered, hvalues, Substitution.result_empty]

theorem text_eq_flatten (r : CompileRequest) :
    (compileDocument r).text = Text.flatten (compileDocument r).markdown := rfl

theorem hash_eq_hashText (r : CompileRequest) :
    (compileDocument r).hash = Digest.hashText (compileDocument r).markdown := rfl

/-- **Compiled documents are in normal form, and stay as they are.** The markdown of a document is
in normal form for its line ending; a plain request for it with the same line ending compiles to
the same markdown, text and hash. -/
theorem compileDocument_normalForm (r : CompileRequest) :
    NormalForm r.document.lineEnding (compileDocument r).markdown.toList ∧
    ∀ r' : CompileRequest, r'.IsPlain (compileDocument r).markdown →
      r'.document.lineEnding = r.document.lineEnding →
      (compileDocument r').markdown = (compileDocument r).markdown ∧
        (compileDocument r').text = (compileDocument r).text ∧
        (compileDocument r').hash = (compileDocument r).hash := by
  obtain ⟨ls, htidy, hls⟩ :=
    exists_tidyLines r.document.lineEnding (r.document.orderedBlocks.map (textIn r))
  rw [← markdown_compileDocument] at hls
  refine ⟨hls ▸ htidy.normalForm r.document.lineEnding, fun r' hplain hending => ?_⟩
  have hmarkdown : (compileDocument r).markdown =
      String.ofList (r.document.lineEnding.close ls) := by
    rw [← hls, String.ofList_toList]
  have hself : (compileDocument r').markdown = (compileDocument r).markdown := by
    rw [markdown_of_isPlain hplain, hending, hmarkdown]
    exact assemble_close htidy r.document.lineEnding
  refine ⟨hself, ?_, ?_⟩
  · rw [text_eq_flatten, hself, ← text_eq_flatten]
  · rw [hash_eq_hashText, hself, ← hash_eq_hashText]

def untidy : CompileRequest := .ofDocument { Document.empty "doc" "" "" with
  blocks := [.markdown "block" 0 "a\r b\r\n\n\n\n\nc \r\t\n\n"]
  settings := SortedMap.insert ∅ "newline" (.str "\r\n") }

theorem compileDocument_normalForm_untidy :
    (untidy.again (compileDocument untidy).markdown).IsPlain (compileDocument untidy).markdown ∧
      (compileDocument (untidy.again (compileDocument untidy).markdown)).markdown =
        (compileDocument untidy).markdown := by
  have hplain := untidy.isPlain_again (compileDocument untidy).markdown
  exact ⟨hplain, ((compileDocument_normalForm untidy).2 _ hplain rfl).1⟩

end Compile
end DocCompiler
