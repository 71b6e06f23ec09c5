import DocCompiler.Proofs.Compile.Blocks
import DocCompiler.Proofs.Compile.Placeholders
import DocCompiler.Proofs.Preflight.Resolution
import DocCompiler.Proofs.Text.Layout

/-! Tokens that do not resolve, in the markdown of a document. What stands on one line and does not
end in a blank comes through joining, the whitespace filter and the ending of lines; so a token that
an expansion leaves in place can be read in the result. -/

namespace DocCompiler.Text

/-- Part of a line, not empty and without a blank at its end. -/
structure Solid (part : List Char) : Prop where
  ne_nil : part ≠ []
  unbroken : '\n' ∉ part
  trimmed : Trimmed part

variable {part cs : List Char}

theorem Solid.of_closed (inner : List Char) (hline : '\n' ∉ part)
    (hpart : part = inner ++ ['}', '}']) : Solid part where
  ne_nil := by simp [hpart]
  unbroken := hline
  trimmed := by
    have hend : part = (inner ++ ['}']) ++ ['}'] := by simp [hpart]
    intro c hc
    rw [hend, List.getLast?_concat] at hc
    cases hc
    rfl

theorem infix_intercalate {sep l : List Char} {ls : List (List Char)} (h : l ∈ ls) :
    l <:+: sep.intercalate ls := by
  induction ls with
  | nil => cases h
  | cons m ls ih =>
    cases ls with
    | nil => rw [List.mem_singleton.1 h, List.intercalate_singleton]
    | cons n ls =>
      rw [List.intercalate_cons_cons]
      rcases List.mem_cons.1 h with rfl | h
      · rw [List.append_assoc]
        exact (List.prefix_append _ _).isInfix
      · exact (ih h).trans (List.suffix_append _ _).isInfix

theorem exists_line_of_infix (hpart : '\n' ∉ part) (h : part <:+: cs) :
    ∃ line ∈ lines cs, part <:+: line := by
  obtain ⟨a, b, rfl⟩ := h
  rw [List.append_assoc]
  induction a with
  | nil =>
    obtain ⟨line, rest, hlines⟩ := List.exists_cons_of_ne_nil (splitBy_ne_nil (· == '\n') b)
    have hsep : ∀ c ∈ part, (c == '\n') = false := fun c hc => by
      simpa using fun heq : c = '\n' => hpart (heq ▸ hc)
    rw [List.nil_append, lines, splitBy_append hsep, hlines]
    exact ⟨part ++ line, .head _, (List.prefix_append _ _).isInfix⟩
  | cons c a ih =>
    obtain ⟨line, hline, hwithin⟩ := ih
    rw [lines] at hline
    rw [List.cons_append, lines, splitBy_cons]
    split
    case isTrue => exact ⟨line, .tail _ hline, hwithin⟩
    case isFalse =>
      obtain ⟨first, rest, hlines⟩ :=
        List.exists_cons_of_ne_nil (List.ne_nil_of_mem hline)
      rw [hlines] at hline ⊢
      rcases List.mem_cons.1 hline with rfl | hline
      · exact ⟨c :: line, .head _, hwithin.trans (List.suffix_cons c line).isInfix⟩
      · exact ⟨line, .tail _ hline, hwithin⟩

theorem mem_capBlankLines {l : List Char} {ls : List (List Char)} (hl : l ∈ ls) (hne : l ≠ [])
    (run : Nat) : l ∈ Formatting.capBlankLines run ls := by
  induction ls generalizing run with
  | nil => cases hl
  | cons m ls ih =>
    rw [Formatting.capBlankLines]
    split
    case isTrue hempty =>
      obtain rfl : m = [] := List.isEmpty_iff.1 hempty
      have hrest : l ∈ ls := (List.mem_cons.1 hl).resolve_left hne
      split
      case isTrue => exact .tail _ (ih hrest _)
      case isFalse => exact ih hrest _
    case isFalse =>
      rcases List.mem_cons.1 hl with rfl | hl
      · exact .head _
      · exact .tail _ (ih hl 0)

namespace Solid

variable (hpart : Solid part)

include hpart

theorem infix_trimEnd (h : part <:+: cs) : part <:+: trimEnd cs := by
  obtain ⟨a, b, rfl⟩ := h
  rw [trimEnd_append]
  split
  · rw [trimEnd_append, hpart.trimmed.trimEnd_eq, if_neg (by simpa using hpart.ne_nil)]
    exact (List.suffix_append _ _).isInfix
  · exact ⟨a, trimEnd b, rfl⟩

theorem infix_tidyChars (h : part <:+: cs) : part <:+: Formatting.tidyChars cs := by
  obtain ⟨line, hline, hwithin⟩ := exists_line_of_infix hpart.unbroken h
  have htrimmed := hpart.infix_trimEnd hwithin
  have hne : trimEnd line ≠ [] := by
    intro heq
    rw [heq, List.infix_nil] at htrimmed
    exact hpart.ne_nil htrimmed
  have hmem := mem_capBlankLines (List.mem_map_of_mem hline) hne 0
  exact htrimmed.trans (infix_intercalate hmem)

theorem infix_closeText {text : String} (h : part <:+: text.toList) :
    part <:+: (Compile.closeText text).toList := by
  have hkept := hpart.infix_trimEnd h
  rw [Compile.closeText]
  split
  case isTrue hempty =>
    rw [List.isEmpty_iff.1 hempty, List.infix_nil] at hkept
    exact absurd hkept hpart.ne_nil
  case isFalse =>
    rw [String.toList_push, String.toList_ofList]
    exact hkept.trans (List.prefix_append _ _).isInfix

theorem infix_endLines {text : String} (ending : LineEnding) (h : part <:+: text.toList) :
    part <:+: (Compile.endLines ending text).toList := by
  cases ending with
  | lf => exact h
  | crlf =>
    rw [Compile.endLines, String.toList_ofList,
      ← flatMap_ending_of_not_mem ['\r', '\n'] hpart.unbroken]
    exact h.flatMap _

theorem infix_assemble {texts : List String} {text : String} (ending : LineEnding)
    (htext : text ∈ texts) (h : part <:+: text.toList) :
    part <:+: (Compile.assemble Formatting.Filter.builtin ending texts).toList := by
  have hne : text.isEmpty = false := by
    rw [String.isEmpty_eq_false_iff]
    rintro rfl
    exact hpart.ne_nil (List.infix_nil.1 h)
  have hmem : text ∈ texts.filter (!·.isEmpty) := List.mem_filter.2 ⟨htext, by simp [hne]⟩
  have hjoined : part <:+: (Compile.blockSeparator.intercalate (texts.filter (!·.isEmpty))).toList := by
    rw [String.toList_intercalate]
    exact h.trans (infix_intercalate (List.mem_map_of_mem hmem))
  refine hpart.infix_endLines ending (hpart.infix_closeText ?_)
  show part <:+: (String.ofList (Formatting.tidyChars _)).toList
  rw [String.toList_ofList]
  exact hpart.infix_tidyChars hjoined

end Solid
end DocCompiler.Text

namespace DocCompiler.Compile

open Snippet (Index)
open Transclusion (Left Token)

variable {index : Index} {b : Block} {t : Token} {f : Finding}

/-- A token stays when the snippets of a block are expanded, for a reason. -/
def LeavesToken (index : Index) (b : Block) (t : Token) (f : Finding) : Prop :=
  match b.content with
  | .markdown body => Left index [] body t f
  | .snippet snippetId revision _ =>
    ∃ r, index.resolve? snippetId revision = some r ∧ Left index [r.snippet.id] r.body t f
  | .divider _ | .group .. | .comment .. => False

namespace LeavesToken

theorem delimited (h : LeavesToken index b t f) : Token.Delimited t.source.toList := by
  obtain ⟨id, sequence, metadata, content⟩ := b
  cases content with
  | markdown body => exact Left.delimited h
  | snippet snippetId revision mode =>
    obtain ⟨r, -, hleft⟩ := h
    exact hleft.delimited
  | divider | group | comment => cases h

theorem infix_rendering (h : LeavesToken index b t f) :
    t.source.toList <:+: (Rendering.of index b).text.toList := by
  obtain ⟨id, sequence, metadata, content⟩ := b
  cases content with
  | markdown body => exact Left.infix_text h
  | snippet snippetId revision mode =>
    obtain ⟨r, hr, hleft⟩ := h
    simp only [Rendering.of, hr]
    exact hleft.infix_text
  | divider | group | comment => cases h

/-- These are all the tokens that stay: whatever the rendering of a block finds is the reason for
one of them, unless the block is itself a snippet that does not resolve. -/
theorem mem_findings_rendering
    (hresolved : ∀ snippetId revision mode, b.content = .snippet snippetId revision mode →
      index.resolve? snippetId revision ≠ none) :
    f ∈ (Rendering.of index b).findings ↔ ∃ t, LeavesToken index b t f := by
  obtain ⟨id, sequence, metadata, content⟩ := b
  cases content with
  | markdown body => exact Transclusion.mem_findings_expansionOf
  | snippet snippetId revision mode =>
    obtain ⟨r, hr⟩ := Option.ne_none_iff_exists'.1 (hresolved snippetId revision mode rfl)
    simp only [Rendering.of, LeavesToken, hr, Option.some.injEq, exists_eq_left']
    exact Transclusion.mem_findings_expansionOf
  | divider | group | comment => simp [Rendering.of, LeavesToken]

end LeavesToken

theorem solid_of_delimited {source : List Char} (h : Token.Delimited source)
    (hline : '\n' ∉ source) : Text.Solid source := by
  obtain ⟨inner, -, rfl⟩ := h
  exact .of_closed ('{' :: '{' :: '>' :: inner) hline rfl

/-- **Tokens that do not resolve stay visible.** In a block without a formatter, each token that
the expansion leaves in place, because it resolves to nothing or to a snippet that is being
expanded, stands in the compiled markdown as it is written, if it is written on one line. -/
theorem source_infix_markdown (r : CompileRequest) (hb : b ∈ r.document.blocks)
    (hplain : namedFormatter? b = none)
    (ht : LeavesToken (Index.ofBundles r.snippets) b t f) (hline : '\n' ∉ t.source.toList) :
    t.source.toList <:+: (compileDocument r).markdown.toList := by
  have hsolid := solid_of_delimited ht.delimited hline
  have hmem : b ∈ r.document.orderedBlocks := List.mem_mergeSort.2 hb
  rw [markdown_compileDocument]
  refine hsolid.infix_assemble _ (List.mem_map_of_mem hmem) ?_
  rw [textIn_of_unformatted r hplain]
  exact Substitution.infix_result ht.delimited ht.infix_rendering _

/-- A snippet that mentions itself between braces, and a variable of its name. -/
def selfMention : CompileRequest where
  document := { Document.empty "doc" "" "" with
    blocks := [.markdown "block" 0 "x \x7b\x7b> a\x7d\x7d"]
    settings := SortedMap.insert ∅ "newline" (.str "\r\n") }
  snippets := [.single "a" "\x7b\x7b\x7b> a \x7d\x7d\x7d"]
  values := SortedMap.insert ∅ "a" (.text "\x7b\x7b")
  allowedStatuses := none

section SelfMention

theorem target?_selfMention (source : String) :
    (⟨source, "a", none⟩ : Token).target? (Index.ofBundles selfMention.snippets) =
      some ⟨(Snippet.Bundle.single "a" "\x7b\x7b\x7b> a \x7d\x7d\x7d").snippet,
        .sealed 1 none "\x7b\x7b\x7b> a \x7d\x7d\x7d" ∅⟩ :=
  (Index.resolve?_eq ..).trans rfl

theorem leavesToken_selfMention :
    LeavesToken (Index.ofBundles selfMention.snippets)
      (.markdown "block" 0 "x \x7b\x7b> a\x7d\x7d") ⟨"\x7b\x7b> a \x7d\x7d", "a", none⟩
      (.snippetCycle "a" ["a", "a"]) := by
  have houter : Token.pieces "x \x7b\x7b> a\x7d\x7d" =
      [.plain 'x', .plain ' ', .found ⟨"\x7b\x7b> a\x7d\x7d", "a", none⟩] := rfl
  have hinner : Token.pieces "\x7b\x7b\x7b> a \x7d\x7d\x7d" =
      [.plain '{', .found ⟨"\x7b\x7b> a \x7d\x7d", "a", none⟩, .plain '}'] := rfl
  have hopened := target?_selfMention "\x7b\x7b> a\x7d\x7d"
  have hcyclic := target?_selfMention "\x7b\x7b> a \x7d\x7d"
  refine Left.inside ?_ hopened List.not_mem_nil (Left.cyclic ?_ hcyclic (List.mem_singleton_self _))
  · simp [houter]
  · exact hinner ▸ .tail _ (.head _)

end SelfMention

theorem source_infix_markdown_selfMention :
    (LeavesToken (Index.ofBundles selfMention.snippets)
      (.markdown "block" 0 "x \x7b\x7b> a\x7d\x7d") ⟨"\x7b\x7b> a \x7d\x7d", "a", none⟩
      (.snippetCycle "a" ["a", "a"])) ∧
    "\x7b\x7b> a \x7d\x7d".toList <:+: (compileDocument selfMention).markdown.toList := by
  have hline : '\n' ∉ "\x7b\x7b> a \x7d\x7d".toList := by decide
  have hshown := source_infix_markdown selfMention (List.mem_singleton_self _) rfl
    leavesToken_selfMention hline
  exact ⟨leavesToken_selfMention, hshown⟩

end DocCompiler.Compile
