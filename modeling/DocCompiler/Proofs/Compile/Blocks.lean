import DocCompiler.Compile.Pipeline
import DocCompiler.Proofs.Compile.Rendering
import DocCompiler.Proofs.Json.Canonical
import DocCompiler.Proofs.Text.Words
import DocCompiler.Proofs.Transclusion.Uses

/-! A document against its blocks. Each block compiles as in a document of its own: the result for
the whole is put together from the results for the blocks, and nothing passes between them. -/

namespace DocCompiler

def CompileRequest.alone (r : CompileRequest) (b : Block) : CompileRequest :=
  { r with document := { r.document with blocks := [b] } }

def Diagnostic.missingKey? (d : Diagnostic) : Option String :=
  if d.code = Finding.variableMissingCode then (d.details.bind (·.field? "key")).bind Json.str?
  else none

theorem Finding.code_eq_variableMissingCode {f : Finding} :
    f.toDiagnostic.code = variableMissingCode ↔ ∃ key, f = .variableMissing key := by
  cases f <;> simp [toDiagnostic, snippetNotFoundCode, snippetCycleCode, variableMissingCode,
    formatterNotFoundCode]

theorem Finding.missingKey?_toDiagnostic {f : Finding} {key : String} :
    f.toDiagnostic.missingKey? = some key ↔ f = .variableMissing key := by
  unfold Diagnostic.missingKey?
  split
  case isTrue h =>
    obtain ⟨key', rfl⟩ := code_eq_variableMissingCode.1 h
    simp [toDiagnostic, Json.field?, Json.str?]
  case isFalse h =>
    simp only [reduceCtorEq, false_iff]
    rintro rfl
    exact h rfl

theorem pairwise_distinctSorted (l : List String) : (distinctSorted l).Pairwise (· < ·) :=
  List.pairwise_map.2 (SortedMap.ordered _)

theorem mem_distinctSorted {l : List String} {key : String} :
    key ∈ distinctSorted l ↔ key ∈ l := by
  have hbound : key ∈ distinctSorted l ↔
      (SortedMap.ofList (l.map (·, ()))).find? key ≠ none := by
    rw [Option.ne_none_iff_exists']
    constructor
    · intro h
      obtain ⟨e, he, rfl⟩ := List.mem_map.1 h
      exact ⟨e.2, SortedMap.mem_entries.1 he⟩
    · rintro ⟨u, hu⟩
      exact List.mem_map.2 ⟨(key, u), SortedMap.mem_entries.2 hu, rfl⟩
  rw [hbound, SortedMap.find?_ofList, ne_eq, binding?_eq_none]
  simp

namespace Compile

open Formatting (Builtin Filter)
open Snippet (Index)
open Transclusion (ProvenanceEntry firstOfEachKey)

theorem Rendering.ne_variableMissing {index : Index} {b : Block} :
    ∀ f ∈ (Rendering.of index b).findings, ∀ key, f ≠ .variableMissing key :=
  forall_mem_findings (fun _ _ _ => Finding.noConfusion) (fun _ _ _ => Finding.noConfusion)
    (fun _ _ _ => Finding.noConfusion)

theorem Draft.code_ne_of_mem_blockFindings {index : Index} {values : Variables}
    {isKnown : String → Bool} {b : Block} {f : Finding}
    (hf : f ∈ blockFindings index values isKnown b) :
    f.toDiagnostic.code ≠ Finding.variableMissingCode := by
  intro hcode
  obtain ⟨key, rfl⟩ := Finding.code_eq_variableMissingCode.1 hcode
  rcases List.mem_append.1 hf with hf | hf
  · exact Rendering.ne_variableMissing _ hf key rfl
  · obtain ⟨id, heq⟩ := Draft.eq_of_mem_segment hf
    cases heq

theorem words_endLines (ending : LineEnding) (text : String) :
    Text.words (endLines ending text).toList = Text.words text.toList := by
  cases ending with
  | lf => rfl
  | crlf =>
    have hends : (endLines .crlf text).toList =
        ['\r', '\n'].intercalate (Text.lines text.toList) := by
      rw [Text.lines, Text.intercalate_splitBy, endLines, String.toList_ofList]
      simp only [beq_iff_eq]
    rw [hends, Text.words_intercalate (List.all_eq_true.1 rfl) (by decide),
      ← Text.words_eq_flatMap_lines]

theorem words_closeText (text : String) :
    Text.words (closeText text).toList = Text.words text.toList := by
  rw [closeText]
  split
  case isTrue h => rw [← Text.words_trimEnd text.toList, List.isEmpty_iff.1 h, String.toList_empty]
  case isFalse =>
    rw [String.toList_push, String.toList_ofList, Text.words_append_blanks (List.all_eq_true.1 rfl),
      Text.words_trimEnd]

/-- Joining the blocks, filtering and ending the lines keep all words. -/
theorem words_assemble (ending : LineEnding) (texts : List String) :
    Text.words (assemble Filter.builtin ending texts).toList =
      texts.flatMap fun t => Text.words t.toList := by
  have hfilter (text : String) :
      Filter.applyAll Filter.builtin text = Formatting.tidyWhitespace text := rfl
  have hdropped : (texts.filter (!·.isEmpty)).flatMap (fun t => Text.words t.toList) =
      texts.flatMap fun t => Text.words t.toList := by
    induction texts with
    | nil => rfl
    | cons t rest ih =>
      rw [List.filter_cons, List.flatMap_cons]
      split
      case isTrue => rw [List.flatMap_cons, ih]
      case isFalse h =>
        have hempty : t = "" := by simpa using h
        rw [hempty, ih, String.toList_empty, Text.words_nil, List.nil_append]
  rw [assemble, words_endLines, words_closeText, hfilter, Formatting.tidyWhitespace,
    String.toList_ofList, Formatting.words_tidyChars, String.toList_intercalate,
    Text.words_intercalate (List.all_eq_true.1 rfl) (by decide), List.flatMap_map, hdropped]

section Alone

variable (r : CompileRequest) (b : Block)

def isBuiltin (id : String) : Bool := (Builtin.find? id).isSome

theorem orderedBlocks_alone : (r.alone b).document.orderedBlocks = [b] :=
  List.mergeSort_singleton b

/-- The findings of a block, and its uses, its missing variables and its text after formatting. -/
def findingsIn : List Finding :=
  Draft.blockFindings (Index.ofBundles r.snippets) (r.document.effectiveVariables r.values)
    isBuiltin b

def usesIn : List ProvenanceEntry :=
  (Rendering.of (Index.ofBundles r.snippets) b).uses.map fun u => .of u.1 u.2

def missingIn : List String :=
  (substitute (Rendering.of (Index.ofBundles r.snippets) b).text
    (r.document.effectiveVariables r.values)).missing

def textIn : String :=
  (Draft.blockSegment (Index.ofBundles r.snippets) (r.document.effectiveVariables r.values)
    isBuiltin b).formatted

end Alone

theorem textIn_of_unformatted (r : CompileRequest) {b : Block} (h : namedFormatter? b = none) :
    textIn r b = (substitute (Rendering.of (Index.ofBundles r.snippets) b).text
      (r.document.effectiveVariables r.values)).result := by
  rw [textIn, Draft.blockSegment, Segment.of, h]
  rfl

theorem diagnostics_compileDocument (r : CompileRequest) :
    ∃ keys : List String, keys.Pairwise (· < ·) ∧
      (∀ key, key ∈ keys ↔ ∃ b ∈ r.document.orderedBlocks, key ∈ missingIn r b) ∧
      (compileDocument r).diagnostics =
        (r.document.orderedBlocks.flatMap fun b => (findingsIn r b).map (·.toDiagnostic)) ++
          keys.map fun key => (Finding.variableMissing key).toDiagnostic := by
  refine ⟨distinctSorted (Draft.of isBuiltin r).missing, pairwise_distinctSorted _,
    fun key => ?_, ?_⟩
  · rw [mem_distinctSorted, Draft.missing_of, List.mem_flatMap]
    simp only [List.mem_reverse]
    rfl
  · show (Draft.of isBuiltin r).allFindings.map (·.toDiagnostic) = _
    rw [Draft.allFindings, Draft.findings_of, List.map_append, List.map_flatMap, List.map_map]
    rfl

theorem missing_compileDocument (r : CompileRequest) (key : String) :
    (∃ d ∈ (compileDocument r).diagnostics, d.missingKey? = some key) ↔
      ∃ b ∈ r.document.orderedBlocks, key ∈ missingIn r b := by
  obtain ⟨keys, -, hkeys, heq⟩ := diagnostics_compileDocument r
  rw [← hkeys, heq]
  constructor
  · rintro ⟨d, hd, hkey⟩
    rcases List.mem_append.1 hd with hd | hd
    · -- the diagnostics of blocks come with other codes
      obtain ⟨b, -, hd⟩ := List.mem_flatMap.1 hd
      obtain ⟨f, hf, rfl⟩ := List.mem_map.1 hd
      obtain rfl := Finding.missingKey?_toDiagnostic.1 hkey
      exact absurd rfl (Draft.code_ne_of_mem_blockFindings hf)
    · obtain ⟨key', hmem, rfl⟩ := List.mem_map.1 hd
      cases Finding.missingKey?_toDiagnostic.1 hkey
      exact hmem
  · intro hmem
    exact ⟨_, List.mem_append_right _ (List.mem_map_of_mem hmem),
      Finding.missingKey?_toDiagnostic.2 rfl⟩

theorem provenance_compileDocument (r : CompileRequest) :
    (compileDocument r).provenance =
      firstOfEachKey (r.document.orderedBlocks.flatMap (usesIn r)) :=
  Draft.entries_of isBuiltin r

theorem markdown_compileDocument (r : CompileRequest) :
    (compileDocument r).markdown = assemble Filter.builtin r.document.lineEnding
      (r.document.orderedBlocks.map (textIn r)) := by
  show assemble Filter.builtin _ ((Draft.of isBuiltin r).segments.toList.map (·.formatted)) = _
  rw [Draft.segments_of, List.map_map]
  rfl

theorem text_compileDocument (r : CompileRequest) :
    (compileDocument r).text = " ".intercalate
      ((r.document.orderedBlocks.map fun b => Text.flatten (textIn r b)).filter (!·.isEmpty)) := by
  have hwords : Text.words (compileDocument r).markdown.toList =
      (r.document.orderedBlocks.map (textIn r)).flatMap fun t => Text.words t.toList := by
    rw [markdown_compileDocument, words_assemble]
  have htext := Text.flatten_eq_of_words hwords
  rw [List.map_map] at htext
  exact htext

section Parts

variable (r : CompileRequest) (b : Block)

theorem provenance_alone :
    (compileDocument (r.alone b)).provenance = firstOfEachKey (usesIn r b) := by
  rw [provenance_compileDocument, orderedBlocks_alone, List.flatMap_singleton]
  rfl

theorem text_alone : (compileDocument (r.alone b)).text = Text.flatten (textIn r b) := by
  rw [text_compileDocument, orderedBlocks_alone]
  show " ".intercalate ([Text.flatten (textIn r b)].filter (!·.isEmpty)) = _
  by_cases hempty : Text.flatten (textIn r b) = ""
  · simp [hempty]
  · simp [hempty]

/-- Apart from missing variables, a block alone has the findings that it has among others. -/
theorem filter_diagnostics_alone :
    (compileDocument (r.alone b)).diagnostics.filter (·.code ≠ Finding.variableMissingCode) =
      (findingsIn r b).map (·.toDiagnostic) := by
  obtain ⟨keys, -, -, heq⟩ := diagnostics_compileDocument (r.alone b)
  rw [heq, orderedBlocks_alone, List.flatMap_singleton, List.filter_append,
    List.filter_eq_self.2, List.filter_eq_nil_iff.2, List.append_nil]
  · rfl
  · intro d hd
    obtain ⟨key, -, rfl⟩ := List.mem_map.1 hd
    simp [Finding.toDiagnostic]
  · intro d hd
    obtain ⟨f, hf, rfl⟩ := List.mem_map.1 hd
    simpa using Draft.code_ne_of_mem_blockFindings hf

theorem missing_alone (key : String) :
    (∃ d ∈ (compileDocument (r.alone b)).diagnostics, d.missingKey? = some key) ↔
      key ∈ missingIn r b := by
  rw [missing_compileDocument, orderedBlocks_alone]
  simp only [List.mem_singleton, exists_eq_left]
  rfl

end Parts

/-- **Blocks compile independently.** With the result of each block alone, in render order: the
diagnostics are theirs one after the other, missing variables apart, which follow in key order,
each once; the provenance is theirs, of which the first entry for each snippet, revision and mode
is kept; and the text is their texts that are not empty, with single spaces between them. -/
theorem compileDocument_blocks (r : CompileRequest) :
    let blocks := r.document.orderedBlocks
    let result (b : Block) := compileDocument (r.alone b)
    (∃ keys : List String, keys.Pairwise (· < ·) ∧
      (∀ key, key ∈ keys ↔
        ∃ b ∈ blocks, ∃ d ∈ (result b).diagnostics, d.missingKey? = some key) ∧
      (compileDocument r).diagnostics =
        (blocks.flatMap fun b =>
          (result b).diagnostics.filter (·.code ≠ Finding.variableMissingCode)) ++
        keys.map fun key => (Finding.variableMissing key).toDiagnostic) ∧
    (compileDocument r).provenance =
      firstOfEachKey (blocks.flatMap fun b => (result b).provenance) ∧
    (compileDocument r).text =
      " ".intercalate ((blocks.map fun b => (result b).text).filter (!·.isEmpty)) := by
  intro blocks result
  refine ⟨?_, ?_, ?_⟩
  · obtain ⟨keys, hsorted, hkeys, heq⟩ := diagnostics_compileDocument r
    refine ⟨keys, hsorted, fun key => ?_, ?_⟩
    · simp only [result, missing_alone]
      exact hkeys key
    · simp only [result, filter_diagnostics_alone]
      exact heq
  · simp only [result, provenance_alone, Transclusion.firstOfEachKey_flatMap]
    exact provenance_compileDocument r
  · simp only [result, text_alone]
    exact text_compileDocument r

end Compile
end DocCompiler
