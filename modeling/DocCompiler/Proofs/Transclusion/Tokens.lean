import DocCompiler.Proofs.Transclusion.Grammar
import DocCompiler.Proofs.Transclusion.Recursion

/-! Tokens as they are written. A text falls into pieces that it is put together of again, and a
token among them is cut out between its braces. What an expansion leaves of the text is told by its
pieces: a token is replaced by what it stands for, or stays as it is and is found. -/

namespace DocCompiler.Transclusion

open Snippet (Index Resolved)
open Text (Piece)

namespace Token

/-- Two braces and `>`, two closing braces, and no opening brace between them. -/
def Delimited (source : List Char) : Prop :=
  ∃ inner, '{' ∉ inner ∧ source = '{' :: '{' :: '>' :: (inner ++ ['}', '}'])

theorem Delimited.append_ne {source s : List Char} (h : Delimited source) (hne : s ≠ [])
    (hs : s <:+ source) (hpart : s ≠ source) (after rest : List Char) :
    s ++ after ≠ '{' :: '{' :: rest := by
  obtain ⟨inner, hinner, rfl⟩ := h
  rcases List.suffix_cons_iff.1 hs with rfl | hs
  · exact absurd rfl hpart
  · rcases List.suffix_cons_iff.1 hs with rfl | hs
    · simp
    · rcases List.suffix_cons_iff.1 hs with rfl | hs
      · simp
      · obtain ⟨c, s, rfl⟩ := List.exists_cons_of_ne_nil hne
        intro heq
        have hc : c = '{' := (List.cons.inj heq).1
        have hmem : '{' ∈ inner ++ ['}', '}'] := hs.subset (hc ▸ .head _)
        exact hinner (by simpa using hmem)

theorem recognise_eq_some {cs : List Char} {t : Token} {size : Nat}
    (h : recognise cs = some (t, size)) :
    Delimited t.source.toList ∧ size = t.source.toList.length ∧ t.source.toList <+: cs := by
  obtain ⟨s, hs, hfront, rfl⟩ := recognise_eq_some_iff.1 h
  rw [hs.source]
  exact ⟨⟨s.inner, s.brace_not_mem_inner, rfl⟩, rfl, hfront⟩

theorem delimited_of_found {t : Token} {text : String} (h : .found t ∈ pieces text) :
    Delimited t.source.toList := by
  obtain ⟨cs, size, hcs⟩ := Text.exists_recognise_of_mem_scan h
  exact (recognise_eq_some hcs).1

theorem writes_recognise : Text.Recogniser.Writes recognise (·.source.toList) := by
  intro cs t size h
  obtain ⟨⟨inner, -, hsource⟩, hsize, hfront⟩ := recognise_eq_some h
  exact ⟨by simp [hsize, hsource], hsize, hfront⟩

end Token

def textOf (index : Index) (stack : List String) (p : Piece Token) : List Char :=
  (expandPieces index stack [p]).text.toList

section Expanded

variable {index : Index} {stack : List String} {t : Token} {r : Resolved}

theorem textOf_plain (c : Char) : textOf index stack (.plain c) = [c] := by
  rw [textOf, expandPieces, expandPieces, Expansion.text_append, String.toList_append]
  simp [Expansion.verbatim, Expansion.empty]

theorem textOf_missing (hr : t.target? index = none) :
    textOf index stack (.found t) = t.source.toList := by
  rw [textOf, expandPieces_missing hr, expandPieces, Expansion.text_append, String.toList_append]
  simp [Expansion.kept, Expansion.empty]

theorem textOf_cycle (hr : t.target? index = some r) (hs : r.snippet.id ∈ stack) :
    textOf index stack (.found t) = t.source.toList := by
  rw [textOf, expandPieces_cycle hr hs, expandPieces, Expansion.text_append, String.toList_append]
  simp [Expansion.kept, Expansion.empty]

theorem textOf_inside (hr : t.target? index = some r) (hs : r.snippet.id ∉ stack) :
    textOf index stack (.found t) =
      (expansionOf index (stack ++ [r.snippet.id]) r.body).text.toList := by
  rw [textOf, expandPieces_inside hr hs, expandPieces, Expansion.text_append, String.toList_append]
  simp [Expansion.inside, Expansion.empty, expansionOf]

theorem toList_text_expandPieces (pieces : List (Piece Token)) :
    (expandPieces index stack pieces).text.toList = pieces.flatMap (textOf index stack) := by
  induction pieces with
  | nil =>
    rw [expandPieces]
    rfl
  | cons p rest ih =>
    have hcons : (expandPieces index stack (p :: rest)).text.toList =
        textOf index stack p ++ (expandPieces index stack rest).text.toList := by
      cases p with
      | plain c =>
        rw [textOf_plain, expandPieces, Expansion.text_append, String.toList_append]
        simp [Expansion.verbatim]
      | found t =>
        cases hr : t.target? index with
        | none =>
          rw [textOf_missing hr, expandPieces_missing hr, Expansion.text_append,
            String.toList_append]
          rfl
        | some r =>
          by_cases hs : r.snippet.id ∈ stack
          · rw [textOf_cycle hr hs, expandPieces_cycle hr hs, Expansion.text_append,
              String.toList_append]
            rfl
          · rw [textOf_inside hr hs, expandPieces_inside hr hs, Expansion.text_append,
              String.toList_append]
            rfl
    rw [hcons, ih, List.flatMap_cons]

theorem infix_text_expansionOf {text : String} {p : Piece Token} (h : p ∈ Token.pieces text) :
    textOf index stack p <:+: (expansionOf index stack text).text.toList := by
  rw [expansionOf, toList_text_expandPieces]
  exact List.infix_of_mem_flatten (List.mem_map_of_mem h)

end Expanded

section Library

theorem target?_ofBundles_nil (t : Token) : t.target? (.ofBundles []) = none := by
  rw [Option.eq_none_iff_forall_ne_some]
  intro r hr
  obtain ⟨b, hb, -⟩ := bundle_of_target? hr
  cases hb

theorem expansionOf_ofBundles_nil (stack : List String) (text : String) :
    (expansionOf (.ofBundles []) stack text).text = text := by
  have hwritten : textOf (.ofBundles []) stack = Piece.written (·.source.toList) := by
    funext p
    cases p with
    | plain c => exact textOf_plain c
    | found t => exact textOf_missing (target?_ofBundles_nil t)
  rw [String.ext_iff, expansionOf, toList_text_expandPieces, hwritten]
  exact Text.flatMap_written_scan Token.writes_recognise text.toList

end Library

/-- A token stays in what a text expands to, and the reason for it: it resolves to nothing, or to a
snippet that is being expanded. It stands in the text itself or in a body that the text opens. -/
inductive Left (index : Index) : List String → String → Token → Finding → Prop where
  | missing {stack : List String} {text : String} {t : Token} (ht : .found t ∈ Token.pieces text)
      (hr : t.target? index = none) :
      Left index stack text t (.snippetNotFound t.identifier t.shownRevision stack)
  | cyclic {stack : List String} {text : String} {t : Token} {r : Resolved}
      (ht : .found t ∈ Token.pieces text) (hr : t.target? index = some r)
      (hs : r.snippet.id ∈ stack) :
      Left index stack text t (.snippetCycle r.snippet.id (stack ++ [r.snippet.id]))
  | inside {stack : List String} {text : String} {opened t : Token} {r : Resolved} {f : Finding}
      (ho : .found opened ∈ Token.pieces text) (hr : opened.target? index = some r)
      (hs : r.snippet.id ∉ stack) (ht : Left index (stack ++ [r.snippet.id]) r.body t f) :
      Left index stack text t f

section Left

variable {index : Index} {stack : List String} {text : String} {t : Token} {f : Finding}

theorem Left.delimited (h : Left index stack text t f) : Token.Delimited t.source.toList := by
  induction h with
  | missing ht | cyclic ht => exact Token.delimited_of_found ht
  | inside _ _ _ _ ih => exact ih

theorem Left.infix_text (h : Left index stack text t f) :
    t.source.toList <:+: (expansionOf index stack text).text.toList := by
  induction h with
  | missing ht hr =>
    rw [← textOf_missing hr]
    exact infix_text_expansionOf ht
  | cyclic ht hr hs =>
    rw [← textOf_cycle hr hs]
    exact infix_text_expansionOf ht
  | inside ho hr hs _ ih =>
    refine .trans ih ?_
    rw [← textOf_inside hr hs]
    exact infix_text_expansionOf ho

theorem exists_left_of_mem_findings {pieces : List (Piece Token)}
    (hf : f ∈ (expandPieces index stack pieces).findings)
    (hpieces : pieces ⊆ Token.pieces text) : ∃ t, Left index stack text t f := by
  induction stack, pieces using expandPieces.induct index generalizing text with
  | case1 stack => simp at hf
  | case2 stack c rest ih =>
    rw [expandPieces] at hf
    exact ih hf (List.subset_of_cons_subset hpieces)
  | case3 stack t rest hr ih =>
    rw [expandPieces_missing hr] at hf
    rcases List.mem_cons.1 hf with rfl | hf
    · exact ⟨t, .missing (hpieces (.head _)) hr⟩
    · exact ih hf (List.subset_of_cons_subset hpieces)
  | case4 stack t rest r hr hs ih =>
    rw [expandPieces_cycle hr hs] at hf
    rcases List.mem_cons.1 hf with rfl | hf
    · exact ⟨t, .cyclic (hpieces (.head _)) hr hs⟩
    · exact ih hf (List.subset_of_cons_subset hpieces)
  | case5 stack opened rest r hr hs ih_body ih =>
    rw [expandPieces_inside hr hs] at hf
    rcases List.mem_append.1 hf with hf | hf
    · obtain ⟨t, ht⟩ := ih_body hf (List.Subset.refl _)
      exact ⟨t, .inside (hpieces (.head _)) hr hs ht⟩
    · exact ih hf (List.subset_of_cons_subset hpieces)

/-- What an expansion finds are the reasons for which tokens stay. -/
theorem mem_findings_expansionOf :
    f ∈ (expansionOf index stack text).findings ↔ ∃ t, Left index stack text t f := by
  refine ⟨fun hf => exists_left_of_mem_findings hf (List.Subset.refl _), ?_⟩
  rintro ⟨t, ht⟩
  induction ht with
  | missing ht hr =>
    refine mem_findings_expandPieces.2 ⟨_, ht, ?_⟩
    rw [expandPieces_missing hr]
    exact List.mem_cons_self ..
  | cyclic ht hr hs =>
    refine mem_findings_expandPieces.2 ⟨_, ht, ?_⟩
    rw [expandPieces_cycle hr hs]
    exact List.mem_cons_self ..
  | inside ho hr hs _ ih =>
    refine mem_findings_expandPieces.2 ⟨_, ho, ?_⟩
    rw [expandPieces_inside hr hs]
    exact List.mem_append_left _ ih

end Left

end DocCompiler.Transclusion
