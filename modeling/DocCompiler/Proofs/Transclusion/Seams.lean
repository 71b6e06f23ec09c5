import DocCompiler.Proofs.Transclusion.Spans

/-! Where bodies have been put into a text. What an expansion comes to is put together of fragments:
pieces that stood side by side in the text or in one body, up to where another body is put in. The
tokens within fragments are those that stay, each for a reason that is reported. Bodies are not
looked at together with what is around them, so any other token of the result lies across a seam,
which is where a body that was put in begins or ends. -/

namespace DocCompiler.Transclusion

open Snippet (Index Resolved)
open Text (Piece)

def glue (p : Piece Token) : List (List (Piece Token)) → List (List (Piece Token))
  | [] => [[p]]
  | f :: rest => (p :: f) :: rest

theorem flatten_glue (p : Piece Token) (fs : List (List (Piece Token))) :
    (glue p fs).flatten = p :: fs.flatten := by
  cases fs <;> rfl

/-- The pieces that stay in an expansion, cut wherever a body that is put in begins or ends. -/
def fragments (index : Index) (stack : List String) :
    List (Piece Token) → List (List (Piece Token))
  | [] => [[]]
  | .plain c :: rest => glue (.plain c) (fragments index stack rest)
  | .found t :: rest =>
    match _hr : t.target? index with
    | none => glue (.found t) (fragments index stack rest)
    | some r =>
      if _hs : r.snippet.id ∈ stack then glue (.found t) (fragments index stack rest)
      else
        [] :: (fragments index (stack ++ [r.snippet.id]) (Token.pieces r.body) ++
          fragments index stack rest)
termination_by pieces => (unentered index stack, pieces.length)
decreasing_by
  · exact .right _ (Nat.lt_succ_self _)
  · exact .right _ (Nat.lt_succ_self _)
  · exact .right _ (Nat.lt_succ_self _)
  · exact .left _ _ (unentered_lt _hr _hs)
  · exact .right _ (Nat.lt_succ_self _)

/-- A token that stays: it resolves to nothing, or to a snippet that is being expanded. -/
def Stays (index : Index) (stack : List String) (t : Token) : Prop :=
  ∀ r, t.target? index = some r → r.snippet.id ∈ stack

section Equations

variable {index : Index} {stack : List String} {t : Token} {r : Resolved}
  {rest : List (Piece Token)}

theorem fragments_stays (h : Stays index stack t) :
    fragments index stack (.found t :: rest) = glue (.found t) (fragments index stack rest) := by
  rw [fragments]
  split
  case h_1 => rfl
  case h_2 r hr => exact dif_pos (h r hr)

theorem fragments_inside (hr : t.target? index = some r) (hs : r.snippet.id ∉ stack) :
    fragments index stack (.found t :: rest) =
      [] :: (fragments index (stack ++ [r.snippet.id]) (Token.pieces r.body) ++
        fragments index stack rest) := by
  rw [fragments]
  split
  case h_1 hr' => rw [hr] at hr'; cases hr'
  case h_2 r' hr' =>
    obtain rfl : r = r' := Option.some.inj (hr.symm.trans hr')
    exact dif_neg hs

theorem exists_expandPieces_stays (h : Stays index stack t) (rest : List (Piece Token)) :
    ∃ f, expandPieces index stack (.found t :: rest) =
      .kept t f ++ expandPieces index stack rest := by
  cases hr : t.target? index with
  | none => exact ⟨_, expandPieces_missing hr⟩
  | some r => exact ⟨_, expandPieces_cycle hr (h r hr)⟩

end Equations

/-- Induction along an expansion: a token stays, or its body is expanded before the rest. -/
theorem expansion_induction (index : Index) {motive : List String → List (Piece Token) → Prop}
    (nil : ∀ stack, motive stack [])
    (plain : ∀ stack c rest, motive stack rest → motive stack (.plain c :: rest))
    (stays : ∀ stack t rest, Stays index stack t → motive stack rest →
      motive stack (.found t :: rest))
    (inside : ∀ stack t rest r, t.target? index = some r → r.snippet.id ∉ stack →
      motive (stack ++ [r.snippet.id]) (Token.pieces r.body) → motive stack rest →
      motive stack (.found t :: rest))
    (stack : List String) (pieces : List (Piece Token)) : motive stack pieces := by
  induction stack, pieces using expandPieces.induct index with
  | case1 stack => exact nil stack
  | case2 stack c rest ih => exact plain stack c rest ih
  | case3 stack t rest hr ih =>
    exact stays stack t rest (fun r hr' => by rw [hr] at hr'; cases hr') ih
  | case4 stack t rest r hr hs ih =>
    refine stays stack t rest (fun r' hr' => ?_) ih
    obtain rfl : r = r' := Option.some.inj (hr.symm.trans hr')
    exact hs
  | case5 stack t rest r hr hs ih_body ih => exact inside stack t rest r hr hs ih_body ih

section Fragments

variable {index : Index} {stack : List String} {pieces : List (Piece Token)}

theorem written_flatten_fragments (index : Index) (stack : List String)
    (pieces : List (Piece Token)) :
    Token.written (fragments index stack pieces).flatten =
      (expandPieces index stack pieces).text.toList := by
  induction stack, pieces using expansion_induction index with
  | nil stack =>
    rw [fragments, expandPieces]
    rfl
  | plain stack c rest ih =>
    rw [fragments, expandPieces, flatten_glue, Token.written, List.flatMap_cons, ← Token.written,
      ih, Expansion.text_append, String.toList_append]
    simp [Expansion.verbatim, Piece.written]
  | stays stack t rest h ih =>
    obtain ⟨f, hexpand⟩ := exists_expandPieces_stays h rest
    rw [fragments_stays h, hexpand, flatten_glue, Token.written, List.flatMap_cons, ← Token.written,
      ih, Expansion.text_append, String.toList_append]
    rfl
  | inside stack t rest r hr hs ih_body ih =>
    rw [fragments_inside hr hs, expandPieces_inside hr hs, List.flatten_cons, List.nil_append,
      List.flatten_append, Token.written_append, ih_body, ih, Expansion.text_append,
      String.toList_append]
    rfl

theorem length_findings (index : Index) (stack : List String) (pieces : List (Piece Token)) :
    (expandPieces index stack pieces).findings.length =
      ((fragments index stack pieces).flatten.filterMap Piece.found?).length := by
  induction stack, pieces using expansion_induction index with
  | nil stack =>
    rw [fragments, expandPieces]
    rfl
  | plain stack c rest ih =>
    rw [fragments, expandPieces, flatten_glue, Expansion.findings_append]
    exact ih
  | stays stack t rest h ih =>
    obtain ⟨f, hexpand⟩ := exists_expandPieces_stays h rest
    rw [fragments_stays h, hexpand, flatten_glue, Expansion.findings_append]
    simp [Expansion.kept, Piece.found?, ih, Nat.add_comm]
  | inside stack t rest r hr hs ih_body ih =>
    rw [fragments_inside hr hs, expandPieces_inside hr hs, List.flatten_cons, List.nil_append,
      List.flatten_append, List.filterMap_append, List.length_append, ← ih_body, ← ih,
      Expansion.findings_append, List.length_append]
    rfl

/-- Fragments that each stood in one text. The first of them is the beginning of the pieces that
they come from. -/
structure FromTexts (pieces : List (Piece Token)) (fs : List (List (Piece Token))) : Prop where
  first : ∃ f rest, fs = f :: rest ∧ f <+: pieces
  stood : ∀ f ∈ fs, ∃ text, f <:+: Token.pieces text

theorem FromTexts.glue {p : Piece Token} {fs : List (List (Piece Token))} {text : String}
    (h : FromTexts pieces fs) (hp : p :: pieces <:+ Token.pieces text) :
    FromTexts (p :: pieces) (Transclusion.glue p fs) := by
  obtain ⟨⟨f, rest, rfl, hf⟩, hstood⟩ := h
  have hfront : p :: f <+: p :: pieces := List.cons_prefix_cons.2 ⟨rfl, hf⟩
  refine ⟨⟨p :: f, rest, rfl, hfront⟩, fun f' hf' => ?_⟩
  rcases List.mem_cons.1 hf' with rfl | hf'
  · exact ⟨text, hfront.isInfix.trans hp.isInfix⟩
  · exact hstood f' (.tail _ hf')

theorem fromTexts_fragments (index : Index) (stack : List String) (pieces : List (Piece Token)) :
    ∀ text, pieces <:+ Token.pieces text → FromTexts pieces (fragments index stack pieces) := by
  induction stack, pieces using expansion_induction index with
  | nil stack =>
    intro text _
    rw [fragments]
    refine ⟨⟨[], [], rfl, List.prefix_refl _⟩, fun f hf => ⟨text, ?_⟩⟩
    rw [List.mem_singleton.1 hf]
    exact List.nil_infix
  | plain stack c rest ih =>
    intro text htext
    rw [fragments]
    exact (ih text ((List.suffix_cons _ _).trans htext)).glue htext
  | stays stack t rest h ih =>
    intro text htext
    rw [fragments_stays h]
    exact (ih text ((List.suffix_cons _ _).trans htext)).glue htext
  | inside stack t rest r hr hs ih_body ih =>
    intro text htext
    have hbody := ih_body r.body (List.suffix_refl _)
    have hrest := ih text ((List.suffix_cons _ _).trans htext)
    rw [fragments_inside hr hs]
    refine ⟨⟨[], _, rfl, List.nil_prefix⟩, fun f hf => ?_⟩
    rcases List.mem_cons.1 hf with rfl | hf
    · exact ⟨text, List.nil_infix⟩
    · exact (List.mem_append.1 hf).elim (hbody.stood f) (hrest.stood f)

end Fragments

namespace Token

theorem stable_recognise : Text.Recogniser.Stable recognise (·.source.toList) := by
  intro cs t size h after
  obtain ⟨s, hs, -, rfl⟩ := recognise_eq_some_iff.1 h
  exact recognise_eq_some_iff.2 ⟨s, hs, hs.source ▸ List.prefix_append _ _, rfl⟩

/-- A token lies across a place: it has begun before it, and ends behind it. -/
def Located.Across (l : Located) (place : Nat) : Prop := l.start < place ∧ place < l.stop

instance (l : Located) (place : Nat) : Decidable (l.Across place) :=
  inferInstanceAs (Decidable (_ ∧ _))

section Append

variable {start : Nat} {front back : List Char} {l : Located}

theorem stop_le (h : l ∈ locateFrom start (Text.scan recognise front)) :
    l.stop ≤ start + (String.ofList front).utf8ByteSize := by
  obtain ⟨s, before, after, -, rfl, hstart, hstop⟩ := mem_locateFrom_scan.1 h
  simp only [String.ofList_append, String.utf8ByteSize_append, String.ofList_toList]
  omega

theorem le_start {cs : List Char} (h : l ∈ locateFrom start (Text.scan recognise cs)) :
    start ≤ l.start := by
  obtain ⟨s, before, after, -, -, hstart, -⟩ := mem_locateFrom_scan.1 h
  omega

theorem utf8ByteSize_ofList_pos {cs : List Char} (h : cs ≠ []) :
    0 < (String.ofList cs).utf8ByteSize :=
  Nat.pos_of_ne_zero fun hzero => h (by simpa using String.utf8ByteSize_eq_zero_iff.1 hzero)

theorem cases_of_append_eq {before part after : List Char}
    (h : before ++ (part ++ after) = front ++ back) :
    (∃ more, before = front ++ more ∧ back = more ++ (part ++ after)) ∨
      (∃ rest, front = before ++ (part ++ rest) ∧ after = rest ++ back) ∨
      ∃ more rest, more ≠ [] ∧ rest ≠ [] ∧ part = more ++ rest ∧ front = before ++ more := by
  rcases List.append_eq_append_iff.1 h with ⟨more, rfl, hback⟩ | ⟨more, rfl, hrest⟩
  · by_cases hmore : more = []
    · subst hmore
      exact .inl ⟨[], by simp, hback.symm⟩
    · rcases List.append_eq_append_iff.1 hback with ⟨rest, rfl, hafter⟩ | ⟨rest, rfl, hafter⟩
      · exact .inr (.inl ⟨rest, rfl, hafter⟩)
      · by_cases hempty : rest = []
        · subst hempty
          exact .inr (.inl ⟨[], by simp, by simpa using hafter.symm⟩)
        · exact .inr (.inr ⟨more, rest, hmore, hempty, rfl, rfl⟩)
  · exact .inl ⟨more, rfl, hrest⟩

/-- The tokens of two texts put together are those of both, but for those across the place where
they meet. -/
theorem mem_locateFrom_scan_append (start : Nat) (front back : List Char) (l : Located) :
    (l ∈ locateFrom start (Text.scan recognise (front ++ back)) ∧
        ¬ l.Across (start + (String.ofList front).utf8ByteSize)) ↔
      l ∈ locateFrom start (Text.scan recognise front) ∨
        l ∈ locateFrom (start + (String.ofList front).utf8ByteSize) (Text.scan recognise back) := by
  constructor
  · rintro ⟨hl, hacross⟩
    obtain ⟨s, before, after, hs, htext, hstart, hstop⟩ := mem_locateFrom_scan.1 hl
    rcases cases_of_append_eq htext.symm with ⟨more, rfl, hback⟩ | ⟨rest, hfront, -⟩ |
      ⟨more, rest, hmore, hrest, hsource, rfl⟩
    · refine .inr (mem_locateFrom_scan.2 ⟨s, more, after, hs, hback, ?_, hstop⟩)
      rw [hstart, String.ofList_append, String.utf8ByteSize_append, Nat.add_assoc]
    · exact .inl (mem_locateFrom_scan.2 ⟨s, before, rest, hs, hfront, hstart, hstop⟩)
    · -- some of it stands on either side
      refine absurd ?_ hacross
      have hsize : l.token.source.utf8ByteSize =
          (String.ofList more).utf8ByteSize + (String.ofList rest).utf8ByteSize := by
        rw [← String.utf8ByteSize_append, ← String.ofList_append, ← hsource, String.ofList_toList]
      have hplace : (String.ofList (before ++ more)).utf8ByteSize =
          (String.ofList before).utf8ByteSize + (String.ofList more).utf8ByteSize := by
        rw [String.ofList_append, String.utf8ByteSize_append]
      have := utf8ByteSize_ofList_pos hmore
      have := utf8ByteSize_ofList_pos hrest
      exact ⟨by omega, by omega⟩
  · rintro (hl | hl)
    · have hstop := stop_le hl
      obtain ⟨s, before, after, hs, rfl, hstart, hsize⟩ := mem_locateFrom_scan.1 hl
      refine ⟨mem_locateFrom_scan.2 ⟨s, before, after ++ back, hs, by simp, hstart, hsize⟩, ?_⟩
      exact fun hacross => absurd hacross.2 (by omega)
    · have hle := le_start hl
      obtain ⟨s, before, after, hs, rfl, hstart, hsize⟩ := mem_locateFrom_scan.1 hl
      refine ⟨mem_locateFrom_scan.2 ⟨s, front ++ before, after, hs, by simp, ?_, hsize⟩, ?_⟩
      · rw [hstart, String.ofList_append, String.utf8ByteSize_append, Nat.add_assoc]
      · exact fun hacross => absurd hacross.1 (by omega)

end Append

def seamsFrom (start : Nat) : List (List (Piece Token)) → List Nat
  | [] | [_] => []
  | f :: g :: rest => (start + byteSize f) :: seamsFrom (start + byteSize f) (g :: rest)

theorem le_of_mem_seamsFrom {start seam : Nat} {fs : List (List (Piece Token))}
    (h : seam ∈ seamsFrom start fs) : start ≤ seam := by
  induction fs generalizing start with
  | nil => cases h
  | cons f rest ih =>
    cases rest with
    | nil => cases h
    | cons g rest =>
      rcases List.mem_cons.1 h with rfl | h
      · exact Nat.le_add_right _ _
      · exact (Nat.le_add_right _ _).trans (ih h)

def locateFragments (start : Nat) : List (List (Piece Token)) → List Located
  | [] => []
  | f :: rest => locateFrom start f ++ locateFragments (start + byteSize f) rest

theorem length_locateFrom (start : Nat) (ps : List (Piece Token)) :
    (locateFrom start ps).length = (ps.filterMap Piece.found?).length := by
  induction ps generalizing start with
  | nil => rfl
  | cons p ps ih =>
    cases p with
    | plain c => exact ih _
    | found t => exact congrArg (· + 1) (ih _)

theorem length_locateFragments (start : Nat) (fs : List (List (Piece Token))) :
    (locateFragments start fs).length = (fs.flatten.filterMap Piece.found?).length := by
  induction fs generalizing start with
  | nil => rfl
  | cons f rest ih =>
    rw [locateFragments, List.length_append, length_locateFrom, ih, List.flatten_cons,
      List.filterMap_append, List.length_append]

def Scanned (fs : List (List (Piece Token))) : Prop :=
  ∀ f ∈ fs, Text.scan recognise (written f) = f

section Scanned

variable {start : Nat} {fs : List (List (Piece Token))} {l : Located}

theorem mem_locateFragments (h : Scanned fs) :
    l ∈ locateFragments start fs ↔
      l ∈ locateFrom start (Text.scan recognise (written fs.flatten)) ∧
        ∀ seam ∈ seamsFrom start fs, ¬ l.Across seam := by
  induction fs generalizing start with
  | nil => simp [locateFragments, locateFrom, seamsFrom]
  | cons f rest ih =>
    obtain ⟨hf, hrest⟩ := List.forall_mem_cons.1 h
    have hends : l ∈ locateFrom start f → l.stop ≤ start + byteSize f := fun hl =>
      stop_le (hf.symm ▸ hl)
    have happend := mem_locateFrom_scan_append start (written f) (written rest.flatten) l
    rw [← written_append, ← List.flatten_cons, hf, ← byteSize] at happend
    rw [locateFragments, List.mem_append, ih hrest]
    cases rest with
    | nil =>
      rw [List.flatten_singleton, hf]
      simp [seamsFrom, locateFrom]
    | cons g rest =>
      rw [seamsFrom, List.forall_mem_cons, ← and_assoc, happend, or_and_right]
      refine or_congr_left ⟨fun hl => ⟨hl, fun seam hseam hacross => ?_⟩, And.left⟩
      -- it ends with the first fragment, and the other seams are behind it
      have hstop := hends hl
      have hle := le_of_mem_seamsFrom hseam
      exact absurd hacross.2 (by omega)

theorem pairwise_locateFragments (h : Scanned fs) :
    (locateFragments start fs).Pairwise fun a b => a.stop ≤ b.start := by
  induction fs generalizing start with
  | nil => exact .nil
  | cons f rest ih =>
    obtain ⟨hf, hrest⟩ := List.forall_mem_cons.1 h
    refine List.pairwise_append.2 ⟨pairwise_locateFrom _ _, ih hrest, fun a ha b hb => ?_⟩
    have hstop : a.stop ≤ start + byteSize f := stop_le (hf.symm ▸ ha)
    exact hstop.trans (le_start ((mem_locateFragments hrest).1 hb).1)

theorem nodup_of_pairwise {ls : List Located} (hne : ∀ l ∈ ls, l.start < l.stop)
    (h : ls.Pairwise fun a b => a.stop ≤ b.start) : ls.Nodup := by
  refine List.Pairwise.imp_of_mem (fun {a b} ha _ hab => ?_) h
  rintro rfl
  exact absurd (hne a ha) (by omega)

theorem length_uncut (h : Scanned fs) (start : Nat) :
    ((locateFrom start (Text.scan recognise (written fs.flatten))).filter fun l =>
      ∀ seam ∈ seamsFrom start fs, ¬ l.Across seam).length =
        (fs.flatten.filterMap Piece.found?).length := by
  rw [← length_locateFragments start]
  have hmem (l : Located) : l ∈ (locateFrom start (Text.scan recognise (written fs.flatten))).filter
      (fun l => ∀ seam ∈ seamsFrom start fs, ¬ l.Across seam) ↔ l ∈ locateFragments start fs := by
    rw [List.mem_filter, decide_eq_true_eq, mem_locateFragments h]
  refine ((List.perm_ext_iff_of_nodup ?_ ?_).2 hmem).length_eq
  · exact (nodup_of_pairwise (fun _ => start_lt_stop) (pairwise_locateFrom _ _)).filter _
  · exact nodup_of_pairwise (fun l hl => start_lt_stop ((mem_locateFragments h).1 hl).1)
      (pairwise_locateFragments h)

end Scanned

end Token

/-- The places in what a text expands to, in bytes, where a body that was put in begins or ends. -/
def seams (index : Index) (text : String) : List Nat :=
  Token.seamsFrom 0 (fragments index [] (Token.pieces text))

theorem scanned_fragments (index : Index) (stack : List String) (text : String) :
    Token.Scanned (fragments index stack (Token.pieces text)) := by
  intro f hf
  obtain ⟨text', hf⟩ :=
    (fromTexts_fragments index stack _ text (List.suffix_refl _)).stood f hf
  exact Text.scan_written_of_infix Token.writes_recognise Token.stable_recognise hf

theorem length_uncut_expansionOf (index : Index) (text : String) :
    ((Token.located (expansionOf index [] text).text).filter fun l =>
      ∀ seam ∈ seams index text, ¬ l.Across seam).length =
        (expansionOf index [] text).findings.length := by
  rw [Token.located, Token.pieces, expansionOf, ← written_flatten_fragments, length_findings]
  exact Token.length_uncut (scanned_fragments index [] text) 0

/-- **Nothing is left unexpanded silently, but across seams.** An expansion appends one finding for
each token of its result that does not lie across a seam; so if it finds nothing, every token of its
result lies across the beginning or the end of a body that was put in. -/
theorem expand_findings_uncut (index : Index) (text : String) (log : ProvenanceLog)
    (findings : Array Finding) :
    let result := expand index text (.fresh log findings)
    let tokens := Token.located result.1
    result.2.findings.size = findings.size +
        (tokens.filter fun l => ∀ seam ∈ seams index text, ¬ l.Across seam).length ∧
      (result.2.findings = findings →
        ∀ l ∈ tokens, ∃ seam ∈ seams index text, l.Across seam) := by
  intro result tokens
  have hfresh : (Context.fresh log findings).Agrees := Context.agrees_empty
  obtain ⟨onStack, -, heq, -⟩ := exists_expand_eq index text hfresh
  have hsize : result.2.findings.size = findings.size +
      (tokens.filter fun l => ∀ seam ∈ seams index text, ¬ l.Across seam).length := by
    have htext : result.1 = (expansionOf index [] text).text := congrArg Prod.fst heq
    have hfindings : result.2.findings = findings ++ (expansionOf index [] text).findings :=
      congrArg (·.2.findings) heq
    have hcount : result.2.findings.size =
        findings.size + (expansionOf index [] text).findings.length := by
      rw [hfindings, ← Array.length_toList]
      simp
    rw [hcount, ← length_uncut_expansionOf]
    simp only [tokens, htext]
  refine ⟨hsize, fun hnone l hl => ?_⟩
  rw [hnone] at hsize
  by_contra hcut
  have huncut : ∀ seam ∈ seams index text, ¬ l.Across seam := fun seam hseam hacross =>
    hcut ⟨seam, hseam, hacross⟩
  have hmem : l ∈ tokens.filter fun l => ∀ seam ∈ seams index text, ¬ l.Across seam :=
    List.mem_filter.2 ⟨hl, decide_eq_true huncut⟩
  have hpos := List.length_pos_of_mem hmem
  omega

def opening : Index := .ofBundles [.single "b" "\x7b\x7b>"]

def halfToken : String := "\x7b\x7b> b\x7d\x7d a\x7d\x7d"

theorem expansionOf_halfToken :
    (expansionOf opening [] halfToken).text = "\x7b\x7b> a\x7d\x7d" ∧
      (expansionOf opening [] halfToken).findings = [] := by
  have houter : Token.pieces halfToken = [.found ⟨"\x7b\x7b> b\x7d\x7d", "b", none⟩, .plain ' ',
    .plain 'a', .plain '}', .plain '}'] := rfl
  have hinner : Token.pieces "\x7b\x7b>" = [.plain '{', .plain '{', .plain '>'] := rfl
  have hopened : (⟨"\x7b\x7b> b\x7d\x7d", "b", none⟩ : Token).target? opening =
      some ⟨(Snippet.Bundle.single "b" "\x7b\x7b>").snippet, .sealed 1 none "\x7b\x7b>" ∅⟩ := by
    show opening.resolve? "b" none = _
    rw [Index.resolve?, opening.byId_eq]
    rfl
  have hexpand : expansionOf opening [] halfToken = .inside
      ⟨(Snippet.Bundle.single "b" "\x7b\x7b>").snippet, .sealed 1 none "\x7b\x7b>" ∅⟩
        (expandPieces opening ["b"] [.plain '{', .plain '{', .plain '>']) ++
      expandPieces opening [] [.plain ' ', .plain 'a', .plain '}', .plain '}'] := by
    rw [expansionOf, houter, expandPieces_inside hopened List.not_mem_nil, ← hinner]
    rfl
  rw [hexpand]
  simp only [expandPieces]
  exact ⟨rfl, rfl⟩

theorem expand_opening_halfToken :
    (expand opening halfToken .empty).1 = "\x7b\x7b> a\x7d\x7d" ∧
      (expand opening halfToken .empty).2.findings = #[] := by
  obtain ⟨onStack, -, heq, -⟩ := exists_expand_eq opening halfToken Context.agrees_empty
  obtain ⟨htext, hfindings⟩ := expansionOf_halfToken
  rw [heq]
  refine ⟨htext, ?_⟩
  show #[] ++ (expansionOf opening [] halfToken).findings = #[]
  rw [hfindings]
  rfl

/-- The result is a token, and nothing has been found about it. -/
theorem expand_halfToken :
    (Token.located (expand opening halfToken .empty).1).length = 1 ∧
      (expand opening halfToken .empty).2.findings = #[] := by
  obtain ⟨htext, hfindings⟩ := expand_opening_halfToken
  refine ⟨?_, hfindings⟩
  rw [htext]
  rfl

theorem expand_findings_uncut_halfToken :
    let result := expand opening halfToken (.fresh .empty #[])
    result.2.findings = #[] ∧
      ∀ l ∈ Token.located result.1, ∃ seam ∈ seams opening halfToken, l.Across seam := by
  have hnone : (expand opening halfToken (.fresh .empty #[])).2.findings = #[] :=
    expand_opening_halfToken.2
  exact ⟨hnone, (expand_findings_uncut opening halfToken .empty #[]).2 hnone⟩

end DocCompiler.Transclusion
