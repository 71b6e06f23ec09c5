import DocCompiler.Document
import DocCompiler.Formatting.Filter
import DocCompiler.Proofs.Text.Words
import Mathlib.Data.List.DropRight

/-! The layout of a text: its lines, how they end, and the blank ones among them. A text in normal
form is a list of tidy lines, each closed by a line ending; the whitespace filter and the trimming of
the end bring every text into that form and leave it as it is in it. -/

namespace DocCompiler.Text

section Trimming

theorem trimEnd_eq_rdropWhile (cs : List Char) : trimEnd cs = cs.rdropWhile isBlank := rfl

theorem trimEnd_append (a b : List Char) :
    trimEnd (a ++ b) = if (trimEnd b).isEmpty then trimEnd a else a ++ trimEnd b := by
  rw [trimEnd, List.reverse_append, List.dropWhile_append, trimEnd, List.isEmpty_reverse]
  split
  · rfl
  · rw [List.reverse_append, List.reverse_reverse]

theorem trimEnd_eq_nil_iff {cs : List Char} : trimEnd cs = [] ↔ ∀ c ∈ cs, isBlank c = true :=
  List.rdropWhile_eq_nil_iff

theorem trimEnd_cons {c : Char} (hc : isBlank c = false) (cs : List Char) :
    trimEnd (c :: cs) = c :: trimEnd cs := by
  have hsingle : trimEnd [c] = [c] := by simp [trimEnd, hc]
  rw [← List.singleton_append, trimEnd_append, hsingle]
  split
  case isTrue hempty => rw [List.isEmpty_iff.1 hempty]
  case isFalse => rfl

theorem trimEnd_append_blank (cs : List Char) {c : Char} (hc : isBlank c = true) :
    trimEnd (cs ++ [c]) = trimEnd cs := List.rdropWhile_concat_pos isBlank cs c hc

theorem trimStart_cons_of_blank {c : Char} (hc : isBlank c = true) (cs : List Char) :
    trimStart (c :: cs) = trimStart cs := List.dropWhile_cons_of_pos hc

theorem trim_eq_trimStart_trimEnd (cs : List Char) : trim cs = trimStart (trimEnd cs) := by
  rw [trim]
  induction cs with
  | nil => rfl
  | cons c cs ih =>
    cases hc : isBlank c with
    | false => rw [trimStart_cons hc, trimEnd_cons hc, trimStart_cons hc]
    | true =>
      rw [trimStart_cons_of_blank hc, ih, ← List.singleton_append, trimEnd_append]
      split
      case isTrue hempty =>
        have hsingle : trimEnd [c] = [] := trimEnd_eq_nil_iff.2 (by simpa using hc)
        rw [List.isEmpty_iff.1 hempty, hsingle]
      case isFalse => exact (trimStart_cons_of_blank hc _).symm

theorem trim_blanks {before after : List Char} (hbefore : ∀ c ∈ before, isBlank c = true)
    (hafter : ∀ c ∈ after, isBlank c = true) (cs : List Char) :
    trim (before ++ cs ++ after) = trim cs := by
  have hend : trimEnd (before ++ cs ++ after) = trimEnd (before ++ cs) := by
    rw [trimEnd_append, trimEnd_eq_nil_iff.2 hafter]
    rfl
  rw [trim_eq_trimStart_trimEnd, hend, ← trim_eq_trimStart_trimEnd, trim, trimStart,
    List.dropWhile_append_of_pos hbefore]
  rfl

def Trimmed (cs : List Char) : Prop := ∀ c ∈ cs.getLast?, isBlank c = false

theorem trimmed_nil : Trimmed [] := nofun

theorem trimmed_trimEnd (cs : List Char) : Trimmed (trimEnd cs) := by
  intro c hc
  obtain ⟨before, heq⟩ := List.getLast?_eq_some_iff.1 hc
  have hne : cs.rdropWhile isBlank ≠ [] := by
    rw [← trimEnd_eq_rdropWhile, heq]
    exact List.append_ne_nil_of_right_ne_nil _ (List.cons_ne_nil c [])
  have hlast := List.rdropWhile_last_not isBlank cs hne
  simp only [← trimEnd_eq_rdropWhile, heq, List.getLast_append_singleton] at hlast
  exact Bool.eq_false_iff.2 hlast

theorem Trimmed.trimEnd_eq {cs : List Char} (h : Trimmed cs) : trimEnd cs = cs := by
  refine List.rdropWhile_eq_self_iff.2 fun hne => ?_
  rw [h _ (List.getLast?_eq_some_getLast hne)]
  exact Bool.false_ne_true

theorem Trimmed.of_suffix {cs l : List Char} (hl : Trimmed l) (h : cs <:+ l) : Trimmed cs := by
  obtain ⟨before, rfl⟩ := h
  intro c hc
  exact hl c (by simp [List.getLast?_append, Option.mem_def.1 hc])

theorem not_mem_trimEnd {cs : List Char} {c : Char} (h : c ∉ cs) : c ∉ trimEnd cs := fun hc =>
  h ((List.rdropWhile_prefix isBlank cs).subset hc)

theorem Trimmed.eq_nil {cs : List Char} (h : Trimmed cs) (hblank : ∀ c ∈ cs, isBlank c = true) :
    cs = [] := by
  rw [← h.trimEnd_eq]
  exact trimEnd_eq_nil_iff.2 hblank

end Trimming

section Lines

variable {l : List Char} {ls : List (List Char)}

theorem splitBy_append {isSep : Char → Bool} (h : ∀ c ∈ l, isSep c = false) (cs : List Char) :
    splitBy isSep (l ++ cs) = (splitBy isSep cs).modifyHead (l ++ ·) := by
  induction l with
  | nil => exact (congrFun List.modifyHead_id _).symm
  | cons c l ih =>
    rw [List.cons_append, splitBy_cons, if_neg (by simp [h c (.head _)]),
      ih fun d hd => h d (.tail _ hd), List.modifyHead_modifyHead]
    rfl

theorem splitBy_eq_singleton {isSep : Char → Bool} (h : ∀ c ∈ l, isSep c = false) :
    splitBy isSep l = [l] := by
  have hsplit := splitBy_append h []
  rwa [List.append_nil, splitBy_nil, List.modifyHead_cons, List.append_nil] at hsplit

theorem not_sep_of_mem_splitBy {isSep : Char → Bool} (cs : List Char) :
    ∀ part ∈ splitBy isSep cs, ∀ c ∈ part, isSep c = false := by
  induction cs with
  | nil => simp
  | cons d cs ih =>
    rw [splitBy_cons]
    split
    case isTrue => exact List.forall_mem_cons.2 ⟨nofun, ih⟩
    case isFalse hd =>
      obtain ⟨p, ps, hparts⟩ := List.exists_cons_of_ne_nil (splitBy_ne_nil isSep cs)
      rw [hparts, List.forall_mem_cons] at ih
      rw [hparts]
      refine List.forall_mem_cons.2 ⟨List.forall_mem_cons.2 ⟨?_, ih.1⟩, ih.2⟩
      exact Bool.eq_false_iff.2 hd

theorem lines_append_cons (a b : List Char) : lines (a ++ '\n' :: b) = lines a ++ lines b :=
  splitBy_append_cons rfl a b

theorem lines_of_not_mem (h : '\n' ∉ l) : lines l = [l] :=
  splitBy_eq_singleton fun c hc => by simpa using fun heq : c = '\n' => h (heq ▸ hc)

theorem not_mem_of_mem_lines {cs : List Char} (h : l ∈ lines cs) : '\n' ∉ l := fun hmem => by
  simpa using not_sep_of_mem_splitBy cs l h '\n' hmem

theorem length_lines (cs : List Char) : (lines cs).length = cs.count '\n' + 1 := by
  induction cs with
  | nil => rfl
  | cons c cs ih =>
    rw [lines, splitBy_cons, List.count_cons]
    split
    case isTrue => exact congrArg (· + 1) ih
    case isFalse =>
      rw [List.length_modifyHead]
      exact ih

theorem length_lines_eq_one_iff : (lines l).length = 1 ↔ '\n' ∉ l := by
  rw [length_lines, Nat.add_eq_right, List.count_eq_zero]

theorem unlines_cons (l : List Char) (h : ls ≠ []) : unlines (l :: ls) = l ++ '\n' :: unlines ls := by
  obtain ⟨m, ms, rfl⟩ := List.exists_cons_of_ne_nil h
  rw [unlines, List.intercalate_cons_cons, List.append_assoc]
  rfl

theorem lines_unlines (hne : ls ≠ []) (h : ∀ l ∈ ls, '\n' ∉ l) : lines (unlines ls) = ls := by
  induction ls with
  | nil => exact absurd rfl hne
  | cons l ls ih =>
    have hl := lines_of_not_mem (h l (.head _))
    rcases eq_or_ne ls [] with rfl | hls
    · simpa [unlines] using hl
    · rw [unlines_cons l hls, lines_append_cons, hl, ih hls fun m hm => h m (.tail _ hm)]
      rfl

theorem infix_unlines (h : l ∈ ls) : l <:+: unlines ls := by
  induction ls with
  | nil => cases h
  | cons m ls ih =>
    rcases eq_or_ne ls [] with rfl | hls
    · obtain rfl := List.mem_singleton.1 h
      simp [unlines]
    · rw [unlines_cons m hls]
      rcases List.mem_cons.1 h with rfl | h
      · exact (List.prefix_append _ _).isInfix
      · exact (ih h).trans ((List.suffix_cons _ _).trans (List.suffix_append _ _)).isInfix

theorem infix_of_mem_lines {cs : List Char} (h : l ∈ lines cs) : l <:+: cs := by
  have hwithin := infix_unlines h
  rwa [unlines_lines] at hwithin

theorem flatMap_ending_of_not_mem (ending : List Char) (h : '\n' ∉ l) :
    (l.flatMap fun c => if c = '\n' then ending else [c]) = l := by
  have hsingle : ∀ c ∈ l, (if c = '\n' then ending else [c]) = [c] := fun c hc =>
    if_neg fun heq : c = '\n' => h (heq ▸ hc)
  rw [List.flatMap_congr hsingle, List.flatMap_singleton']

theorem unlines_concat (ls : List (List Char)) (last : List Char) :
    unlines (ls ++ [last]) = ls.flatMap (· ++ ['\n']) ++ last := by
  induction ls with
  | nil => simp [unlines]
  | cons l ls ih =>
    obtain ⟨m, ms, hrest⟩ := List.exists_cons_of_ne_nil
      (List.append_ne_nil_of_right_ne_nil ls (List.cons_ne_nil last []))
    rw [unlines, hrest] at ih
    rw [unlines, List.cons_append, hrest, List.intercalate_cons_cons, ih]
    simp

end Lines

end DocCompiler.Text

namespace DocCompiler.Formatting

open Text

theorem mem_of_mem_capBlankLines {l : List Char} {ls : List (List Char)} {run : Nat}
    (h : l ∈ capBlankLines run ls) : l ∈ ls := by
  induction ls generalizing run with
  | nil => cases h
  | cons m ls ih =>
    rw [capBlankLines] at h
    split at h
    case isTrue =>
      split at h
      case isTrue => exact List.mem_cons.2 ((List.mem_cons.1 h).imp_right ih)
      case isFalse => exact .tail _ (ih h)
    case isFalse => exact List.mem_cons.2 ((List.mem_cons.1 h).imp_right ih)

/-- No more blank lines than are allowed stand on end. -/
def Capped (ls : List (List Char)) : Prop :=
  ¬ List.replicate (maxBlankLines + 1) [] <:+: ls

theorem infix_of_infix_append_cons {n : Nat} {l : List Char} (hl : l ≠ [])
    {before after : List (List Char)}
    (h : List.replicate n [] <:+: before ++ l :: after) :
    List.replicate n [] <:+: before ∨ List.replicate n [] <:+: after := by
  rcases List.infix_append_iff.1 h with h | h | ⟨head, tail, heq, hhead, htail⟩
  · exact .inl h
  · rcases List.infix_cons_iff.1 h with h | h
    · rcases n with _ | n
      · exact .inl List.nil_infix
      · exact absurd (List.cons_prefix_cons.1 h).1.symm hl
    · exact .inr h
  · cases tail with
    | nil => exact .inl (by rw [heq, List.append_nil]; exact hhead.isInfix)
    | cons m tail =>
      obtain rfl := (List.cons_prefix_cons.1 htail).1
      have hmem : m ∈ List.replicate n [] := by rw [heq]; simp
      exact absurd (List.eq_of_mem_replicate hmem) hl

theorem capped_replicate {run : Nat} (h : run ≤ maxBlankLines) : Capped (List.replicate run []) := by
  intro hwithin
  have hle := hwithin.length_le
  simp only [List.length_replicate] at hle
  omega

theorem capped_capBlankLines {run : Nat} (hrun : run ≤ maxBlankLines) (ls : List (List Char)) :
    Capped (List.replicate run [] ++ capBlankLines run ls) := by
  induction ls generalizing run with
  | nil =>
    rw [capBlankLines, List.append_nil]
    exact capped_replicate hrun
  | cons l ls ih =>
    rw [capBlankLines]
    split
    case isTrue hempty =>
      obtain rfl : l = [] := List.isEmpty_iff.1 hempty
      split
      case isTrue hlt =>
        have hrest := ih (Nat.succ_le_of_lt hlt)
        rwa [List.replicate_succ', List.append_assoc] at hrest
      case isFalse => exact ih hrun
    case isFalse hne =>
      intro hwithin
      rcases infix_of_infix_append_cons (by simpa using hne) hwithin with hbefore | hafter
      · exact capped_replicate hrun hbefore
      · exact ih (Nat.zero_le _) hafter

theorem capBlankLines_eq {run : Nat} {ls : List (List Char)}
    (h : Capped (List.replicate run [] ++ ls)) : capBlankLines run ls = ls := by
  induction ls generalizing run with
  | nil => rfl
  | cons l ls ih =>
    rw [capBlankLines]
    split
    case isTrue hempty =>
      obtain rfl : l = [] := List.isEmpty_iff.1 hempty
      rw [← List.singleton_append, ← List.append_assoc, ← List.replicate_succ'] at h
      have hlt : run < maxBlankLines := by
        refine Nat.lt_of_not_le fun hle => h ?_
        obtain ⟨more, hmore⟩ := Nat.exists_eq_add_of_le (Nat.add_le_add_right hle 1)
        have hsplit : List.replicate (run + 1) ([] : List Char) =
            List.replicate (maxBlankLines + 1) [] ++ List.replicate more [] := by
          rw [hmore, List.replicate_append_replicate]
        rw [hsplit, List.append_assoc]
        exact (List.prefix_append _ _).isInfix
      rw [if_pos hlt, ih h]
    case isFalse =>
      have hrest : Capped (List.replicate 0 [] ++ ls) := fun hwithin => h <|
        hwithin.trans ((List.suffix_cons l ls).trans (List.suffix_append _ _)).isInfix
      rw [ih hrest]

end DocCompiler.Formatting

namespace DocCompiler

open Text

/-- The parts of a text between the places where a carriage return and a line feed stand. -/
def crlfLines : List Char → List (List Char)
  | [] => [[]]
  | '\r' :: '\n' :: cs => [] :: crlfLines cs
  | c :: cs => (crlfLines cs).modifyHead (c :: ·)

namespace LineEnding

def lines : LineEnding → List Char → List (List Char)
  | .lf, cs => Text.lines cs
  | .crlf, cs => crlfLines cs

def close (ending : LineEnding) (ls : List (List Char)) : List Char :=
  ls.flatMap (· ++ ending.text.toList)

variable {ending : LineEnding} {l : List Char} {ls : List (List Char)}

@[simp] theorem close_nil : ending.close [] = [] := rfl

theorem close_cons : ending.close (l :: ls) = l ++ ending.text.toList ++ ending.close ls := rfl

theorem close_append (ls ms : List (List Char)) :
    ending.close (ls ++ ms) = ending.close ls ++ ending.close ms := List.flatMap_append

theorem close_lf_cons : LineEnding.lf.close (l :: ls) = l ++ '\n' :: LineEnding.lf.close ls := by
  rw [close_cons]
  simp [text]

theorem close_crlf_cons :
    LineEnding.crlf.close (l :: ls) = l ++ '\r' :: '\n' :: LineEnding.crlf.close ls := by
  rw [close_cons]
  simp [text]

theorem crlfLines_append_cons (hl : '\n' ∉ l) (cs : List Char) :
    crlfLines (l ++ '\r' :: '\n' :: cs) = l :: crlfLines cs := by
  induction l with
  | nil => simp [crlfLines]
  | cons c l ih =>
    rw [List.mem_cons, not_or] at hl
    have hcons : crlfLines (c :: (l ++ '\r' :: '\n' :: cs)) =
        (crlfLines (l ++ '\r' :: '\n' :: cs)).modifyHead (c :: ·) := by
      rw [crlfLines]
      rintro rest rfl hrest
      cases l with
      | nil => cases hrest
      | cons d l =>
        rw [List.cons_append, List.cons.injEq] at hrest
        exact hl.2 (hrest.1 ▸ .head _)
    rw [List.cons_append, hcons, ih hl.2]
    rfl

theorem lines_close (h : ∀ l ∈ ls, '\n' ∉ l) : ending.lines (ending.close ls) = ls ++ [[]] := by
  induction ls with
  | nil => cases ending <;> rfl
  | cons l ls ih =>
    have hrest := ih fun m hm => h m (.tail _ hm)
    cases ending with
    | lf =>
      rw [lines] at hrest
      rw [close_lf_cons, lines, lines_append_cons, lines_of_not_mem (h l (.head _)), hrest]
      rfl
    | crlf =>
      rw [lines] at hrest
      rw [close_crlf_cons, lines, crlfLines_append_cons (h l (.head _)), hrest]
      rfl

end LineEnding

/-- Lines as a compiled document has them: none holds a line feed or ends in a blank, blank ones
are capped, and the last one is not blank. -/
structure TidyLines (ls : List (List Char)) : Prop where
  unbroken : ∀ l ∈ ls, '\n' ∉ l
  trimmed : ∀ l ∈ ls, Trimmed l
  capped : Formatting.Capped ls
  closed : ls.getLast? ≠ some []

/-- What stands before a line feed, up to the start of the text: no carriage return, or exactly one
where it belongs to the ending. -/
def LineEnding.Precedes (ending : LineEnding) (before : List Char) : Prop :=
  match ending with
  | .lf => before.getLast? ≠ some '\r'
  | .crlf => ∃ line, before = line ++ ['\r'] ∧ line.getLast? ≠ some '\r'

theorem eq_or_of_append_cons {α : Type} {c : α} {l rest before after : List α} (hl : c ∉ l)
    (heq : l ++ c :: rest = before ++ c :: after) :
    before = l ∨ ∃ more, before = l ++ c :: more ∧ rest = more ++ c :: after := by
  rcases List.append_eq_append_iff.1 heq with ⟨more, rfl, hrest⟩ | ⟨more, rfl, hrest⟩
  · cases more with
    | nil => exact .inl (List.append_nil l)
    | cons d more =>
      rw [List.cons_append, List.cons.injEq] at hrest
      exact .inr ⟨more, by rw [hrest.1], hrest.2⟩
  · cases more with
    | nil => exact .inl (List.append_nil before).symm
    | cons d more =>
      rw [List.cons_append, List.cons.injEq] at hrest
      exact absurd (by rw [hrest.1]; simp) hl

theorem getLast?_append_cons_ne {before : List Char} (l : List Char)
    (h : before.getLast? ≠ some '\r') : (l ++ '\n' :: before).getLast? ≠ some '\r' := by
  rw [List.getLast?_append, List.getLast?_cons]
  cases hlast : before.getLast? with
  | none => simp
  | some c => simpa [hlast] using h

theorem LineEnding.Precedes.append_cons {ending : LineEnding} {before : List Char}
    (h : ending.Precedes before) (l : List Char) : ending.Precedes (l ++ '\n' :: before) := by
  cases ending with
  | lf => exact getLast?_append_cons_ne l h
  | crlf =>
    obtain ⟨line, rfl, hline⟩ := h
    exact ⟨l ++ '\n' :: line, by simp, getLast?_append_cons_ne l hline⟩

/-- The normal form of compiled text. It is empty or ends in one line ending behind a character that
is not blank; no line ends in a blank, no more than two lines on end are blank, and every line feed
belongs to a line ending. -/
structure NormalForm (ending : LineEnding) (cs : List Char) : Prop where
  ends : cs = [] ∨ ∃ before c, cs = before ++ c :: ending.text.toList ∧ isBlank c = false
  trimmed : ∀ line ∈ ending.lines cs, ∀ c ∈ line.getLast?, isBlank c = false
  capped : ∀ run, run <:+: ending.lines cs → (∀ line ∈ run, ∀ c ∈ line, isBlank c = true) →
    run.length ≤ 2
  breaks : ∀ before after, cs = before ++ '\n' :: after → ending.Precedes before

namespace TidyLines

variable {ls : List (List Char)} (h : TidyLines ls)

include h

theorem ends (ending : LineEnding) : ending.close ls = [] ∨
    ∃ before c, ending.close ls = before ++ c :: ending.text.toList ∧ isBlank c = false := by
  rcases List.eq_nil_or_concat ls with rfl | ⟨init, last, rfl⟩
  · exact .inl rfl
  · rw [List.concat_eq_append] at h ⊢
    have hne : last ≠ [] := fun heq => h.closed (by rw [heq, List.getLast?_concat])
    obtain ⟨c, hc⟩ := Option.ne_none_iff_exists'.1 (mt List.getLast?_eq_none_iff.1 hne)
    obtain ⟨before, rfl⟩ := List.getLast?_eq_some_iff.1 hc
    refine .inr ⟨ending.close init ++ before, c, ?_, h.trimmed _ (by simp) c hc⟩
    rw [LineEnding.close_append, LineEnding.close_cons, LineEnding.close_nil]
    simp

theorem length_le_of_blank {run : List (List Char)} (hrun : run <:+: ls ++ [[]])
    (hblank : ∀ line ∈ run, ∀ c ∈ line, isBlank c = true) : run.length ≤ 2 := by
  have hempty : run = List.replicate run.length [] := by
    refine List.eq_replicate_iff.2 ⟨rfl, fun line hline => ?_⟩
    rcases List.mem_append.1 (hrun.subset hline) with hmem | hmem
    · exact (h.trimmed line hmem).eq_nil (hblank line hline)
    · exact List.mem_singleton.1 hmem
  refine Nat.le_of_not_lt fun hlong => ?_
  obtain ⟨n, hn⟩ := Nat.exists_eq_add_of_le' hlong
  rw [hn] at hempty
  rcases List.infix_concat_iff.1 hrun with hsuffix | hwithin
  · -- at the very end, a blank line would be the last of `ls`
    obtain ⟨t, ht, hls⟩ := (List.suffix_concat_iff.1 hsuffix).resolve_left (by rw [hempty]; simp)
    have ht : t = List.replicate (n + 1) [] ++ [[]] := by
      rw [hempty, List.replicate_succ', List.append_left_inj, List.replicate_succ'] at ht
      exact ht.symm
    obtain ⟨init, rfl⟩ := hls
    exact h.closed (by rw [ht, ← List.append_assoc, List.getLast?_concat])
  · have hsplit : List.replicate (n + 3) ([] : List Char) =
        List.replicate n [] ++ List.replicate (Formatting.maxBlankLines + 1) [] :=
      List.replicate_append_replicate.symm
    rw [hempty, hsplit] at hwithin
    exact h.capped ((List.suffix_append _ _).isInfix.trans hwithin)

theorem precedes {ending : LineEnding} {before after : List Char}
    (heq : ending.close ls = before ++ '\n' :: after) : ending.Precedes before := by
  have hcarriage : ∀ l ∈ ls, l.getLast? ≠ some '\r' := fun l hl hlast =>
    Bool.noConfusion (h.trimmed l hl '\r' hlast : isBlank '\r' = false)
  have hunbroken := h.unbroken
  clear h
  induction ls generalizing before with
  | nil => simp at heq
  | cons l ls ih =>
    have hl := hunbroken l (.head _)
    have hrest {more : List Char} (heq : ending.close ls = more ++ '\n' :: after) :=
      ih heq (fun m hm => hcarriage m (.tail _ hm)) fun m hm => hunbroken m (.tail _ hm)
    cases ending with
    | lf =>
      rw [LineEnding.close_lf_cons] at heq
      rcases eq_or_of_append_cons hl heq with rfl | ⟨more, rfl, hmore⟩
      · exact hcarriage _ (.head _)
      · exact (hrest hmore).append_cons _
    | crlf =>
      have hl' : '\n' ∉ l ++ ['\r'] := by simpa using hl
      rw [LineEnding.close_crlf_cons, List.append_cons] at heq
      rcases eq_or_of_append_cons hl' heq with rfl | ⟨more, rfl, hmore⟩
      · exact ⟨l, rfl, hcarriage _ (.head _)⟩
      · exact (hrest hmore).append_cons _

theorem normalForm (ending : LineEnding) : NormalForm ending (ending.close ls) where
  ends := h.ends ending
  trimmed := by
    rw [LineEnding.lines_close h.unbroken]
    intro line hline
    rcases List.mem_append.1 hline with hmem | hmem
    · exact h.trimmed line hmem
    · rw [List.mem_singleton.1 hmem]
      exact trimmed_nil
  capped run hrun := by
    rw [LineEnding.lines_close h.unbroken] at hrun
    exact h.length_le_of_blank hrun
  breaks _ _ := h.precedes

end TidyLines
end DocCompiler
