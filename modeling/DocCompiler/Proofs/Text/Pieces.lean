import DocCompiler.Text.Scan
import Mathlib.Data.List.Infix

/-! The pieces of a text as they are written. A recogniser that finds what is written cuts a text
without losing any of it. A part of a text that no match can touch comes out of the scan as plain
characters, whatever stands around it. -/

namespace DocCompiler.Text

variable {α : Type}

/-- A list is cut at the last one of its elements `c` in one way only. -/
theorem append_cons_inj_of_last {c : α} {before before' after after' : List α} (h : c ∉ after)
    (h' : c ∉ after') (heq : before ++ c :: after = before' ++ c :: after') :
    before = before' ∧ after = after' := by
  rcases List.append_eq_append_iff.1 heq with ⟨between, hbefore, hafter⟩ | ⟨between, hbefore, hafter⟩
  · cases between with
    | nil => exact ⟨by rw [hbefore, List.append_nil], (List.cons.inj hafter).2⟩
    | cons d between =>
      rw [(List.cons.inj hafter).2] at h
      exact absurd (List.mem_append_right _ (.head _)) h
  · cases between with
    | nil => exact ⟨by rw [hbefore, List.append_nil], (List.cons.inj hafter).2.symm⟩
    | cons d between =>
      rw [(List.cons.inj hafter).2] at h'
      exact absurd (List.mem_append_right _ (.head _)) h'

/-- The characters of a piece, where places are written as `source` says. -/
def Piece.written (source : α → List Char) : Piece α → List Char
  | .plain c => [c]
  | .found a => source a

def Piece.found? : Piece α → Option α
  | .plain _ => none
  | .found a => some a

/-- What is recognised stands at the front of the text as it is written, and is not empty. -/
def Recogniser.Writes (recognise : Recogniser α) (source : α → List Char) : Prop :=
  ∀ cs a size, recognise cs = some (a, size) →
    0 < size ∧ size = (source a).length ∧ source a <+: cs

section Written

variable {recognise : Recogniser α} {source : α → List Char}

theorem flatMap_written_scan (h : recognise.Writes source) (cs : List Char) :
    (scan recognise cs).flatMap (Piece.written source) = cs := by
  match cs with
  | [] => rfl
  | c :: cs =>
    cases hfound : recognise (c :: cs) with
    | none =>
      rw [scan_cons_of_none hfound, List.flatMap_cons, flatMap_written_scan h cs]
      rfl
    | some found =>
      obtain ⟨a, size⟩ := found
      obtain ⟨hpos, hsize, rest, hrest⟩ := h _ a size hfound
      have hdrop : cs.drop (size - 1) = rest := by
        obtain ⟨n, rfl⟩ := Nat.exists_eq_add_of_lt hpos
        rw [Nat.zero_add] at hsize ⊢
        have htail : (c :: cs).drop (n + 1) = rest := by rw [← hrest, hsize, List.drop_left]
        exact htail
      rw [scan_cons_of_some hfound, List.flatMap_cons, flatMap_written_scan h, hdrop]
      exact hrest
termination_by cs.length

end Written

theorem exists_recognise_of_mem_scan {recognise : Recogniser α} {a : α} {cs : List Char}
    (h : .found a ∈ scan recognise cs) : ∃ s size, recognise s = some (a, size) := by
  match cs with
  | [] => cases h
  | c :: cs =>
    cases hfound : recognise (c :: cs) with
    | none =>
      rw [scan_cons_of_none hfound, List.mem_cons] at h
      exact exists_recognise_of_mem_scan (h.resolve_left nofun)
    | some found =>
      obtain ⟨b, size⟩ := found
      rw [scan_cons_of_some hfound, List.mem_cons, Piece.found.injEq] at h
      rcases h with rfl | h
      · exact ⟨c :: cs, size, hfound⟩
      · exact exists_recognise_of_mem_scan h
termination_by cs.length

section Untouched

variable {recognise : Recogniser α} {part after : List Char}

theorem scan_append_of_none
    (h : ∀ s, s ≠ [] → s <:+ part → recognise (s ++ after) = none) :
    scan recognise (part ++ after) = part.map .plain ++ scan recognise after := by
  induction part with
  | nil => rfl
  | cons c part ih =>
    have hrest := ih fun s hne hs => h s hne (hs.trans (List.suffix_cons c part))
    have hnone : recognise (c :: (part ++ after)) = none :=
      h (c :: part) (List.cons_ne_nil c part) (List.suffix_refl _)
    rw [List.cons_append, scan_cons_of_none hnone, hrest]
    rfl

/-- A part in which no match begins, and into which none reaches from before, is left as it is. -/
theorem exists_scan_append
    (hinside : ∀ s, s ≠ [] → s <:+ part → recognise (s ++ after) = none)
    (hreach : ∀ s a size, s ≠ [] → recognise (s ++ (part ++ after)) = some (a, size) →
      size ≤ s.length) (before : List Char) :
    ∃ ps qs, scan recognise (before ++ (part ++ after)) = ps ++ part.map .plain ++ qs := by
  match before with
  | [] => exact ⟨[], scan recognise after, scan_append_of_none hinside⟩
  | c :: cs =>
    cases hfound : recognise (c :: (cs ++ (part ++ after))) with
    | none =>
      obtain ⟨ps, qs, hscan⟩ := exists_scan_append hinside hreach cs
      exact ⟨.plain c :: ps, qs, by rw [List.cons_append, scan_cons_of_none hfound, hscan]; rfl⟩
    | some found =>
      obtain ⟨a, size⟩ := found
      have hsize : size - 1 ≤ cs.length :=
        Nat.sub_le_of_le_add (hreach (c :: cs) a size (List.cons_ne_nil c cs) hfound)
      obtain ⟨ps, qs, hscan⟩ := exists_scan_append hinside hreach (cs.drop (size - 1))
      refine ⟨.found a :: ps, qs, ?_⟩
      rw [List.cons_append, scan_cons_of_some hfound, List.drop_append_of_le_length hsize, hscan]
      rfl
termination_by before.length

end Untouched

end DocCompiler.Text
