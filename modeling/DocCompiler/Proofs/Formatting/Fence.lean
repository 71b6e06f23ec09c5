import DocCompiler.Formatting.Fence
import DocCompiler.Proofs.Text.Layout

/-! A fence and what it encloses. Counting goes through the text once and knows the longest run of
ticks so far and the run that is under way; a fence has more ticks than the longest. So no line of
the text can be taken for the closing line, and what is read between the fences is the text. -/

namespace DocCompiler.Formatting

open Text

section Runs

/-- What counting knows of a text: how long the runs of ticks are that stand anywhere in it, and
those at its end. -/
structure Counted (cs : List Char) (runs : Nat × Nat) : Prop where
  within : ∀ k, List.replicate k tick <:+: cs ↔ k ≤ runs.1
  atEnd : ∀ k, List.replicate k tick <:+ cs ↔ k ≤ runs.2

theorem counted_nil : Counted [] (0, 0) where
  within k := by simp
  atEnd k := by simp

variable {cs : List Char} {runs : Nat × Nat}

theorem suffix_concat_tick {k : Nat} :
    List.replicate (k + 1) tick <:+ cs ++ [tick] ↔ List.replicate k tick <:+ cs := by
  simp [List.replicate_succ', List.suffix_concat_iff]

theorem not_suffix_concat {k : Nat} {c : Char} (hc : c ≠ tick) :
    ¬ List.replicate (k + 1) tick <:+ cs ++ [c] := by
  simp [List.replicate_succ', List.suffix_concat_iff, Ne.symm hc]

theorem Counted.countTick (h : Counted cs runs) (c : Char) :
    Counted (cs ++ [c]) (countTick runs.1 runs.2 c) := by
  have hend (k : Nat) : List.replicate k tick <:+ cs ++ [c] ↔
      k ≤ (Formatting.countTick runs.1 runs.2 c).2 := by
    rw [Formatting.countTick]
    cases k with
    | zero => simp
    | succ k =>
      split
      case isTrue hc =>
        rw [hc, suffix_concat_tick, h.atEnd]
        exact Nat.succ_le_succ_iff.symm
      case isFalse hc => exact iff_of_false (not_suffix_concat hc) (Nat.not_succ_le_zero k)
  refine ⟨fun k => ?_, hend⟩
  -- a run that is not within the text before stands at the end
  rw [List.infix_concat_iff, hend, h.within, Formatting.countTick]
  split <;> omega

theorem replicate_infix_iff (cs : List Char) (k : Nat) :
    List.replicate k tick <:+: cs ↔ k ≤ longestTickRun cs := by
  have hcounted : Counted cs (cs.foldl (fun runs c => countTick runs.1 runs.2 c) (0, 0)) := by
    induction cs using List.reverseRecOn with
    | nil => exact counted_nil
    | append_singleton cs c ih =>
      rw [List.foldl_concat]
      exact ih.countTick c
  exact hcounted.within k

theorem lt_fenceSize {text : String} {k : Nat} (h : List.replicate k tick <:+: text.toList) :
    k < fenceSize text :=
  lt_of_le_of_lt ((replicate_infix_iff _ k).1 h) (le_max_left (longestTickRun text.toList + 1) 3)

theorem fenceSize_le {text : String} {m : Nat} (hm : 3 ≤ m)
    (h : ∀ k, List.replicate k tick <:+: text.toList → k < m) : fenceSize text ≤ m :=
  max_le (h _ ((replicate_infix_iff _ _).2 le_rfl)) hm

end Runs

section Fenced

/-- A fenced text as it is read: the line that opens it, what stands up to the line that closes it,
that line, and the lines behind. -/
structure Fenced where
  opening : List Char
  content : List Char
  closing : List Char
  behind : List (List Char)

/-- Reads a fenced text: a line, everything up to the first later line that begins with `size`
ticks, and the rest; nothing if there is no such line. -/
def Fenced.read? (size : Nat) (cs : List Char) : Option Fenced :=
  match lines cs with
  | [] => none
  | opening :: later =>
    let within (line : List Char) := !(List.replicate size tick).isPrefixOf line
    match later.dropWhile within with
    | [] => none
    | closing :: behind => some ⟨opening, unlines (later.takeWhile within), closing, behind⟩

theorem Fenced.read?_eq {size : Nat} {cs opening closing : List Char} {inside behind : List (List Char)}
    (hlines : lines cs = opening :: (inside ++ closing :: behind))
    (hinside : ∀ line ∈ inside, ¬ List.replicate size tick <+: line)
    (hclosing : List.replicate size tick <+: closing) :
    read? size cs = some ⟨opening, unlines inside, closing, behind⟩ := by
  have hwithin : ∀ line ∈ inside, (!(List.replicate size tick).isPrefixOf line) = true := by
    simpa [← List.isPrefixOf_iff_prefix] using hinside
  have hend : (!(List.replicate size tick).isPrefixOf closing) = false := by
    simpa [← List.isPrefixOf_iff_prefix] using hclosing
  rw [read?, hlines]
  simp only [List.dropWhile_append_of_pos hwithin, List.takeWhile_append_of_pos hwithin,
    List.dropWhile_cons, List.takeWhile_cons, hend, Bool.false_eq_true, if_false, List.append_nil]

theorem not_mem_ticks (size : Nat) : '\n' ∉ List.replicate size tick := fun h =>
  absurd (List.eq_of_mem_replicate h) (by decide)

variable (text language : String)

theorem toList_fence : (fence text language).toList =
    (List.replicate (fenceSize text) tick ++ language.toList) ++
      '\n' :: (text.toList ++ '\n' :: List.replicate (fenceSize text) tick) := by
  simp [fence]

theorem lines_fence : lines (fence text language).toList =
    lines (List.replicate (fenceSize text) tick ++ language.toList) ++
      (lines text.toList ++ [List.replicate (fenceSize text) tick]) := by
  rw [toList_fence, lines_append_cons, lines_append_cons, lines_of_not_mem (not_mem_ticks _)]

/-- **A fence cannot be closed by what it encloses.** It has at least three ticks and more than any
run of ticks in the text, and no more than both take. Where the language is on one line, what is
read up to the first later line that begins with as many ticks is the text, and that line is the
last one. -/
theorem fence_encloses (hlanguage : '\n' ∉ language.toList) :
    3 ≤ fenceSize text ∧
    (∀ k, List.replicate k tick <:+: text.toList → k < fenceSize text) ∧
    (∀ m, 3 ≤ m → (∀ k, List.replicate k tick <:+: text.toList → k < m) → fenceSize text ≤ m) ∧
    Fenced.read? (fenceSize text) (fence text language).toList = some {
      opening := List.replicate (fenceSize text) tick ++ language.toList
      content := text.toList
      closing := List.replicate (fenceSize text) tick
      behind := [] } := by
  refine ⟨le_max_right _ 3, fun _ => lt_fenceSize, fun _ => fenceSize_le, ?_⟩
  have hopening : '\n' ∉ List.replicate (fenceSize text) tick ++ language.toList :=
    List.not_mem_append (not_mem_ticks _) hlanguage
  have hlines := lines_fence text language
  rw [lines_of_not_mem hopening, List.singleton_append] at hlines
  have hinside : ∀ line ∈ lines text.toList, ¬ List.replicate (fenceSize text) tick <+: line :=
    fun line hline hticks =>
      (lt_fenceSize (hticks.isInfix.trans (infix_of_mem_lines hline))).false
  rw [Fenced.read?_eq hlines hinside List.prefix_rfl, unlines_lines]

theorem fence_encloses_fenced :
    '\n' ∉ "md".toList ∧ fenceSize "```rust\nx\n````" = 5 ∧
      Fenced.read? 5 (fence "```rust\nx\n````" "md").toList =
        some ⟨"`````md".toList, "```rust\nx\n````".toList, "`````".toList, []⟩ := by
  have hsize : fenceSize "```rust\nx\n````" = 5 := by decide +kernel
  obtain ⟨-, -, -, hread⟩ := fence_encloses "```rust\nx\n````" "md" (by decide)
  rw [hsize] at hread
  exact ⟨by decide, hsize, hread⟩

end Fenced
end DocCompiler.Formatting
