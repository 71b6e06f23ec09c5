import DocCompiler.Proofs.Text.Layout

/-! What the whitespace filter makes of the lines of a text. Lines come in one way as stretches of
blank ones, each of them up to the next line that is not blank; the filter trims the lines, cuts every
stretch of blank ones down to two and leaves the others as they stand. -/

namespace DocCompiler.Formatting

open Text

/-- A line that is not blank, and how many blank ones stand behind it up to the next such line. -/
structure Stretch where
  line : List Char
  blanks : Nat
  solid : line ≠ []

/-- Lines by their blank ones: how many stand before the first other line, and then those lines,
each with the blank ones behind it. -/
structure BlankRuns where
  leading : Nat
  stretches : List Stretch

namespace Stretch

def lines (s : Stretch) : List (List Char) := s.line :: List.replicate s.blanks []

def capped (limit : Nat) (s : Stretch) : Stretch := { s with blanks := min s.blanks limit }

end Stretch

namespace BlankRuns

def lines (r : BlankRuns) : List (List Char) :=
  List.replicate r.leading [] ++ r.stretches.flatMap (·.lines)

def capped (limit : Nat) (r : BlankRuns) : BlankRuns :=
  ⟨min r.leading limit, r.stretches.map (·.capped limit)⟩

def of : List (List Char) → BlankRuns
  | [] => ⟨0, []⟩
  | l :: ls =>
    if h : l = [] then ⟨(of ls).leading + 1, (of ls).stretches⟩
    else ⟨0, ⟨l, (of ls).leading, h⟩ :: (of ls).stretches⟩

theorem of_nil_cons (ls : List (List Char)) :
    of ([] :: ls) = ⟨(of ls).leading + 1, (of ls).stretches⟩ := dif_pos rfl

theorem of_solid_cons {l : List Char} (h : l ≠ []) (ls : List (List Char)) :
    of (l :: ls) = ⟨0, ⟨l, (of ls).leading, h⟩ :: (of ls).stretches⟩ := dif_neg h

theorem lines_of (ls : List (List Char)) : (of ls).lines = ls := by
  induction ls with
  | nil => rfl
  | cons l ls ih =>
    by_cases hl : l = []
    · subst hl
      rw [of_nil_cons, lines, List.replicate_succ, List.cons_append]
      exact congrArg ([] :: ·) ih
    · rw [of_solid_cons hl, lines, List.replicate_zero, List.nil_append, List.flatMap_cons]
      exact congrArg (l :: ·) ih

theorem of_replicate_append (n : Nat) (ls : List (List Char)) :
    of (List.replicate n [] ++ ls) = ⟨(of ls).leading + n, (of ls).stretches⟩ := by
  induction n with
  | zero => rfl
  | succ n ih =>
    rw [List.replicate_succ, List.cons_append, of_nil_cons, ih]
    rfl

theorem of_flatMap_lines (stretches : List Stretch) :
    of (stretches.flatMap (·.lines)) = ⟨0, stretches⟩ := by
  induction stretches with
  | nil => rfl
  | cons s rest ih =>
    rw [List.flatMap_cons, Stretch.lines, List.cons_append, of_solid_cons s.solid,
      of_replicate_append, ih, Nat.zero_add]

theorem of_lines (r : BlankRuns) : of r.lines = r := by
  rw [lines, of_replicate_append, of_flatMap_lines, Nat.zero_add]

theorem lines_eq_iff {r : BlankRuns} {ls : List (List Char)} : r.lines = ls ↔ r = of ls := by
  constructor
  · rintro rfl
    exact (of_lines r).symm
  · rintro rfl
    exact lines_of ls

theorem filter_lines (r : BlankRuns) :
    r.lines.filter (!·.isEmpty) = r.stretches.map (·.line) := by
  have hblank (n : Nat) : (List.replicate n ([] : List Char)).filter (!·.isEmpty) = [] :=
    List.filter_replicate_of_neg (by simp)
  have hstretch (s : Stretch) : s.lines.filter (!·.isEmpty) = [s.line] := by
    rw [Stretch.lines, List.filter_cons_of_pos (by simpa using s.solid), hblank]
  rw [lines, List.filter_append, hblank, List.nil_append, List.filter_flatMap, List.map_eq_flatMap]
  exact List.flatMap_congr fun s _ => hstretch s

theorem filter_lines_capped (limit : Nat) (r : BlankRuns) :
    (r.capped limit).lines.filter (!·.isEmpty) = r.lines.filter (!·.isEmpty) := by
  rw [filter_lines, filter_lines, capped, List.map_map]
  rfl

end BlankRuns

/-- The filter cuts the runs of blank lines, the first one by as many as stood before it. -/
theorem capBlankLines_eq_lines {run : Nat} (hrun : run ≤ maxBlankLines) (ls : List (List Char)) :
    capBlankLines run ls =
      List.replicate (min (BlankRuns.of ls).leading (maxBlankLines - run)) [] ++
        (BlankRuns.of ls).stretches.flatMap fun s => (s.capped maxBlankLines).lines := by
  induction ls generalizing run with
  | nil => simp [capBlankLines, BlankRuns.of]
  | cons l ls ih =>
    rw [capBlankLines]
    split
    case isTrue hempty =>
      obtain rfl : l = [] := List.isEmpty_iff.1 hempty
      rw [BlankRuns.of_nil_cons]
      split
      case isTrue hlt =>
        have hcount : min ((BlankRuns.of ls).leading + 1) (maxBlankLines - run) =
            min (BlankRuns.of ls).leading (maxBlankLines - (run + 1)) + 1 := by omega
        rw [ih hlt, hcount, List.replicate_succ, List.cons_append]
      case isFalse hfull =>
        have hcount : maxBlankLines - run = 0 := by omega
        rw [ih hrun, hcount, Nat.min_zero, Nat.min_zero]
    case isFalse hsolid =>
      rw [BlankRuns.of_solid_cons (by simpa using hsolid), ih (Nat.zero_le _), Nat.zero_min,
        List.replicate_zero, List.nil_append, List.flatMap_cons]
      rfl

theorem capBlankLines_zero (ls : List (List Char)) :
    capBlankLines 0 ls = ((BlankRuns.of ls).capped maxBlankLines).lines := by
  rw [capBlankLines_eq_lines (Nat.zero_le _), BlankRuns.lines, BlankRuns.capped, List.flatMap_map]
  rfl

section Filter

variable (cs : List Char)

theorem lines_tidyChars : lines (tidyChars cs) = capBlankLines 0 ((lines cs).map trimEnd) := by
  refine lines_unlines ?_ fun l hl => ?_
  · obtain ⟨l, ls, hls⟩ := List.exists_cons_of_ne_nil (splitBy_ne_nil (· == '\n') cs)
    have hfirst : 0 < maxBlankLines := by decide
    rw [lines, hls, List.map_cons, capBlankLines, if_pos hfirst]
    split <;> exact List.cons_ne_nil _ _
  · obtain ⟨line, hline, rfl⟩ := List.mem_map.1 (mem_of_mem_capBlankLines hl)
    exact not_mem_trimEnd (not_mem_of_mem_lines hline)

theorem map_trimEnd_lines_tidyChars :
    (lines (tidyChars cs)).map trimEnd = lines (tidyChars cs) := by
  have hself : ∀ l ∈ lines (tidyChars cs), trimEnd l = l := by
    intro l hl
    rw [lines_tidyChars] at hl
    obtain ⟨line, -, rfl⟩ := List.mem_map.1 (mem_of_mem_capBlankLines hl)
    exact (trimmed_trimEnd line).trimEnd_eq
  rw [List.map_congr_left hself, List.map_id']

theorem tidyChars_tidyChars : tidyChars (tidyChars cs) = tidyChars cs := by
  have hcapped : Capped (capBlankLines 0 ((lines cs).map trimEnd)) :=
    capped_capBlankLines (Nat.zero_le _) _
  have hkept : capBlankLines 0 (lines (tidyChars cs)) = lines (tidyChars cs) := by
    rw [lines_tidyChars, capBlankLines_eq hcapped]
  rw [tidyChars, map_trimEnd_lines_tidyChars, hkept, unlines_lines]

end Filter

/-- **The filter cuts runs of blank lines down to two.** There is one way to see the trimmed lines of
a text as runs of blank ones between the others, and the lines of the filtered text are those with
`min k 2` blank lines for every run of `k`. So the other lines are all kept, in their order, and what
has been filtered stays as it is. -/
theorem whitespace_caps_blankRuns (text : String) :
    let trimmed := (lines text.toList).map trimEnd
    let filtered := Filter.whitespace.apply text
    ∃ runs : BlankRuns, (∀ r : BlankRuns, r.lines = trimmed ↔ r = runs) ∧
      lines filtered.toList = (runs.capped 2).lines ∧
      (lines filtered.toList).filter (!·.isEmpty) = trimmed.filter (!·.isEmpty) ∧
      Filter.whitespace.apply filtered = filtered := by
  intro trimmed filtered
  have hfiltered : filtered.toList = tidyChars text.toList := String.toList_ofList
  have hlines : lines filtered.toList = ((BlankRuns.of trimmed).capped 2).lines := by
    rw [hfiltered, lines_tidyChars]
    exact capBlankLines_zero trimmed
  refine ⟨.of trimmed, fun r => BlankRuns.lines_eq_iff, hlines, ?_, ?_⟩
  · rw [hlines, BlankRuns.filter_lines_capped, BlankRuns.lines_of]
  · show String.ofList (tidyChars filtered.toList) = String.ofList (tidyChars text.toList)
    rw [hfiltered, tidyChars_tidyChars]

-- blank lines at both ends, and some that are blank only when they are trimmed
example : Filter.whitespace.apply "\n \n\t\n\na  \n\u3000\n\n\n\nb\n\n" = "\n\na\n\n\nb\n\n" := by
  decide +kernel

end DocCompiler.Formatting
