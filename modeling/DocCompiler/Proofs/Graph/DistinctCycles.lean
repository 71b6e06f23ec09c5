import DocCompiler.Proofs.Graph.TreeEdges
import Mathlib.Data.List.Rotate

/-! Cycles that differ by more than where they begin. The canonical form of a cycle begins at its
least node, which does not depend on where the cycle began, and a list without repetitions that is
turned round is another list unless it begins with the same node. So two cycles have one canonical
form if and only if one is the other turned round, and only such cycles are left out of a report. -/

namespace DocCompiler.Graph

section Least

variable {nodes nodes' : List String} {m : String}

theorem foldl_least (a : String) (rest : List String) :
    rest.foldl (fun m b => if b < m then b else m) a ∈ a :: rest ∧
      ∀ b ∈ a :: rest, rest.foldl (fun m b => if b < m then b else m) a ≤ b := by
  induction rest generalizing a with
  | nil => simp
  | cons b rest ih =>
    rw [List.foldl_cons]
    split
    case isTrue hlt =>
      obtain ⟨hmem, hle⟩ := ih b
      refine ⟨.tail a hmem, List.forall_mem_cons.2 ⟨?_, hle⟩⟩
      exact String.le_trans (hle b (.head _)) (Std.le_of_lt hlt)
    case isFalse hge =>
      obtain ⟨hmem, hle⟩ := ih a
      have hhead : _ ≤ a := hle a (.head _)
      refine ⟨?_, List.forall_mem_cons.2 ⟨hhead, List.forall_mem_cons.2 ⟨?_, fun x hx => ?_⟩⟩⟩
      · rcases List.mem_cons.1 hmem with heq | hmem
        · exact List.mem_cons.2 (.inl heq)
        · exact .tail a (.tail b hmem)
      · exact String.le_trans hhead (String.not_lt.1 hge)
      · exact hle x (.tail a hx)

theorem least?_eq_some_iff : least? nodes = some m ↔ m ∈ nodes ∧ ∀ a ∈ nodes, m ≤ a := by
  cases nodes with
  | nil => simp [least?]
  | cons a rest =>
    obtain ⟨hmem, hle⟩ := foldl_least a rest
    rw [least?, Option.some.injEq]
    constructor
    · rintro rfl
      exact ⟨hmem, hle⟩
    · rintro ⟨hmem', hle'⟩
      exact String.le_antisymm (hle m hmem') (hle' _ hmem)

theorem least?_perm (h : nodes.Perm nodes') : least? nodes = least? nodes' := by
  refine Option.ext fun m => ?_
  rw [least?_eq_some_iff, least?_eq_some_iff]
  simp only [h.mem_iff]

end Least

section Canonical

variable {c d : List String}

theorem canonicalCycle_of_least?_none (h : least? c.dropLast = none) : canonicalCycle c = [] := by
  rw [canonicalCycle, h]

theorem canonicalCycle_of_least? {m : String} (h : least? c.dropLast = some m) :
    canonicalCycle c = c.dropLast.rotate (c.dropLast.idxOf m) := by
  rw [canonicalCycle, h, List.rotate_eq_drop_append_take List.idxOf_le_length]

theorem canonicalCycle_isRotated (c : List String) : canonicalCycle c ~r c.dropLast := by
  cases h : least? c.dropLast with
  | none =>
    rw [canonicalCycle_of_least?_none h]
    cases hnodes : c.dropLast with
    | nil => exact .refl []
    | cons a rest => rw [hnodes] at h; cases h
  | some m =>
    rw [canonicalCycle_of_least? h]
    exact .forall _ _

theorem head?_canonicalCycle (c : List String) : (canonicalCycle c).head? = least? c.dropLast := by
  cases h : least? c.dropLast with
  | none => rw [canonicalCycle_of_least?_none h, List.head?_nil]
  | some m =>
    have hmem : m ∈ c.dropLast := (least?_eq_some_iff.1 h).1
    rw [canonicalCycle_of_least? h, List.head?_rotate (List.idxOf_lt_length_of_mem hmem),
      List.getElem?_idxOf hmem]

theorem eq_of_isRotated_of_head? {l l' : List String} (hl : l.Nodup) (h : l ~r l')
    (hhead : l.head? = l'.head?) : l = l' := by
  obtain ⟨n, hn, rfl⟩ := List.isRotated_iff_mod.1 h
  rcases Nat.lt_or_eq_of_le hn with hlt | heq
  · rw [List.head?_rotate hlt, List.head?_eq_getElem?] at hhead
    obtain rfl := (List.getElem?_inj (Nat.zero_lt_of_lt hlt) hl).1 hhead
    exact (List.rotate_zero l).symm
  · rw [heq, List.rotate_length]

/-- Two cycles have one canonical form if and only if one is the other turned round. -/
theorem canonicalCycle_eq_iff (hc : c.dropLast.Nodup) :
    canonicalCycle c = canonicalCycle d ↔ c.dropLast ~r d.dropLast := by
  have hround : c.dropLast ~r canonicalCycle c := (canonicalCycle_isRotated c).symm
  constructor
  · intro heq
    rw [heq] at hround
    exact hround.trans (canonicalCycle_isRotated d)
  · intro h
    have hforms : canonicalCycle c ~r canonicalCycle d :=
      hround.symm.trans (h.trans (canonicalCycle_isRotated d).symm)
    refine eq_of_isRotated_of_head? (hround.nodup_iff.1 hc) hforms ?_
    rw [head?_canonicalCycle, head?_canonicalCycle, least?_perm h.perm]

end Canonical

section Kept

variable {cycles : List (List String)} {c : List String}

/-- The forms that have been seen are those of the cycles that are kept. -/
theorem mem_foldl_keepNew (cycles : List (List String)) (form : List String) :
    form ∈ (cycles.foldl keepNew (#[], ∅)).2 ↔
      ∃ d ∈ distinctCycles cycles, canonicalCycle d = form := by
  rw [distinctCycles]
  induction cycles using List.reverseRecOn with
  | nil => simp
  | append_singleton cycles c ih =>
    rw [List.foldl_concat, keepNew]
    split
    case isTrue => exact ih
    case isFalse =>
      rw [Std.HashSet.mem_insert, ih, Array.toList_push]
      simp [or_comm, or_and_right, exists_or]

theorem distinctCycles_concat (cycles : List (List String)) (c : List String) :
    distinctCycles (cycles ++ [c]) =
      if ∃ d ∈ distinctCycles cycles, canonicalCycle d = canonicalCycle c then distinctCycles cycles
      else distinctCycles cycles ++ [c] := by
  rw [distinctCycles, List.foldl_concat, keepNew]
  have hseen := mem_foldl_keepNew cycles (canonicalCycle c)
  split
  case isTrue h => rw [if_pos (hseen.1 h)]; rfl
  case isFalse h => rw [if_neg (mt hseen.2 h), Array.toList_push]; rfl

theorem distinctCycles_concat_of_nodup (cycles : List (List String)) (hc : c.dropLast.Nodup) :
    distinctCycles (cycles ++ [c]) =
      if ∃ d ∈ distinctCycles cycles, c.dropLast ~r d.dropLast then distinctCycles cycles
      else distinctCycles cycles ++ [c] := by
  rw [distinctCycles_concat]
  simp only [← canonicalCycle_eq_iff hc, eq_comm]

theorem exists_kept (hcycles : ∀ c ∈ cycles, c.dropLast.Nodup) (hc : c ∈ cycles) :
    ∃ d ∈ distinctCycles cycles, c.dropLast ~r d.dropLast := by
  induction cycles using List.reverseRecOn with
  | nil => cases hc
  | append_singleton cycles last ih =>
    have hlast : last.dropLast.Nodup := hcycles last (by simp)
    have hbefore : ∀ c ∈ cycles, c.dropLast.Nodup := fun c h => hcycles c (by simp [h])
    rw [distinctCycles_concat_of_nodup cycles hlast]
    rcases List.mem_append.1 hc with hc | hc
    · obtain ⟨d, hd, hround⟩ := ih hbefore hc
      split
      · exact ⟨d, hd, hround⟩
      · exact ⟨d, List.mem_append_left _ hd, hround⟩
    · obtain rfl := List.mem_singleton.1 hc
      split
      case isTrue h => exact h
      case isFalse => exact ⟨c, by simp, .refl _⟩

theorem distinctCycles_eq_self (hcycles : ∀ c ∈ cycles, c.dropLast.Nodup)
    (hdistinct : cycles.Pairwise fun c d => ¬ c.dropLast ~r d.dropLast) :
    distinctCycles cycles = cycles := by
  induction cycles using List.reverseRecOn with
  | nil => rfl
  | append_singleton cycles last ih =>
    have hlast : last.dropLast.Nodup := hcycles last (by simp)
    obtain ⟨hbefore, -, hnew⟩ := List.pairwise_append.1 hdistinct
    rw [distinctCycles_concat_of_nodup cycles hlast,
      ih (fun c h => hcycles c (by simp [h])) hbefore, if_neg]
    rintro ⟨d, hd, hround⟩
    exact hnew d hd last (.head _) hround.symm

end Kept

/-- A search finds no cycle twice, so that none is left out of what it has found. -/
theorem distinctCycles_findCycles {g : Graph} (hg : NoParallelEdges g) (roots : List String) :
    distinctCycles (findCycles g roots) = findCycles g roots :=
  distinctCycles_eq_self (fun _ hc => nodup_of_mem_findCycles hg hc) (pairwise_findCycles hg roots)

/-- **Canonical forms tell circles apart.** For paths that meet no node twice but where they close:
two have one canonical form if and only if one is the other turned round; a further one is kept unless
one that is kept already is it turned round; and each of them is kept, turned round perhaps. -/
theorem canonicalCycle_tells_apart {cycles : List (List String)} {c : List String}
    (hc : c.dropLast.Nodup) (hcycles : ∀ c ∈ cycles, c.dropLast.Nodup) (d : List String) :
    (canonicalCycle c = canonicalCycle d ↔ c.dropLast ~r d.dropLast) ∧
    distinctCycles (cycles ++ [c]) =
      (if ∃ d ∈ distinctCycles cycles, c.dropLast ~r d.dropLast then distinctCycles cycles
      else distinctCycles cycles ++ [c]) ∧
    ∀ c ∈ cycles, ∃ d ∈ distinctCycles cycles, c.dropLast ~r d.dropLast :=
  ⟨canonicalCycle_eq_iff hc, distinctCycles_concat_of_nodup cycles hc,
    fun _ hc => exists_kept hcycles hc⟩

/-- Two ways round the same three nodes, and one of them from another node. -/
theorem canonicalCycle_tells_apart_triangle :
    ["b", "c", "a"].Nodup ∧ (∀ c ∈ [["c", "b", "a", "c"], ["a", "b", "c", "a"]], c.dropLast.Nodup) ∧
      canonicalCycle ["b", "c", "a", "b"] ≠ canonicalCycle ["c", "b", "a", "c"] ∧
      canonicalCycle ["b", "c", "a", "b"] = canonicalCycle ["a", "b", "c", "a"] ∧
      ∃ d ∈ distinctCycles [["c", "b", "a", "c"], ["a", "b", "c", "a"]], ["a", "b", "c"] ~r d.dropLast := by
  have hc : ["b", "c", "a", "b"].dropLast.Nodup := by decide
  have hcycles : ∀ c ∈ [["c", "b", "a", "c"], ["a", "b", "c", "a"]], c.dropLast.Nodup := by decide
  obtain ⟨hother, -, -⟩ := canonicalCycle_tells_apart hc hcycles ["c", "b", "a", "c"]
  obtain ⟨hsame, -, hkept⟩ := canonicalCycle_tells_apart hc hcycles ["a", "b", "c", "a"]
  refine ⟨hc, hcycles, ?_, hsame.2 (by decide), hkept ["a", "b", "c", "a"] (by simp)⟩
  exact mt hother.1 (by decide)

end DocCompiler.Graph
