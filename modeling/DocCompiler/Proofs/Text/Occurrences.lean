import DocCompiler.Proofs.Text.Pieces

/-! Places that a scan finds are all there are. Where no match begins inside another one, a scan
comes to each place of a text at which the recogniser would match, whatever stands before it. -/

namespace DocCompiler.Text

variable {α : Type} {recognise : Recogniser α} {source : α → List Char} {a : α} {size : Nat}

/-- No match begins inside another one. -/
def Recogniser.Apart (recognise : Recogniser α) : Prop :=
  ∀ cs a size, recognise cs = some (a, size) →
    ∀ k, 0 < k → k < size → recognise (cs.drop k) = none

theorem scan_of_recognise {cs : List Char} (hw : recognise.Writes source)
    (h : recognise cs = some (a, size)) :
    scan recognise cs = .found a :: scan recognise (cs.drop size) := by
  obtain ⟨hpos, hsize, hfront⟩ := hw cs a size h
  cases cs with
  | nil =>
    rw [List.prefix_nil.1 hfront, List.length_nil] at hsize
    omega
  | cons c cs =>
    obtain ⟨n, rfl⟩ := Nat.exists_eq_add_of_lt hpos
    rw [scan_cons_of_some h]
    simp

/-- The first piece of a scan, and what is scanned behind it. -/
theorem scan_eq_cons {cs : List Char} {p : Piece α} {rest : List (Piece α)}
    (hw : recognise.Writes source) (h : scan recognise cs = p :: rest) :
    (∃ c tail, cs = c :: tail ∧ recognise (c :: tail) = none ∧ p = .plain c ∧
      scan recognise tail = rest) ∨
    ∃ a size, recognise cs = some (a, size) ∧ p = .found a ∧
      scan recognise (cs.drop size) = rest := by
  cases cs with
  | nil => cases h
  | cons c tail =>
    cases hfound : recognise (c :: tail) with
    | none =>
      rw [scan_cons_of_none hfound] at h
      obtain ⟨rfl, hrest⟩ := List.cons.inj h
      exact .inl ⟨c, tail, rfl, hfound, rfl, hrest⟩
    | some found =>
      obtain ⟨a, size⟩ := found
      rw [scan_of_recognise hw hfound] at h
      obtain ⟨rfl, hrest⟩ := List.cons.inj h
      exact .inr ⟨a, size, rfl, rfl, hrest⟩

theorem exists_scan_eq_of_recognise (hw : recognise.Writes source) (hapart : recognise.Apart)
    {rest : List Char} (h : recognise rest = some (a, size)) (before : List Char) :
    ∃ ps, ps.flatMap (Piece.written source) = before ∧
      scan recognise (before ++ rest) = ps ++ .found a :: scan recognise (rest.drop size) := by
  match before with
  | [] => exact ⟨[], rfl, scan_of_recognise hw h⟩
  | c :: cs =>
    cases hfound : recognise (c :: (cs ++ rest)) with
    | none =>
      obtain ⟨ps, hps, hscan⟩ := exists_scan_eq_of_recognise hw hapart h cs
      refine ⟨.plain c :: ps, congrArg (c :: ·) hps, ?_⟩
      rw [List.cons_append, scan_cons_of_none hfound, hscan, List.cons_append]
    | some found =>
      obtain ⟨b, n⟩ := found
      obtain ⟨hpos, hn, hfront⟩ := hw _ b n hfound
      -- this match ends before the other one begins
      have hle : n ≤ (c :: cs).length := by
        by_contra hlt
        have hnone := hapart _ b n hfound (c :: cs).length (Nat.succ_pos _) (by omega)
        rw [← List.cons_append, List.drop_left, h] at hnone
        cases hnone
      have hsource : (c :: cs).take n = source b := by
        rw [← List.cons_append] at hfront
        rw [List.prefix_iff_eq_take.1 hfront, ← hn, List.take_append_of_le_length hle]
      have hshorter : ((c :: cs).drop n).length < (c :: cs).length := by
        rw [List.length_drop]
        simp only [List.length_cons]
        omega
      obtain ⟨ps, hps, hscan⟩ := exists_scan_eq_of_recognise hw hapart h ((c :: cs).drop n)
      refine ⟨.found b :: ps, ?_, ?_⟩
      · rw [List.flatMap_cons, hps, Piece.written, ← hsource, List.take_append_drop]
      · rw [List.cons_append, scan_of_recognise hw hfound, ← List.cons_append,
          List.drop_append_of_le_length hle, hscan, List.cons_append]
termination_by before.length

theorem exists_recognise_of_scan_eq (hw : recognise.Writes source) {cs : List Char}
    {ps qs : List (Piece α)} (h : scan recognise cs = ps ++ .found a :: qs) :
    ∃ rest size, cs = ps.flatMap (Piece.written source) ++ rest ∧
      recognise rest = some (a, size) := by
  induction ps generalizing cs with
  | nil =>
    rcases scan_eq_cons hw h with ⟨c, tail, -, -, hp, -⟩ | ⟨b, size, hmatch, hp, -⟩
    · cases hp
    · obtain rfl := Piece.found.inj hp
      exact ⟨cs, size, rfl, hmatch⟩
  | cons p ps ih =>
    rcases scan_eq_cons hw h with ⟨c, tail, rfl, -, rfl, hrest⟩ | ⟨b, n, hfound, rfl, hrest⟩
    · obtain ⟨rest, size, hcs, hmatch⟩ := ih hrest
      exact ⟨rest, size, congrArg (c :: ·) hcs, hmatch⟩
    · obtain ⟨rest, size, hcs, hmatch⟩ := ih hrest
      obtain ⟨-, hn, after, hafter⟩ := hw _ b n hfound
      refine ⟨rest, size, ?_, hmatch⟩
      rw [← hafter, hn, List.drop_left] at hcs
      rw [← hafter, hcs, List.flatMap_cons, List.append_assoc]
      rfl

def Recogniser.MatchesAt (recognise : Recogniser α) (text before : List Char) (a : α) : Prop :=
  ∃ rest size, text = before ++ rest ∧ recognise rest = some (a, size)

theorem matchesAt_iff (hw : recognise.Writes source) (hapart : recognise.Apart)
    {text before : List Char} :
    recognise.MatchesAt text before a ↔ ∃ ps qs, scan recognise text = ps ++ .found a :: qs ∧
      ps.flatMap (Piece.written source) = before := by
  constructor
  · rintro ⟨rest, size, rfl, hmatch⟩
    obtain ⟨ps, hps, hscan⟩ := exists_scan_eq_of_recognise hw hapart hmatch before
    exact ⟨ps, _, hscan, hps⟩
  · rintro ⟨ps, qs, hscan, rfl⟩
    obtain ⟨rest, size, htext, hmatch⟩ := exists_recognise_of_scan_eq hw hscan
    exact ⟨rest, size, htext, hmatch⟩

theorem source_prefix_of_recognise (hw : recognise.Writes source) (hapart : recognise.Apart)
    {between rest : List Char} {a' : α} {size' : Nat}
    (h : recognise (between ++ rest) = some (a, size)) (h' : recognise rest = some (a', size'))
    (hne : between ≠ []) : source a <+: between := by
  obtain ⟨-, hsize, hfront⟩ := hw _ a size h
  refine List.prefix_of_prefix_length_le hfront (List.prefix_append _ _) ?_
  by_contra hlong
  have hnone := hapart _ a size h between.length (List.length_pos_iff.2 hne) (by omega)
  rw [List.drop_left, h'] at hnone
  cases hnone

theorem apart_of_matchesAt (hw : recognise.Writes source) (hapart : recognise.Apart)
    {text before before' : List Char} {a' : α} (h : recognise.MatchesAt text before a)
    (h' : recognise.MatchesAt text before' a') : before = before' ∧ a = a' ∨
      before ++ source a <+: before' ∨ before' ++ source a' <+: before := by
  obtain ⟨rest, size, htext, hmatch⟩ := h
  obtain ⟨rest', size', htext', hmatch'⟩ := h'
  by_cases hsame : before = before'
  case pos =>
    subst hsame
    obtain rfl := List.append_cancel_left (htext.symm.trans htext')
    cases hmatch.symm.trans hmatch'
    exact .inl ⟨rfl, rfl⟩
  case neg =>
    rcases List.append_eq_append_iff.1 (htext.symm.trans htext') with
      ⟨between, rfl, rfl⟩ | ⟨between, rfl, rfl⟩
    · have hne : between ≠ [] := fun hnil => hsame (by rw [hnil, List.append_nil])
      refine .inr (.inl ((List.prefix_append_right_inj before).2 ?_))
      exact source_prefix_of_recognise hw hapart hmatch hmatch' hne
    · have hne : between ≠ [] := fun hnil => hsame (by rw [hnil, List.append_nil])
      refine .inr (.inr ((List.prefix_append_right_inj before').2 ?_))
      exact source_prefix_of_recognise hw hapart hmatch' hmatch hne

/-- What is recognised does not depend on what stands behind it. -/
def Recogniser.Stable (recognise : Recogniser α) (source : α → List Char) : Prop :=
  ∀ cs a size, recognise cs = some (a, size) →
    ∀ after, recognise (source a ++ after) = some (a, size)

/-- Pieces at the front of a scan are the scan of what they are written as. -/
theorem scan_written_of_prefix (hw : recognise.Writes source) (hstable : recognise.Stable source)
    {cs : List Char} {ps qs : List (Piece α)} (h : scan recognise cs = ps ++ qs) :
    scan recognise (ps.flatMap (Piece.written source)) = ps := by
  induction ps generalizing cs with
  | nil => rfl
  | cons p ps ih =>
    rw [List.cons_append] at h
    rcases scan_eq_cons hw h with ⟨c, tail, rfl, hfound, rfl, hrest⟩ | ⟨b, n, hfound, rfl, hrest⟩
    · have htail : tail = ps.flatMap (Piece.written source) ++ qs.flatMap (Piece.written source) := by
        rw [← List.flatMap_append, ← hrest, flatMap_written_scan hw]
      have hnone : recognise (c :: ps.flatMap (Piece.written source)) = none := by
        rw [Option.eq_none_iff_forall_ne_some]
        rintro ⟨b, n⟩ hmatch
        obtain ⟨-, -, more, hmore⟩ := hw _ b n hmatch
        -- what matches there would have matched in the longer text
        have := hstable _ b n hmatch (more ++ qs.flatMap (Piece.written source))
        rw [← List.append_assoc, hmore, List.cons_append, ← htail, hfound] at this
        cases this
      have hwritten : (Piece.plain c :: ps).flatMap (Piece.written source) =
          c :: ps.flatMap (Piece.written source) := rfl
      rw [hwritten, scan_cons_of_none hnone, ih hrest]
    · obtain ⟨-, hn, -⟩ := hw _ b n hfound
      have hmatch := hstable _ b n hfound (ps.flatMap (Piece.written source))
      rw [List.flatMap_cons, Piece.written, scan_of_recognise hw hmatch, hn, List.drop_left,
        ih hrest]

theorem scan_written_of_suffix (hw : recognise.Writes source) {cs : List Char}
    {ps qs : List (Piece α)} (h : scan recognise cs = ps ++ qs) :
    scan recognise (qs.flatMap (Piece.written source)) = qs := by
  induction ps generalizing cs with
  | nil =>
    rw [List.nil_append] at h
    rw [← h, flatMap_written_scan hw]
  | cons p ps ih =>
    rcases scan_eq_cons hw h with ⟨c, tail, -, -, -, hrest⟩ | ⟨b, n, -, -, hrest⟩
    · exact ih hrest
    · exact ih hrest

theorem scan_written_of_infix (hw : recognise.Writes source) (hstable : recognise.Stable source)
    {cs : List Char} {part : List (Piece α)} (h : part <:+: scan recognise cs) :
    scan recognise (part.flatMap (Piece.written source)) = part := by
  obtain ⟨ps, qs, hscan⟩ := h
  rw [List.append_assoc] at hscan
  exact scan_written_of_prefix hw hstable (scan_written_of_suffix hw hscan.symm)

end DocCompiler.Text
