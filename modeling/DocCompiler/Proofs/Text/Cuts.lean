import DocCompiler.Proofs.Text.Occurrences

/-! Texts cut into places and the gaps around them. A text is cut at all matches of a recogniser in
one way only, which is the one that a scan finds. -/

namespace DocCompiler.Text

variable {α : Type} {recognise : Recogniser α} {source : α → List Char}

/-- Places with the gap before each of them, and the gap behind the last one. -/
structure Cut (α : Type) where
  parts : List (List Char × α)
  last : List Char

namespace Cut

def fill (write : α → List Char) (c : Cut α) : List Char :=
  c.parts.flatMap (fun p => p.1 ++ write p.2) ++ c.last

def places (c : Cut α) : List α := c.parts.map (·.2)

/-- One of the places stands right behind these characters. -/
def At (source : α → List Char) (c : Cut α) (before : List Char) (a : α) : Prop :=
  ∃ done gap rest, c.parts = done ++ (gap, a) :: rest ∧ before = (Cut.mk done gap).fill source

/-- A text is cut where something occurs in it, and nowhere else. -/
structure Marks (source : α → List Char) (occurs : List Char → α → Prop) (text : List Char)
    (c : Cut α) : Prop where
  text : c.fill source = text
  places : ∀ before a, c.At source before a ↔ occurs before a

def pieces (c : Cut α) : List (Piece α) :=
  c.parts.flatMap (fun p => p.1.map .plain ++ [.found p.2]) ++ c.last.map .plain

def plain (x : Char) : Cut α → Cut α
  | ⟨[], last⟩ => ⟨[], x :: last⟩
  | ⟨(gap, a) :: rest, last⟩ => ⟨(x :: gap, a) :: rest, last⟩

def found (a : α) (c : Cut α) : Cut α := ⟨([], a) :: c.parts, c.last⟩

def ofPieces : List (Piece α) → Cut α
  | [] => ⟨[], []⟩
  | .plain x :: ps => (ofPieces ps).plain x
  | .found a :: ps => (ofPieces ps).found a

theorem pieces_plain (x : Char) (c : Cut α) : (c.plain x).pieces = .plain x :: c.pieces := by
  obtain ⟨parts, last⟩ := c
  cases parts <;> rfl

theorem pieces_found (a : α) (c : Cut α) : (c.found a).pieces = .found a :: c.pieces := rfl

theorem pieces_ofPieces (ps : List (Piece α)) : (ofPieces ps).pieces = ps := by
  induction ps with
  | nil => rfl
  | cons p ps ih =>
    cases p with
    | plain x => rw [ofPieces, pieces_plain, ih]
    | found a => rw [ofPieces, pieces_found, ih]

theorem pieces_append (done rest : List (List Char × α)) (gap last : List Char) (a : α) :
    (Cut.mk (done ++ (gap, a) :: rest) last).pieces =
      (Cut.mk done gap).pieces ++ .found a :: (Cut.mk rest last).pieces := by
  simp [pieces]

theorem foldr_plain_last (gap : List Char) :
    gap.foldr plain (Cut.mk ([] : List (List Char × α)) []) = ⟨[], gap⟩ := by
  induction gap with
  | nil => rfl
  | cons x gap ih => rw [List.foldr_cons, ih]; rfl

theorem foldr_plain_found (gap : List Char) (a : α) (c : Cut α) :
    gap.foldr plain (c.found a) = ⟨(gap, a) :: c.parts, c.last⟩ := by
  induction gap with
  | nil => rfl
  | cons x gap ih => rw [List.foldr_cons, ih]; rfl

theorem ofPieces_append (gap : List Char) (ps : List (Piece α)) :
    ofPieces (gap.map .plain ++ ps) = gap.foldr plain (ofPieces ps) := by
  induction gap with
  | nil => rfl
  | cons x gap ih => exact congrArg (plain x) ih

theorem ofPieces_pieces (c : Cut α) : ofPieces c.pieces = c := by
  obtain ⟨parts, last⟩ := c
  induction parts with
  | nil =>
    have hpieces : (Cut.mk ([] : List (List Char × α)) last).pieces = last.map .plain ++ [] := by
      simp [pieces]
    rw [hpieces, ofPieces_append, ofPieces, foldr_plain_last]
  | cons p parts ih =>
    have hpieces : (Cut.mk (p :: parts) last).pieces =
        p.1.map .plain ++ .found p.2 :: (Cut.mk parts last).pieces := by simp [pieces]
    rw [hpieces, ofPieces_append, ofPieces, ih, foldr_plain_found]

theorem pieces_inj {c c' : Cut α} (h : c.pieces = c'.pieces) : c = c' := by
  rw [← ofPieces_pieces c, h, ofPieces_pieces]

theorem fill_eq (write : α → List Char) (c : Cut α) :
    c.fill write = c.pieces.flatMap (Piece.written write) := by
  have hgap (gap : List Char) : (gap.map Piece.plain).flatMap (Piece.written write) = gap := by
    simp [List.flatMap_map, Piece.written]
  rw [fill, pieces, List.flatMap_append, hgap, List.flatMap_assoc]
  simp [hgap, Piece.written]

theorem mem_places {c : Cut α} {a : α} : a ∈ c.places ↔ .found a ∈ c.pieces := by
  simp [places, pieces]

theorem at_iff {c : Cut α} {before : List Char} {a : α} :
    c.At source before a ↔ ∃ ps qs, c.pieces = ps ++ .found a :: qs ∧
      ps.flatMap (Piece.written source) = before := by
  constructor
  · rintro ⟨done, gap, rest, hparts, rfl⟩
    refine ⟨(Cut.mk done gap).pieces, (Cut.mk rest c.last).pieces, ?_, (fill_eq _ _).symm⟩
    rw [← pieces_append, ← hparts]
  · rintro ⟨ps, qs, hpieces, rfl⟩
    have hcut : c = ⟨(ofPieces ps).parts ++ ((ofPieces ps).last, a) :: (ofPieces qs).parts,
        (ofPieces qs).last⟩ := by
      apply pieces_inj
      rw [pieces_append, pieces_ofPieces, pieces_ofPieces, hpieces]
    refine ⟨(ofPieces ps).parts, (ofPieces ps).last, (ofPieces qs).parts, by rw [hcut], ?_⟩
    rw [fill_eq, pieces_ofPieces]

end Cut

/-- Two pieces of a sequence that begin at the same place are the same one. -/
theorem eq_of_flatMap_eq {β : Type} {f : β → List Char} {ps ps' qs qs' : List β} {p p' : β}
    (h : ps ++ p :: qs = ps' ++ p' :: qs') (hf : ps.flatMap f = ps'.flatMap f) (hp : f p ≠ [])
    (hp' : f p' ≠ []) : p = p' := by
  rcases List.append_eq_append_iff.1 h with ⟨between, rfl, hbetween⟩ | ⟨between, rfl, hbetween⟩
  all_goals
    cases between with
    | nil => cases hbetween; rfl
    | cons b between =>
      obtain ⟨rfl, -⟩ := List.cons.inj hbetween
      simp [*] at hf

/-- The pieces of a text are those of its scan, if each place is a match and no match begins at any
other character. -/
theorem eq_scan_of_pieces (hw : recognise.Writes source) (ps : List (Piece α))
    (hfound : ∀ done a rest, ps = done ++ .found a :: rest →
      ∃ size, recognise ((Piece.found a :: rest).flatMap (Piece.written source)) = some (a, size))
    (hplain : ∀ done x rest, ps = done ++ .plain x :: rest →
      recognise ((Piece.plain x :: rest).flatMap (Piece.written source)) = none) :
    ps = scan recognise (ps.flatMap (Piece.written source)) := by
  induction ps with
  | nil => rfl
  | cons p ps ih =>
    have hrest := ih (fun done a rest h => hfound (p :: done) a rest (congrArg (p :: ·) h))
      fun done x rest h => hplain (p :: done) x rest (congrArg (p :: ·) h)
    cases p with
    | plain x =>
      have hnone := hplain [] x ps rfl
      rw [List.flatMap_cons] at hnone ⊢
      rw [Piece.written, List.singleton_append] at hnone ⊢
      rw [scan_cons_of_none hnone, ← hrest]
    | found a =>
      obtain ⟨size, hmatch⟩ := hfound [] a ps rfl
      obtain ⟨-, hsize, -⟩ := hw _ a size hmatch
      rw [scan_of_recognise hw hmatch, List.flatMap_cons, Piece.written, hsize, List.drop_left,
        ← hrest]

theorem Cut.marks_iff_pieces_eq (hw : recognise.Writes source) (hapart : recognise.Apart)
    {text : List Char} {c : Cut α} :
    c.Marks source (recognise.MatchesAt text) text ↔ c.pieces = scan recognise text := by
  constructor
  · rintro ⟨rfl, hplaces⟩
    have hsplit {done rest : List (Piece α)} (h : c.pieces = done ++ rest) :
        c.fill source = done.flatMap (Piece.written source) ++
          rest.flatMap (Piece.written source) := by
      rw [fill_eq, h, List.flatMap_append]
    rw [fill_eq]
    refine eq_scan_of_pieces hw c.pieces (fun done a rest h => ?_) fun done x rest h => ?_
    · obtain ⟨rest', size, hrest', hmatch⟩ := (hplaces _ a).1 (at_iff.2 ⟨done, rest, h, rfl⟩)
      rw [hsplit h, List.append_cancel_left_eq] at hrest'
      exact ⟨size, hrest' ▸ hmatch⟩
    · -- a match at a character of a gap would be at a place of the cut, which begins elsewhere
      by_contra hsome
      obtain ⟨⟨a, size⟩, hmatch⟩ := Option.ne_none_iff_exists'.1 hsome
      obtain ⟨ps, qs, hpieces, hbefore⟩ := at_iff.1 ((hplaces _ a).2 ⟨_, size, hsplit h, hmatch⟩)
      obtain ⟨hpos, hsize, -⟩ := hw _ a size hmatch
      have hne : source a ≠ [] := List.ne_nil_of_length_pos (hsize ▸ hpos)
      cases eq_of_flatMap_eq (h.symm.trans hpieces) hbefore.symm (List.cons_ne_nil x []) hne
  · intro h
    refine ⟨?_, fun before a => ?_⟩
    · rw [fill_eq, h, flatMap_written_scan hw]
    · rw [at_iff, h, matchesAt_iff hw hapart]

/-- **A text is cut at all matches in one way only**, which is what a scan comes to. -/
theorem Cut.marks_iff (hw : recognise.Writes source) (hapart : recognise.Apart) {text : List Char}
    {c : Cut α} : c.Marks source (recognise.MatchesAt text) text ↔
      c = ofPieces (scan recognise text) := by
  rw [marks_iff_pieces_eq hw hapart]
  constructor
  · intro h
    rw [← h, ofPieces_pieces]
  · rintro rfl
    exact pieces_ofPieces _

end DocCompiler.Text
