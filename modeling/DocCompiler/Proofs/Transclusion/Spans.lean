import DocCompiler.Proofs.Text.Occurrences
import DocCompiler.Proofs.Transclusion.Tokens

/-! Where the tokens of a text stand. They are found at all places at which a token is spelt, and
nowhere else, in the order of the text and without overlaps. -/

namespace DocCompiler.Transclusion.Token

open Text (Piece)

theorem apart_recognise : Text.Recogniser.Apart recognise := by
  intro cs t size h k hpos hlt
  obtain ⟨hsource, rfl, after, rfl⟩ := recognise_eq_some h
  have hne : t.source.toList.drop k ≠ [] := by
    rw [ne_eq, List.drop_eq_nil_iff]
    omega
  have hpart : t.source.toList.drop k ≠ t.source.toList := by
    intro heq
    have := congrArg List.length heq
    rw [List.length_drop] at this
    omega
  rw [Option.eq_none_iff_forall_ne_some]
  rintro ⟨t', size'⟩ h'
  obtain ⟨⟨inner', -, hsource'⟩, -, after', hfront⟩ := recognise_eq_some h'
  rw [hsource', List.drop_append_of_le_length hlt.le] at hfront
  exact hsource.append_ne hne (List.drop_suffix k _) hpart after _ hfront.symm

def written (ps : List (Piece Token)) : List Char :=
  ps.flatMap (Piece.written (·.source.toList))

@[simp] theorem written_nil : written [] = [] := rfl

theorem written_append (ps qs : List (Piece Token)) :
    written (ps ++ qs) = written ps ++ written qs :=
  List.flatMap_append

def byteSize (ps : List (Piece Token)) : Nat := (String.ofList (written ps)).utf8ByteSize

theorem byteSize_plain_cons (c : Char) (ps : List (Piece Token)) :
    byteSize (.plain c :: ps) = c.utf8Size + byteSize ps := by
  simp [byteSize, written, Piece.written, String.ofList_cons]

theorem byteSize_found_cons (t : Token) (ps : List (Piece Token)) :
    byteSize (.found t :: ps) = t.source.utf8ByteSize + byteSize ps := by
  simp [byteSize, written, Piece.written, String.ofList_append]

theorem mem_locateFrom {start : Nat} {ps : List (Piece Token)} {l : Located} :
    l ∈ locateFrom start ps ↔ ∃ front back, ps = front ++ .found l.token :: back ∧
      l.start = start + byteSize front ∧ l.stop = l.start + l.token.source.utf8ByteSize := by
  induction ps generalizing start with
  | nil => simp [locateFrom]
  | cons p ps ih =>
    cases p with
    | plain c =>
      rw [locateFrom, ih]
      constructor
      · rintro ⟨front, back, rfl, hstart, hstop⟩
        exact ⟨.plain c :: front, back, rfl, by rw [byteSize_plain_cons, hstart]; omega, hstop⟩
      · rintro ⟨front, back, hps, hstart, hstop⟩
        cases front with
        | nil => cases hps
        | cons q front =>
          obtain ⟨rfl, rfl⟩ := List.cons.inj hps
          rw [byteSize_plain_cons] at hstart
          exact ⟨front, back, rfl, by omega, hstop⟩
    | found t =>
      rw [locateFrom, List.mem_cons, ih]
      constructor
      · rintro (rfl | ⟨front, back, rfl, hstart, hstop⟩)
        · exact ⟨[], ps, rfl, rfl, rfl⟩
        · exact ⟨.found t :: front, back, rfl, by rw [byteSize_found_cons, hstart]; omega, hstop⟩
      · rintro ⟨front, back, hps, hstart, hstop⟩
        cases front with
        | nil =>
          obtain ⟨start', stop, token⟩ := l
          obtain rfl : t = token := Piece.found.inj (List.cons.inj hps).1
          obtain rfl : start' = start := hstart
          obtain rfl : stop = start' + t.source.utf8ByteSize := hstop
          exact .inl rfl
        | cons q front =>
          obtain ⟨rfl, rfl⟩ := List.cons.inj hps
          rw [byteSize_found_cons] at hstart
          exact .inr ⟨front, back, rfl, by omega, hstop⟩

theorem pairwise_locateFrom (start : Nat) (ps : List (Piece Token)) :
    (locateFrom start ps).Pairwise fun a b => a.stop ≤ b.start := by
  induction ps generalizing start with
  | nil => exact .nil
  | cons p ps ih =>
    cases p with
    | plain c => exact ih _
    | found t =>
      refine .cons (fun l hl => ?_) (ih _)
      obtain ⟨front, back, -, hstart, -⟩ := mem_locateFrom.1 hl
      rw [hstart]
      exact Nat.le_add_right _ _

theorem mem_locateFrom_scan {start : Nat} {cs : List Char} {l : Located} :
    l ∈ locateFrom start (Text.scan recognise cs) ↔ ∃ (s : Spelling) (before after : List Char),
      s.Spells l.token ∧ cs = before ++ (l.token.source.toList ++ after) ∧
        l.start = start + (String.ofList before).utf8ByteSize ∧
        l.stop = l.start + l.token.source.utf8ByteSize := by
  rw [mem_locateFrom]
  constructor
  · rintro ⟨front, back, hpieces, hstart, hstop⟩
    obtain ⟨rest, size, hcs, hmatch⟩ := Text.exists_recognise_of_scan_eq writes_recognise hpieces
    obtain ⟨s, hs, ⟨after, rfl⟩, -⟩ := recognise_eq_some_iff.1 hmatch
    exact ⟨s, _, after, hs, hs.source ▸ hcs, hstart, hstop⟩
  · rintro ⟨s, before, after, hs, rfl, hstart, hstop⟩
    have hmatch : recognise (l.token.source.toList ++ after) = some (l.token, s.chars.length) :=
      recognise_eq_some_iff.2 ⟨s, hs, hs.source ▸ List.prefix_append _ _, rfl⟩
    obtain ⟨front, hfront, hscan⟩ :=
      Text.exists_scan_eq_of_recognise writes_recognise apart_recognise hmatch before
    exact ⟨front, _, hscan, by rw [byteSize, written, hfront, hstart], hstop⟩

theorem mem_located {text : String} {l : Located} :
    l ∈ located text ↔ ∃ (s : Spelling) (before after : String),
      s.Spells l.token ∧ text = before ++ l.token.source ++ after ∧
        l.start = before.utf8ByteSize ∧ l.stop = l.start + l.token.source.utf8ByteSize := by
  rw [located, pieces, mem_locateFrom_scan]
  constructor
  · rintro ⟨s, before, after, hs, htext, hstart, hstop⟩
    refine ⟨s, .ofList before, .ofList after, hs, ?_, hstart.trans (Nat.zero_add _), hstop⟩
    rw [String.ext_iff, htext]
    simp
  · rintro ⟨s, before, after, hs, rfl, hstart, hstop⟩
    refine ⟨s, before.toList, after.toList, hs, by simp, ?_, hstop⟩
    rw [hstart, String.ofList_toList, Nat.zero_add]

theorem utf8ByteSize_source_pos {s : Spelling} {t : Token} (hs : s.Spells t) :
    0 < t.source.utf8ByteSize := by
  refine Nat.pos_of_ne_zero fun hzero => ?_
  have hchars := hs.source
  rw [String.utf8ByteSize_eq_zero_iff.1 hzero] at hchars
  cases hchars

theorem start_lt_stop {start : Nat} {cs : List Char} {l : Located}
    (h : l ∈ locateFrom start (Text.scan recognise cs)) : l.start < l.stop := by
  obtain ⟨s, -, -, hs, -, -, hstop⟩ := mem_locateFrom_scan.1 h
  have := utf8ByteSize_source_pos hs
  omega

/-- **All tokens are found, and nothing else.** Whatever the text: a token with a place is among
those found if and only if the text holds a spelling of that token in that place; they are in the
order of the text, each ends before the next one begins, and all of them lie in the text. -/
theorem located_iff_spelt (text : String) :
    (∀ l : Located, l ∈ located text ↔ ∃ (s : Spelling) (before after : String),
      s.Spells l.token ∧ text = before ++ l.token.source ++ after ∧
        l.start = before.utf8ByteSize ∧ l.stop = l.start + l.token.source.utf8ByteSize) ∧
    (located text).Pairwise (fun a b => a.stop ≤ b.start) ∧
    ∀ l ∈ located text, l.start < l.stop ∧ l.stop ≤ text.utf8ByteSize := by
  refine ⟨fun l => mem_located, pairwise_locateFrom 0 _, fun l hl => ?_⟩
  obtain ⟨s, before, after, -, rfl, hstart, hstop⟩ := mem_located.1 hl
  refine ⟨start_lt_stop hl, ?_⟩
  rw [String.utf8ByteSize_append, String.utf8ByteSize_append]
  omega

/-- Braces around a token, a blank that takes three bytes, a revision that is no number, and a
token that a brace breaks. -/
def braces : String :=
  "\x7b\x7b\x7b>\u2003é@+07\x7d\x7d\x7d\x7b\x7b> b@@ \x7d\x7d\x7b\x7b> c@1\x7d \x7d"

theorem located_iff_spelt_braces :
    let l : Located := ⟨1, 15, ⟨"\x7b\x7b>\u2003é@+07\x7d\x7d", "é", some (.pinned 7)⟩⟩
    l ∈ located braces ∧ l.start < l.stop ∧ l.stop ≤ braces.utf8ByteSize :=
  have hmem : _ ∈ located braces := List.mem_cons_self
  ⟨hmem, (located_iff_spelt braces).2.2 _ hmem⟩

example : (located braces).map (fun l => (l.start, l.stop, l.token.identifier, l.token.revision)) =
    [(1, 15, "é", some (.pinned 7)), (16, 26, "b", some (.invalid "@"))] := rfl

end DocCompiler.Transclusion.Token
