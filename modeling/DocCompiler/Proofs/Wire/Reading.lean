import DocCompiler.Proofs.Json.Nested
import DocCompiler.Proofs.Time.Timestamp
import DocCompiler.Proofs.Wire.Passage

/-! Codecs as readers of text. What a codec writes compactly it reads as the canonical form of what
it wrote, and whatever it reads is in canonical form and nests no deeper than there is room for it. -/

namespace DocCompiler.Wire

open Json (Closed Kept Readable Reader Room)
open Json.Reader (Gathers Gives Takes bind_ok map_ok)

variable {α β σ : Type}

/-- Reading text with the codec; the values that are `Proper` it reads as it writes them. -/
structure Codec.Reads (c : Codec α) (Proper : α → Prop) : Prop where
  gives : ∀ rounds depth, Gives (c.read ⟨rounds, depth + 1⟩) (Kept (depth + 1))
  takes : ∀ rounds depth a, Proper a → Readable depth (c.encode a) →
    (c.encode a).chars.length < rounds →
      Takes (c.read ⟨rounds, depth⟩) (c.encode a) (c.encode a).canonical

/-- Reading text with the fields, which have names of their own. -/
structure Fields.Reads (x : Fields σ α) (Proper : σ → Prop) : Prop where
  keys : ∀ s, ((x.write s).map (·.1)).Sublist (x.slots.map (·.name))
  present : ∀ s, ∀ slot ∈ x.slots, slot.required = true → slot.name ∈ (x.write s).map (·.1)
  gives : ∀ slot ∈ x.slots, ∀ rounds depth, Gives (slot.read ⟨rounds, depth + 1⟩) (Kept (depth + 1))
  takes : ∀ s, Proper s → ∀ e ∈ x.write s, ∃ slot ∈ x.slots, slot.name = e.1 ∧
    ∀ rounds depth, Readable depth e.2 → e.2.chars.length < rounds →
      Takes (slot.read ⟨rounds, depth⟩) e.2 e.2.canonical

theorem Codec.Reads.imp {c : Codec α} {Proper Proper' : α → Prop} (h : c.Reads Proper)
    (hproper : ∀ a, Proper' a → Proper a) : c.Reads Proper' :=
  { h with takes := fun rounds depth a ha => h.takes rounds depth a (hproper a ha) }

section Scalars

theorem require_ok {x : Except Json.Mismatch α} {a : α} (h : x = .ok a) (cs : List Char) :
    require x cs = .ok ((), cs) := by
  rw [h]
  rfl

theorem gives_readScalar (expected : String) : Gives (readScalar expected) Reader.Scalar := by
  rw [readScalar]
  refine .after fun next => ?_
  split
  · exact .throw _
  · exact .throw _
  · exact .throw _
  · exact Reader.gives_scalar _

theorem scalar_cons {v : Json} (h : Reader.Scalar v) :
    ∃ c cs, v.chars = c :: cs ∧ c ≠ '[' ∧ c ≠ '{' := by
  obtain ⟨c, cs, hchars, hc⟩ := v.chars_cons
  refine ⟨c, cs, hchars, ?_, ?_⟩ <;>
  · rintro rfl
    cases v with
    | bool b => cases b <;> cases hc
    | null | num | str => cases hc
    | arr | obj => exact h

theorem takes_readScalar {v : Json} (h : Reader.Scalar v) {depth : Nat} (hread : Readable depth v)
    (expected : String) : Takes (readScalar expected) v v := by
  obtain ⟨hopens, htakes⟩ := hread.takes true (Nat.lt_succ_self _)
  refine ⟨hopens, fun rest hrest => ?_⟩
  have hvalue := htakes rest hrest
  obtain ⟨c, cs, hchars, hspace, -⟩ := hopens
  obtain ⟨c', cs', hchars', hlist, hobject⟩ := scalar_cons h
  obtain ⟨rfl, rfl⟩ := List.cons.inj (hchars.symm.trans hchars')
  obtain ⟨depth, rfl⟩ : ∃ d, depth = d + 1 := by cases hread <;> exact ⟨_, rfl⟩
  rw [hchars, List.cons_append] at hvalue ⊢
  rw [Reader.value_scalar true _ depth hspace hlist hobject] at hvalue
  rw [readScalar, bind_ok (Reader.next?_cons hspace _)]
  simp only
  exact hvalue

theorem scalar_canonical {v : Json} (h : Reader.Scalar v) : v.canonical = v := (h.kept 0).1

namespace Codec

theorem reads_scalar {expected : String} {encode : α → Json}
    {decode : Json → Option (Except Json.Mismatch α)} (hscalar : ∀ a, Reader.Scalar (encode a))
    (hdecode : ∀ a, ∃ b, decode (encode a) = some (.ok b)) :
    (Codec.scalar expected encode decode).Reads fun _ => True where
  gives rounds depth := by
    refine (gives_readScalar expected).bind fun v hv => .after fun _ => .pure ?_
    exact hv.kept depth
  takes rounds depth a _ hread _ := by
    obtain ⟨hopens, htakes⟩ := takes_readScalar (hscalar a) hread expected
    refine ⟨hopens, fun rest hrest => ?_⟩
    obtain ⟨b, hb⟩ := hdecode a
    have hok : ((decode (encode a)).getD (.error (.kind (encode a).shown expected))) = .ok b := by
      rw [hb]
      rfl
    show (readScalar expected >>= fun v => require _ >>= fun _ => pure v)
      ((encode a).chars ++ rest) = .ok ((encode a).canonical, rest)
    rw [bind_ok (htakes rest hrest), bind_ok (require_ok hok rest), scalar_canonical (hscalar a)]
    rfl

theorem reads_string : string.Reads fun _ => True :=
  reads_scalar (fun _ => trivial) fun s => ⟨s, rfl⟩

theorem reads_bool : bool.Reads fun _ => True :=
  reads_scalar (fun _ => trivial) fun b => ⟨b, rfl⟩

theorem reads_integer {expected : String} {low high : Int} {toInt : α → Int} {ofInt : Int → α}
    (h : ∀ a, low ≤ toInt a ∧ toInt a ≤ high) :
    (integer expected low high toInt ofInt).Reads fun _ => True :=
  reads_scalar (fun _ => trivial) fun a => ⟨ofInt (toInt a), by simp only [h a]; rfl⟩

theorem reads_uint32 : uint32.Reads fun _ => True :=
  reads_integer fun n => ⟨by omega, by have := n.toNat_lt_size; omega⟩

theorem reads_uint64 : uint64.Reads fun _ => True :=
  reads_integer fun n => ⟨by omega, by have := n.toNat_lt_size; omega⟩

theorem reads_int64 : int64.Reads fun _ => True :=
  reads_integer fun n => ⟨n.minValue_le_toInt, n.toInt_le⟩

theorem reads_timestamp : timestamp.Reads fun _ => True :=
  reads_scalar (fun _ => trivial) fun t => ⟨t.sent, by simp only [Time.Timestamp.read_text]; rfl⟩

theorem reads_any : any.Reads fun _ => True where
  gives rounds depth := Reader.gives_value false rounds (depth + 1)
  takes _ _ _ _ hread hrounds := hread.takes false hrounds

theorem reads_choice {all : List α} {name : α → String}
    (h : ∀ a, all.find? (name · == name a) = some a) :
    (choice all name).Reads fun _ => True where
  gives rounds depth := by
    have hname (s : String) : Kept (depth + 1) (.str s) := ⟨rfl, .str depth s⟩
    refine .after fun next => ?_
    split
    · exact .throw _
    · exact .after fun _ => .after fun s => .after fun _ => .pure (hname s)
    · refine Reader.gives_inside fun _ _ => .after fun more => ?_
      cases more with
      | false => exact .throw _
      | true =>
        refine .after fun s => .after fun _ => .after fun _ => .after fun v => ?_
        by_cases hunit : isUnit .plain v = true
        · simp only [hunit]
          refine .after fun next => ?_
          split
          · exact .throw _
          · exact .after fun _ => .pure (hname s)
          · exact .throw _
        · simp only [hunit]
          exact .throw _
    · exact .throw _
  takes rounds depth a _ _ _ := by
    refine ⟨⟨'"', _, rfl, by decide⟩, fun rest _ => ?_⟩
    have hpick : pick all name (name a) = .ok a := by rw [pick, h]
    have hquote : Reader.lift Json.Literal.string
        ((name a).toList.flatMap Json.escapeChar ++ '"' :: rest) = .ok (name a, rest) :=
      Json.string_quoted (name a) rest
    have hchars : ((choice all name).encode a).chars ++ rest =
        '"' :: ((name a).toList.flatMap Json.escapeChar ++ '"' :: rest) := by
      simp [choice, Json.chars, Json.quote]
    have hadvance (cs : List Char) : Reader.advance ('"' :: cs) = .ok ((), cs) := rfl
    rw [hchars]
    unfold choice
    dsimp only
    rw [bind_ok (Reader.next?_cons rfl _)]
    simp only
    rw [bind_ok (hadvance _), bind_ok hquote, bind_ok (require_ok hpick rest)]
    rfl

end Codec

end Scalars

theorem inside_ok {γ : Type} {rounds depth : Nat} {c : Char} {cs rest : List Char} {a : γ}
    {body : Room → Reader γ} (h : body ⟨rounds, depth + 1⟩ cs = .ok (a, rest)) :
    Reader.inside ⟨rounds, depth + 2⟩ body (c :: cs) = .ok (a, rest) := by
  rw [Reader.inside, if_neg (by simp)]
  exact h

namespace Codec

variable {Proper : α → Prop}

theorem takes_option {c : Codec α} (h : c.Reads Proper) {a : α} (ha : Proper a) {rounds depth : Nat}
    (hread : Readable depth (c.encode a)) (hrounds : (c.encode a).chars.length < rounds) :
    Takes (c.option.read ⟨rounds, depth⟩) (c.encode a) (c.encode a).canonical := by
  obtain ⟨hopens, htakes⟩ := h.takes rounds depth a ha hread hrounds
  refine ⟨hopens, fun rest hrest => ?_⟩
  have hplain := htakes rest hrest
  obtain ⟨ch, cs, hchars, hspace, -⟩ := hopens
  obtain ⟨ch', cs', hchars', hopening⟩ := (c.encode a).chars_cons
  obtain ⟨rfl, rfl⟩ := List.cons.inj (hchars.symm.trans hchars')
  -- null is the only value that begins with an `n`
  by_cases hnull : ch = 'n'
  · have heq : c.encode a = .null := by
      subst hnull
      cases hv : c.encode a with
      | null => rfl
      | bool b => rw [hv] at hopening; cases b <;> cases hopening
      | num | str | arr | obj => rw [hv] at hopening; cases hopening
    rw [heq]
    exact (bind_ok (Reader.next?_cons rfl _)).trans
      (bind_ok (Reader.word_ok ['n', 'u', 'l', 'l'] rest))
  · rw [hchars, List.cons_append] at hplain ⊢
    unfold option
    dsimp only
    rw [bind_ok (Reader.next?_cons hspace _)]
    simp only [Option.some.injEq, hnull, imp_self]
    exact hplain

theorem gives_option {c : Codec α} (h : c.Reads Proper) (rounds depth : Nat) :
    Gives (c.option.read ⟨rounds, depth + 1⟩) (Kept (depth + 1)) := by
  refine .after fun next => ?_
  split
  · exact (Reader.gives_scalar _).imp fun v hv => hv.kept depth
  · exact h.gives rounds depth

theorem reads_list {c : Codec α} (h : c.Reads Proper) :
    (list c).Reads fun l => ∀ a ∈ l, Proper a where
  gives rounds depth := by
    refine .after fun next => ?_
    split
    · refine Reader.gives_inside ?_
      rintro less rfl
      exact (Reader.gives_items (h.gives rounds less) _ _ _ (List.forall_mem_nil _)).bind
        fun items hitems => .pure (.arr hitems)
    · exact .after fun _ => .throw _
  takes rounds depth l hl hread hrounds := by
    have hencode : (list c).encode l = .arr (l.map c.encode) := rfl
    rw [hencode] at hread hrounds ⊢
    refine Reader.takes_arr hread hrounds ?_
    rintro less rfl hcount hitems rest
    have htakes : ∀ v ∈ l.map c.encode, Takes (c.read ⟨rounds, less + 1⟩) v v.canonical := by
      refine List.forall_mem_map.2 fun a ha => ?_
      obtain ⟨hread, hrounds⟩ := hitems _ (List.mem_map_of_mem ha)
      exact h.takes rounds (less + 1) a (hl a ha) hread hrounds
    rw [Json.canonical, Json.canonicalItems_eq]
    unfold list
    dsimp only
    rw [bind_ok (Reader.next?_cons rfl _)]
    simp only
    exact inside_ok (map_ok (f := Json.arr) (Reader.items_chars _ htakes hcount rest))

theorem reads_map {c : Codec α} (h : c.Reads Proper) :
    (map c).Reads fun m => ∀ e ∈ m.entries, Proper e.2 where
  gives rounds depth := by
    refine .after fun next => ?_
    split
    · refine Reader.gives_inside ?_
      rintro less rfl
      refine (Reader.gives_entries (Reader.gives_entry (h.gives rounds less)) _ _ []
        (List.forall_mem_nil _)).bind fun es hes => .pure ?_
      exact .ofEntries fun e he => hes e (List.mem_reverse.1 he)
    · exact .after fun _ => .throw _
  takes rounds depth m hm hread hrounds := by
    let entries := (m.map c.encode).entries
    have hencode : (map c).encode m = .obj entries := rfl
    rw [hencode] at hread hrounds ⊢
    refine Reader.takes_obj hread hrounds ?_
    rintro less rfl hcount hentries rest
    have htakes : ∀ e ∈ entries, Takes (c.read ⟨rounds, less + 1⟩) e.2 e.2.canonical := by
      refine List.forall_mem_map.2 fun e he => ?_
      obtain ⟨hread, hrounds⟩ := hentries _ (List.mem_map_of_mem he)
      exact h.takes rounds (less + 1) e.2 (hm e he) hread hrounds
    have hread := map_ok (f := fun es => Json.ofEntries es.reverse)
      (Reader.entries_entry entries htakes hcount rest)
    rw [List.reverse_reverse] at hread
    rw [Json.canonical, Json.canonicalEntries_eq]
    unfold map
    dsimp only
    rw [bind_ok (Reader.next?_cons rfl _)]
    simp only
    exact inside_ok hread

end Codec

namespace Fields

variable {Proper : σ → Prop}

theorem Reads.imp {x : Fields σ α} {Proper' : σ → Prop} (hx : x.Reads Proper)
    (h : ∀ s, Proper' s → Proper s) : x.Reads Proper' :=
  { hx with takes := fun s hs => hx.takes s (h s hs) }

theorem Reads.pure (a : α) : (Pure.pure a : Fields σ α).Reads fun _ => True where
  keys _ := .slnil
  present _ _ hslot := nomatch hslot
  gives _ hslot := nomatch hslot
  takes _ _ _ he := nomatch he

theorem Reads.seq {f : Fields σ (α → β)} {x : Fields σ α} {Proper' : σ → Prop}
    (hf : f.Reads Proper) (hx : x.Reads Proper') :
    (f <*> x).Reads fun s => Proper s ∧ Proper' s where
  keys s := by
    show ((f.write s ++ x.write s).map (·.1)).Sublist ((f.slots ++ x.slots).map (·.name))
    rw [List.map_append, List.map_append]
    exact (hf.keys s).append (hx.keys s)
  present s slot hslot hrequired := by
    show slot.name ∈ (f.write s ++ x.write s).map (·.1)
    rw [List.map_append]
    rcases List.mem_append.1 hslot with hslot | hslot
    · exact List.mem_append_left _ (hf.present s slot hslot hrequired)
    · exact List.mem_append_right _ (hx.present s slot hslot hrequired)
  gives slot hslot := by
    rcases List.mem_append.1 hslot with hslot | hslot
    · exact hf.gives slot hslot
    · exact hx.gives slot hslot
  takes s hs e he := by
    rcases List.mem_append.1 he with he | he
    · obtain ⟨slot, hslot, hread⟩ := hf.takes s hs.1 e he
      exact ⟨slot, List.mem_append_left _ hslot, hread⟩
    · obtain ⟨slot, hslot, hread⟩ := hx.takes s hs.2 e he
      exact ⟨slot, List.mem_append_right _ hslot, hread⟩

theorem Reads.map {x : Fields σ α} (g : α → β) (hx : x.Reads Proper) :
    (g <$> x).Reads Proper := ((Reads.pure g).seq hx).imp fun _ hs => ⟨trivial, hs⟩

variable {name : String} {c : Codec β} {Fit : β → Prop}

theorem Reads.field {absent : Option β} {get : σ → β} (h : c.Reads Fit) :
    (Fields.field name c absent get).Reads fun s => Fit (get s) where
  keys _ := List.Sublist.refl _
  present s slot hslot _ := by
    rw [List.mem_singleton.1 hslot]
    exact .head _
  gives slot hslot := by
    rw [List.mem_singleton.1 hslot]
    exact h.gives
  takes s hs e he := by
    refine ⟨_, .head _, ?_⟩
    rw [List.mem_singleton.1 he]
    exact ⟨rfl, fun rounds depth hread hrounds => h.takes rounds depth _ hs hread hrounds⟩

theorem Reads.optional {get : σ → Option β} (h : c.Reads Fit) :
    (Fields.optional name c get).Reads fun s => ∀ b, get s = some b → Fit b where
  keys s := by
    rw [write_optional]
    cases get s with
    | none => exact List.nil_sublist _
    | some b => exact List.Sublist.refl _
  present s slot hslot hrequired := by
    rw [List.mem_singleton.1 hslot] at hrequired
    cases hrequired
  gives slot hslot := by
    rw [List.mem_singleton.1 hslot]
    exact Codec.gives_option h
  takes s hs e he := by
    refine ⟨_, .head _, ?_⟩
    obtain ⟨b, hb, rfl⟩ := Option.map_eq_some_iff.1 (Option.mem_toList.1 he)
    exact ⟨rfl, fun rounds depth hread hrounds => Codec.takes_option h (hs b hb) hread hrounds⟩

end Fields

section Named

variable {slots : List Slot}

theorem find?_name_eq_some (hnames : (slots.map (·.name)).Nodup) {slot : Slot}
    (hslot : slot ∈ slots) : slots.find? (·.name == slot.name) = some slot := by
  induction slots with
  | nil => cases hslot
  | cons other slots ih =>
    obtain ⟨hnot, hnodup⟩ := List.nodup_cons.1 hnames
    rcases List.mem_cons.1 hslot with rfl | hslot
    · simp
    · have hne : other.name ≠ slot.name := fun heq =>
        hnot (List.mem_map.2 ⟨slot, hslot, heq.symm⟩)
      simp [hne, ih hnodup hslot]

theorem missing?_eq_none {entries : List (String × Json)}
    (h : ∀ slot ∈ slots, slot.required = true → slot.name ∈ entries.map (·.1)) :
    missing? slots entries = none := by
  rw [missing?, Option.map_eq_none_iff, List.find?_eq_none]
  intro slot hslot hmissing
  obtain ⟨hrequired, hall⟩ := Bool.and_eq_true_iff.1 hmissing
  obtain ⟨e, he, hname⟩ := List.mem_map.1 (h slot hslot hrequired)
  have hne := List.all_eq_true.1 hall e he
  rw [hname, bne_self_eq_false] at hne
  cases hne

theorem readField_ok {slot : Slot} {room : Room} {v w : Json} (h : Takes (slot.read room) v w)
    {done : List (String × Json)} (hfresh : slot.name ∉ done.map (·.1)) {rest : List Char}
    (hrest : Closed rest) :
    readField room slot done (':' :: (v.chars ++ rest)) = .ok ((slot.name, w) :: done, rest) := by
  have hany : ¬ (done.any (·.1 == slot.name)) = true := by
    intro hany
    obtain ⟨e, he, hname⟩ := List.any_eq_true.1 hany
    exact hfresh (List.mem_map.2 ⟨e, he, beq_iff_eq.1 hname⟩)
  rw [readField, if_neg hany]
  show (Reader.colon >>= _) _ = _
  rw [bind_ok (Reader.colon_cons _)]
  exact map_ok (f := fun w => (slot.name, w) :: done) (h.2 rest hrest)

theorem gives_readField {slot : Slot} {room : Room} {P : Json → Prop} (h : Gives (slot.read room) P)
    {done : List (String × Json)} (hdone : ∀ e ∈ done, P e.2) :
    Gives (readField room slot done) fun done => ∀ e ∈ done, P e.2 := by
  rw [readField]
  split
  · exact .after fun _ => .after fun _ => h.bind fun v hv =>
      .pure (List.forall_mem_cons.2 ⟨hv, hdone⟩)
  · exact .after fun _ => h.bind fun v hv => .pure (List.forall_mem_cons.2 ⟨hv, hdone⟩)

/-- What reads the value of an entry into its field, or passes it. -/
def namedEntry (slots : List Slot) (room : Room) (k : String) (done : List (String × Json)) :
    Reader (List (String × Json)) := do
  match slots.find? (·.name == k) with
  | some slot => readField room slot done
  | none =>
    Reader.colon
    Reader.skip room.rounds []
    return done

theorem readNamed_eq (slots : List Slot) (room : Room) : readNamed slots room = (do
    let entries ← Reader.entries (namedEntry slots room) room.rounds true []
    match missing? slots entries with
    | some name => throw (.mismatch (.missingField name))
    | none => return .ofEntries entries.reverse) := rfl

theorem gives_readNamed {rounds depth : Nat}
    (h : ∀ slot ∈ slots, Gives (slot.read ⟨rounds, depth + 1⟩) (Kept (depth + 1))) :
    Gives (readNamed slots ⟨rounds, depth + 1⟩) (Kept (depth + 2)) := by
  have hentry : ∀ k (done : List (String × Json)), (∀ e ∈ done, Kept (depth + 1) e.2) →
      Gives (namedEntry slots ⟨rounds, depth + 1⟩ k done) fun done =>
        ∀ e ∈ done, Kept (depth + 1) e.2 := by
    intro k done hdone
    rw [namedEntry]
    split
    · exact gives_readField (h _ (List.mem_of_find?_eq_some ‹_›)) hdone
    · exact .after fun _ => .after fun _ => .pure hdone
  rw [readNamed_eq]
  refine (Reader.gives_entries hentry _ _ [] (List.forall_mem_nil _)).bind fun es hes => ?_
  split
  · exact .throw _
  · exact .pure (.ofEntries fun e he => hes e (List.mem_reverse.1 he))

theorem gives_readListed {expecting : String} {rounds depth : Nat}
    (h : ∀ slot ∈ slots, Gives (slot.read ⟨rounds, depth + 1⟩) (Kept (depth + 1))) :
    ∀ index (done : List Json), (∀ v ∈ done, Kept (depth + 1) v) →
      Gives (readListed expecting ⟨rounds, depth + 1⟩ slots index done) (Kept (depth + 2)) := by
  have hend (done : List Json) (hdone : ∀ v ∈ done, Kept (depth + 1) v) :
      Gives (do
        Reader.endArray
        return Json.arr done.reverse) (Kept (depth + 2)) :=
    .after fun _ => .pure (.arr fun v hv => hdone v (List.mem_reverse.1 hv))
  induction slots with
  | nil =>
    intro index done hdone
    rw [readListed]
    exact hend done hdone
  | cons slot slots ih =>
    intro index done hdone
    rw [readListed]
    refine .after fun more => ?_
    cases more with
    | true =>
      exact (h slot (.head _)).bind fun v hv =>
        ih (fun slot hslot => h slot (.tail _ hslot)) _ _ (List.forall_mem_cons.2 ⟨hv, hdone⟩)
    | false =>
      simp only [Bool.false_eq_true, ↓reduceIte]
      split
      · exact .throw _
      · exact hend done hdone

theorem not_mem_before {es before after : List (String × Json)} {e : String × Json}
    (hkeys : (es.map (·.1)).Nodup) (heq : es = before ++ e :: after) : e.1 ∉ before.map (·.1) := by
  rw [heq, List.map_append, List.map_cons, List.nodup_append] at hkeys
  exact fun hmem => hkeys.2.2 _ hmem _ (.head _) rfl

theorem readNamed_ok {rounds depth : Nat} {es : List (String × Json)}
    (hnames : (slots.map (·.name)).Nodup) (hkeys : (es.map (·.1)).Nodup)
    (htakes : ∀ e ∈ es, ∃ slot ∈ slots, slot.name = e.1 ∧
      Takes (slot.read ⟨rounds, depth⟩) e.2 e.2.canonical)
    (hpresent : ∀ slot ∈ slots, slot.required = true → slot.name ∈ es.map (·.1))
    (hlt : es.length < rounds) (rest : List Char) :
    readNamed slots ⟨rounds, depth⟩ (Json.entryChars es ++ '}' :: rest) =
      .ok ((Json.obj es).canonical, rest) := by
  let add (done : List (String × Json)) (e : String × Json) := (e.1, e.2.canonical) :: done
  have hfold (es : List (String × Json)) : es.foldl add [] =
      (es.map fun e => (e.1, e.2.canonical)).reverse := by
    rw [Reader.foldl_cons_map, List.append_nil]
  -- what has been gathered are the entries before, so the field of this one has not been read yet
  have hgathers : ∀ before e after, es = before ++ e :: after →
      Gathers (namedEntry slots ⟨rounds, depth⟩) add (before.foldl add []) e := by
    intro before e after heq
    obtain ⟨slot, hslot, hname, hread⟩ := htakes e (by rw [heq]; exact List.mem_append_right _ (.head _))
    have hfresh : slot.name ∉ (before.foldl add []).map (·.1) := by
      rw [hfold, hname, List.map_reverse, List.mem_reverse, List.map_map]
      exact not_mem_before hkeys heq
    intro rest hrest
    rw [namedEntry, ← hname, find?_name_eq_some hnames hslot]
    simp only [add, ← hname]
    exact readField_ok hread hfresh hrest
  have hmissing : missing? slots (es.foldl add []) = none := by
    refine missing?_eq_none fun slot hslot hrequired => ?_
    rw [hfold, List.map_reverse, List.mem_reverse, List.map_map]
    exact hpresent slot hslot hrequired
  rw [readNamed_eq, bind_ok (Reader.entries_chars es [] hgathers hlt rest), hmissing, hfold,
    List.reverse_reverse, Json.canonical, Json.canonicalEntries_eq]
  rfl

end Named

namespace Codec

/-- What a structure writes it reads field by field. -/
theorem reads_struct {name : String} {fields : Fields α α} {Proper : α → Prop}
    (h : fields.Reads Proper) (hnames : (fields.slots.map (·.name)).Nodup) :
    (Codec.struct name fields).Reads Proper where
  gives rounds depth := by
    refine .after fun next => ?_
    split
    · refine Reader.gives_inside ?_
      rintro less rfl
      exact gives_readListed (fun slot hslot => h.gives slot hslot rounds less) 0 []
        (List.forall_mem_nil _)
    · refine Reader.gives_inside ?_
      rintro less rfl
      exact gives_readNamed fun slot hslot => h.gives slot hslot rounds less
    · exact .after fun _ => .throw _
  takes rounds depth a ha hread hrounds := by
    refine Reader.takes_obj hread hrounds ?_
    rintro less rfl hcount hentries rest
    have htakes : ∀ e ∈ fields.write a, ∃ slot ∈ fields.slots, slot.name = e.1 ∧
        Takes (slot.read ⟨rounds, less + 1⟩) e.2 e.2.canonical := by
      intro e he
      obtain ⟨slot, hslot, hname, htaken⟩ := h.takes a ha e he
      obtain ⟨hread, hrounds⟩ := hentries e he
      exact ⟨slot, hslot, hname, htaken rounds (less + 1) hread hrounds⟩
    unfold Codec.struct
    dsimp only
    rw [bind_ok (Reader.next?_cons rfl _)]
    simp only
    exact inside_ok (readNamed_ok hnames ((h.keys a).nodup hnames) htakes (h.present a) hcount rest)

end Codec

end DocCompiler.Wire
