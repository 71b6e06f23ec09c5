import DocCompiler.Proofs.Wire.Reading

/-! Objects that hold more than fields: entries of any other keys, or a tag and the fields of the
variant that it names. The other entries are left as they stand until all have been read. -/

namespace DocCompiler.Wire

open Json (Kept Readable Reader Room)
open Json.Reader (Gathers Gives Takes bind_ok map_ok)

variable {α β σ : Type}

section Open

variable {slots : List Slot}

/-- What reads the value of an entry into its field, or as it stands. -/
def openEntry (slots : List Slot) (room : Room) (k : String)
    (done : List (String × Json) × List (String × Json)) :
    Reader (List (String × Json) × List (String × Json)) := do
  match slots.find? (·.name == k) with
  | some slot => return (← readField room slot done.1, done.2)
  | none =>
    Reader.colon
    return (done.1, (k, ← Reader.value true room.rounds room.depth) :: done.2)

theorem readOpen_eq (slots : List Slot) (room : Room) : readOpen slots room = (do
    let done ← Reader.entries (openEntry slots room) room.rounds true ([], [])
    match missing? slots done.1 with
    | some name => throw (.mismatch (.missingField name))
    | none => return (done.1.reverse, done.2.reverse)) := rfl

theorem gives_readOpen {rounds depth : Nat}
    (h : ∀ slot ∈ slots, Gives (slot.read ⟨rounds, depth + 1⟩) (Kept (depth + 1))) :
    Gives (readOpen slots ⟨rounds, depth + 1⟩) fun done =>
      ∀ e ∈ done.1 ++ done.2, Json.Nested (depth + 1) e.2 := by
  have hentry : ∀ k (done : List (String × Json) × List (String × Json)),
      ((∀ e ∈ done.1, Json.Nested (depth + 1) e.2) ∧ ∀ e ∈ done.2, Json.Nested (depth + 1) e.2) →
      Gives (openEntry slots ⟨rounds, depth + 1⟩ k done) fun done =>
        (∀ e ∈ done.1, Json.Nested (depth + 1) e.2) ∧ ∀ e ∈ done.2, Json.Nested (depth + 1) e.2 := by
    intro k done hdone
    rw [openEntry]
    split
    · have hslot := (h _ (List.mem_of_find?_eq_some ‹_›)).imp fun v hv => hv.2
      exact (gives_readField hslot hdone.1).bind fun own hown => .pure ⟨hown, hdone.2⟩
    · exact .after fun _ => (Reader.gives_value true rounds (depth + 1)).bind fun v hv =>
        .pure ⟨hdone.1, List.forall_mem_cons.2 ⟨hv, hdone.2⟩⟩
  rw [readOpen_eq]
  refine (Reader.gives_entries hentry _ _ ([], []) ⟨List.forall_mem_nil _, List.forall_mem_nil _⟩).bind
    fun done hdone => ?_
  split
  · exact .throw _
  · refine .pure fun e he => ?_
    rcases List.mem_append.1 he with he | he
    · exact hdone.1 e (List.mem_reverse.1 he)
    · exact hdone.2 e (List.mem_reverse.1 he)

def addOpen (slots : List Slot) (done : List (String × Json) × List (String × Json))
    (e : String × Json) : List (String × Json) × List (String × Json) :=
  if slots.any (·.name == e.1) then ((e.1, e.2.canonical) :: done.1, done.2)
  else (done.1, e :: done.2)

theorem addOpen_own {e : String × Json} {slot : Slot} (hslot : slot ∈ slots) (hname : slot.name = e.1)
    (done : List (String × Json) × List (String × Json)) :
    addOpen slots done e = ((e.1, e.2.canonical) :: done.1, done.2) := by
  have hany : slots.any (·.name == e.1) = true :=
    List.any_eq_true.2 ⟨slot, hslot, by rw [hname, beq_self_eq_true]⟩
  rw [addOpen, if_pos hany]

theorem addOpen_other {e : String × Json} (h : ∀ slot ∈ slots, slot.name ≠ e.1)
    (done : List (String × Json) × List (String × Json)) :
    addOpen slots done e = (done.1, e :: done.2) := by
  refine if_neg fun hany => ?_
  obtain ⟨slot, hslot, hname⟩ := List.any_eq_true.1 hany
  exact h slot hslot (beq_iff_eq.1 hname)

theorem foldl_addOpen_own {own : List (String × Json)}
    (h : ∀ e ∈ own, ∃ slot ∈ slots, slot.name = e.1)
    (done : List (String × Json) × List (String × Json)) :
    own.foldl (addOpen slots) done =
      ((own.map fun e => (e.1, e.2.canonical)).reverse ++ done.1, done.2) := by
  induction own generalizing done with
  | nil => rfl
  | cons e own ih =>
    obtain ⟨slot, hslot, hname⟩ := h e (.head _)
    rw [List.foldl_cons, addOpen_own hslot hname, ih fun e he => h e (.tail _ he)]
    simp

theorem foldl_addOpen_other {others : List (String × Json)}
    (h : ∀ e ∈ others, ∀ slot ∈ slots, slot.name ≠ e.1)
    (done : List (String × Json) × List (String × Json)) :
    others.foldl (addOpen slots) done = (done.1, others.reverse ++ done.2) := by
  induction others generalizing done with
  | nil => rfl
  | cons e others ih =>
    rw [List.foldl_cons, addOpen_other (h e (.head _)), ih fun e he => h e (.tail _ he)]
    simp

theorem mem_foldl_addOpen {es : List (String × Json)} {key : String}
    {done : List (String × Json) × List (String × Json)}
    (h : key ∈ (es.foldl (addOpen slots) done).1.map (·.1)) :
    key ∈ es.map (·.1) ∨ key ∈ done.1.map (·.1) := by
  induction es generalizing done with
  | nil => exact .inr h
  | cons e es ih =>
    rcases ih h with h | h
    · exact .inl (.tail _ h)
    · rw [addOpen] at h
      split at h
      · rcases List.mem_cons.1 h with rfl | h
        · exact .inl (.head _)
        · exact .inr h
      · exact .inr h

theorem readOpen_ok {rounds depth : Nat} {own others : List (String × Json)}
    (hnames : (slots.map (·.name)).Nodup) (hkeys : ((own ++ others).map (·.1)).Nodup)
    (htakes : ∀ e ∈ own, ∃ slot ∈ slots, slot.name = e.1 ∧
      Takes (slot.read ⟨rounds, depth⟩) e.2 e.2.canonical)
    (hothers : ∀ e ∈ others, (∀ slot ∈ slots, slot.name ≠ e.1) ∧
      Takes (Reader.value true rounds depth) e.2 e.2)
    (hpresent : ∀ slot ∈ slots, slot.required = true → slot.name ∈ own.map (·.1))
    (hlt : (own ++ others).length < rounds) (rest : List Char) :
    readOpen slots ⟨rounds, depth⟩ (Json.entryChars (own ++ others) ++ '}' :: rest) =
      .ok ((own.map fun e => (e.1, e.2.canonical), others), rest) := by
  have hgathers : ∀ before e after, own ++ others = before ++ e :: after →
      Gathers (openEntry slots ⟨rounds, depth⟩) (addOpen slots)
        (before.foldl (addOpen slots) ([], [])) e := by
    intro before e after heq rest hrest
    have he : e ∈ own ++ others := by rw [heq]; exact List.mem_append_right _ (.head _)
    rw [openEntry]
    rcases List.mem_append.1 he with he | he
    · obtain ⟨slot, hslot, hname, hread⟩ := htakes e he
      have hfresh : slot.name ∉ (before.foldl (addOpen slots) ([], [])).1.map (·.1) := by
        rw [hname]
        intro hmem
        rcases mem_foldl_addOpen hmem with hmem | hmem
        · exact not_mem_before hkeys heq hmem
        · cases hmem
      rw [addOpen_own hslot hname, ← hname, find?_name_eq_some hnames hslot]
      exact map_ok (f := fun own => (own, (before.foldl (addOpen slots) ([], [])).2))
        (readField_ok hread hfresh hrest)
    · obtain ⟨hnone, hread⟩ := hothers e he
      have hfind : slots.find? (·.name == e.1) = none :=
        List.find?_eq_none.2 fun slot hslot hname => hnone slot hslot (beq_iff_eq.1 hname)
      rw [addOpen_other hnone, hfind]
      simp only
      rw [bind_ok (Reader.colon_cons _)]
      exact map_ok
        (f := fun v => ((before.foldl (addOpen slots) ([], [])).1,
          (e.1, v) :: (before.foldl (addOpen slots) ([], [])).2))
        (hread.2 rest hrest)
  have hfold : (own ++ others).foldl (addOpen slots) ([], []) =
      ((own.map fun e => (e.1, e.2.canonical)).reverse, others.reverse) := by
    rw [List.foldl_append, foldl_addOpen_own fun e he =>
      let ⟨slot, hslot, hname, _⟩ := htakes e he
      ⟨slot, hslot, hname⟩, foldl_addOpen_other fun e he => (hothers e he).1, List.append_nil,
      List.append_nil]
  have hmissing : missing? slots (own.map fun e => (e.1, e.2.canonical)).reverse = none := by
    refine missing?_eq_none fun slot hslot hrequired => ?_
    rw [List.map_reverse, List.mem_reverse, List.map_map]
    exact hpresent slot hslot hrequired
  rw [readOpen_eq, bind_ok (Reader.entries_chars _ ([], []) hgathers hlt rest), hfold]
  dsimp only
  rw [hmissing]
  dsimp only
  rw [List.reverse_reverse, List.reverse_reverse]
  rfl

def openObject (title : String) (slots : List Slot) (check : List (String × Json) → Reader Unit)
    (room : Room) : Reader Json :=
  readObject title room fun room => do
    let (entries, others) ← readOpen slots room
    check others
    return (Json.obj (entries ++ others)).canonical

theorem gives_openObject {title : String} {check : List (String × Json) → Reader Unit}
    (h : ∀ slot ∈ slots, ∀ rounds depth, Gives (slot.read ⟨rounds, depth + 1⟩) (Kept (depth + 1)))
    (rounds depth : Nat) :
    Gives (openObject title slots check ⟨rounds, depth + 1⟩) (Kept (depth + 1)) := by
  rw [openObject, readObject]
  refine .after fun next => ?_
  split
  · refine Reader.gives_inside ?_
    rintro less rfl
    refine (gives_readOpen fun slot hslot => h slot hslot rounds less).bind fun done hdone =>
      .after fun _ => .pure ?_
    exact ⟨Json.canonical_canonical _, Json.Nested.canonical (.obj hdone)⟩
  · exact .after fun _ => .throw _

/-- Fields that have been read in canonical form make no difference to that of the object. -/
theorem canonical_own (own others : List (String × Json)) :
    (Json.obj ((own.map fun e => (e.1, e.2.canonical)) ++ others)).canonical =
      (Json.obj (own ++ others)).canonical := by
  simp only [Json.canonical, Json.canonicalEntries_eq, List.map_append, List.map_map,
    Function.comp_def, Json.canonical_canonical]

theorem takes_openObject {title : String} {fields : Fields σ α} {Proper : σ → Prop}
    (h : fields.Reads Proper) (hnames : (fields.slots.map (·.name)).Nodup) {s : σ} (hs : Proper s)
    {others : List (String × Json)} (hkeys : (others.map (·.1)).Nodup)
    (hothers : ∀ e ∈ others, ∀ slot ∈ fields.slots, slot.name ≠ e.1)
    {check : List (String × Json) → Reader Unit} (hcheck : ∀ cs, check others cs = .ok ((), cs))
    {rounds depth : Nat} (hread : Readable depth (.obj (fields.write s ++ others)))
    (hrounds : (Json.obj (fields.write s ++ others)).chars.length < rounds) :
    Takes (openObject title fields.slots check ⟨rounds, depth⟩) (.obj (fields.write s ++ others))
      (Json.obj (fields.write s ++ others)).canonical := by
  refine Reader.takes_obj hread hrounds ?_
  rintro less rfl hcount hentries rest
  have htakes : ∀ e ∈ fields.write s, ∃ slot ∈ fields.slots, slot.name = e.1 ∧
      Takes (slot.read ⟨rounds, less + 1⟩) e.2 e.2.canonical := by
    intro e he
    obtain ⟨slot, hslot, hname, htaken⟩ := h.takes s hs e he
    obtain ⟨hread, hrounds⟩ := hentries e (List.mem_append_left others he)
    exact ⟨slot, hslot, hname, htaken rounds (less + 1) hread hrounds⟩
  have hraw : ∀ e ∈ others, (∀ slot ∈ fields.slots, slot.name ≠ e.1) ∧
      Takes (Reader.value true rounds (less + 1)) e.2 e.2 := by
    intro e he
    obtain ⟨hread, hrounds⟩ := hentries e (List.mem_append_right (fields.write s) he)
    exact ⟨hothers e he, hread.takes true hrounds⟩
  have hall : ((fields.write s ++ others).map (·.1)).Nodup := by
    rw [List.map_append, List.nodup_append]
    refine ⟨(h.keys s).nodup hnames, hkeys, fun key hkey key' hkey' heq => ?_⟩
    obtain ⟨slot, hslot, hname⟩ := List.mem_map.1 ((h.keys s).subset hkey)
    obtain ⟨e, he, rfl⟩ := List.mem_map.1 hkey'
    exact hothers e he slot hslot (hname.trans heq)
  rw [openObject, readObject, bind_ok (Reader.next?_cons rfl _)]
  simp only
  refine inside_ok ?_
  rw [bind_ok (readOpen_ok hnames hall htakes hraw (h.present s) hcount rest)]
  show (check others >>= _) rest = _
  rw [bind_ok (hcheck rest), canonical_own]
  rfl

end Open

namespace Codec

variable {Proper : α → Prop}

theorem read_withRest (name : String) (own : Fields α (SortedMap Json → α))
    (rest : α → SortedMap Json) : (Codec.withRest name own rest).read =
      openObject ("struct " ++ name) own.slots fun _ => pure () := rfl

theorem reads_withRest {name : String} {own : Fields α (SortedMap Json → α)}
    {rest : α → SortedMap Json} (h : own.Reads Proper) (hnames : (own.slots.map (·.name)).Nodup) :
    (Codec.withRest name own rest).Reads fun a =>
      Proper a ∧ ∀ slot ∈ own.slots, (rest a).find? slot.name = none where
  gives rounds depth := by
    rw [read_withRest]
    exact gives_openObject h.gives rounds depth
  takes rounds depth a ha hread hrounds := by
    have hothers : ∀ e ∈ (rest a).entries, ∀ slot ∈ own.slots, slot.name ≠ e.1 := by
      intro e he slot hslot hname
      have hnone := ha.2 slot hslot
      rw [hname, SortedMap.mem_entries.1 he] at hnone
      cases hnone
    rw [read_withRest]
    exact takes_openObject h hnames ha.1 (rest a).nodup_keys hothers (fun _ => rfl) hread hrounds

end Codec

/-- What is written for a value with variants is told apart from the fields of `slots` and passes
the checks of its own. -/
structure Variant.Accepted (tag : String) (variants : List (Variant β)) (slots : List Slot)
    (b : β) : Prop where
  keys : ((Variant.write tag variants b).map (·.1)).Nodup
  others : ∀ e ∈ Variant.write tag variants b, ∀ slot ∈ slots, slot.name ≠ e.1
  check : Variant.checkEntries tag variants (Variant.write tag variants b) = .ok ()

theorem Codec.read_withVariant (name tag : String) (own : Fields α (β → α)) (part : α → β)
    (variants : List (Variant β)) : (Codec.withVariant name tag own part variants).read =
      openObject ("struct " ++ name) own.slots fun others =>
        require (Variant.checkEntries tag variants others) := rfl

theorem Codec.reads_withVariant {name tag : String} {own : Fields α (β → α)} {part : α → β}
    {variants : List (Variant β)} {Proper : α → Prop} (h : own.Reads Proper)
    (hnames : (own.slots.map (·.name)).Nodup)
    (hpart : ∀ b, Variant.Accepted tag variants own.slots b) :
    (Codec.withVariant name tag own part variants).Reads Proper where
  gives rounds depth := by
    rw [read_withVariant]
    exact gives_openObject h.gives rounds depth
  takes rounds depth a ha hread hrounds := by
    have haccepted := hpart (part a)
    rw [read_withVariant]
    exact takes_openObject h hnames ha haccepted.keys haccepted.others
      (require_ok haccepted.check) hread hrounds

section Checked

def Fields.Checked (x : Fields σ α) (s : σ) : Prop :=
  ∀ e ∈ x.write s, ∃ slot ∈ x.slots, slot.name = e.1 ∧ slot.check .buffered e.2 = .ok ()

namespace Fields

variable {s : σ}

theorem Checked.seq {f : Fields σ (α → β)} {x : Fields σ α} (hf : f.Checked s) (hx : x.Checked s) :
    (f <*> x).Checked s := by
  intro e he
  rcases List.mem_append.1 he with he | he
  · obtain ⟨slot, hslot, hcheck⟩ := hf e he
    exact ⟨slot, List.mem_append_left _ hslot, hcheck⟩
  · obtain ⟨slot, hslot, hcheck⟩ := hx e he
    exact ⟨slot, List.mem_append_right _ hslot, hcheck⟩

theorem Checked.map {x : Fields σ α} (g : α → β) (hx : x.Checked s) : (g <$> x).Checked s :=
  Checked.seq (f := pure g) (fun _ he => nomatch he) hx

variable {name : String} {c : Codec β}

theorem Checked.field {absent : Option β} {get : σ → β} {b : β}
    (h : c.decode .buffered (c.encode (get s)) = .ok b) :
    (Fields.field name c absent get).Checked s := by
  intro e he
  refine ⟨_, .head _, ?_⟩
  rw [List.mem_singleton.1 he]
  refine ⟨rfl, ?_⟩
  show (c.decode .buffered (c.encode (get s))).map _ = _
  rw [h]
  rfl

theorem Checked.optional {get : σ → Option β}
    (h : ∀ b, get s = some b → ∃ b', c.option.decode .buffered (c.encode b) = .ok b') :
    (Fields.optional name c get).Checked s := by
  intro e he
  refine ⟨_, .head _, ?_⟩
  obtain ⟨b, hb, rfl⟩ := Option.map_eq_some_iff.1 (Option.mem_toList.1 he)
  obtain ⟨b', hdecode⟩ := h b hb
  refine ⟨rfl, ?_⟩
  show (c.option.decode .buffered (c.encode b)).map _ = _
  rw [hdecode]
  rfl

end Fields

def checkStep (slots : List Slot) (seen : List String) (e : String × Json) :
    Except Json.Mismatch (List String) := do
  match slots.find? (·.name == e.1) with
  | none => return seen
  | some slot =>
    if seen.contains e.1 then throw (.duplicateField e.1)
    slot.check .buffered e.2
    return e.1 :: seen

theorem foldlM_checkStep {slots : List Slot} (hnames : (slots.map (·.name)).Nodup)
    {es : List (String × Json)} (hkeys : (es.map (·.1)).Nodup)
    (h : ∀ e ∈ es, ∃ slot ∈ slots, slot.name = e.1 ∧ slot.check .buffered e.2 = .ok ())
    (seen : List String) (hfresh : ∀ e ∈ es, e.1 ∉ seen) :
    ∃ seen', es.foldlM (checkStep slots) seen = .ok seen' := by
  induction es generalizing seen with
  | nil => exact ⟨seen, rfl⟩
  | cons e es ih =>
    obtain ⟨hnot, hnodup⟩ := List.nodup_cons.1 hkeys
    obtain ⟨slot, hslot, hname, hcheck⟩ := h e (.head _)
    have hstep : checkStep slots seen e = .ok (e.1 :: seen) := by
      have hfind : slots.find? (·.name == e.1) = some slot := by
        rw [← hname]
        exact find?_name_eq_some hnames hslot
      have hnew : ¬ seen.contains e.1 = true := by simpa using hfresh e (.head _)
      rw [checkStep, hfind]
      simp only
      rw [if_neg hnew]
      show (slot.check .buffered e.2 >>= _) = _
      rw [hcheck]
      rfl
    obtain ⟨seen', hrest⟩ := ih hnodup (fun e he => h e (.tail _ he)) (e.1 :: seen)
      fun e' he' hmem => by
        rcases List.mem_cons.1 hmem with heq | hmem
        · exact hnot (List.mem_map.2 ⟨e', he', heq⟩)
        · exact hfresh e' (.tail _ he') hmem
    refine ⟨seen', ?_⟩
    rw [List.foldlM_cons, hstep]
    exact hrest

theorem checkEntries_eq (tag : String) (variants : List (Variant β))
    (entries : List (String × Json)) : Variant.checkEntries tag variants entries = (do
      let (tags, others) := entries.partition (·.1 == tag)
      let variant ← Variant.ofEntries tag (Variant.ofTag variants) tags
      if tags.length > 1 then throw (.duplicateField tag)
      let _ ← others.foldlM (checkStep variant.slots) []
      match missing? variant.slots others with
      | some name => throw (.missingField name)
      | none => return ()) := rfl

theorem Variant.accepted_of {tag type label variant : String} {source? : β → Option σ}
    {fields : Fields σ β} {Proper : σ → Prop} {variants : List (Variant β)} {slots : List Slot}
    {b : β} {s : σ} (h : fields.Reads Proper)
    (hnamed : Variant.named variants variant =
      .ok (Variant.of type label variant source? fields))
    (hwrite : Variant.write tag variants b = (tag, .str variant) :: fields.write s)
    (hnames : (tag :: fields.slots.map (·.name)).Nodup)
    (hothers : ∀ slot ∈ slots, slot.name ∉ tag :: fields.slots.map (·.name))
    (hchecked : fields.Checked s) : Variant.Accepted tag variants slots b := by
  obtain ⟨htag, hslots⟩ := List.nodup_cons.1 hnames
  have hkeys := (h.keys s).nodup hslots
  have hfree : ∀ e ∈ fields.write s, e.1 ≠ tag := fun e he heq =>
    htag (heq ▸ (h.keys s).subset (List.mem_map_of_mem he))
  refine ⟨?_, ?_, ?_⟩
  · rw [hwrite, List.map_cons]
    refine List.nodup_cons.2 ⟨fun hmem => ?_, hkeys⟩
    obtain ⟨e, he, heq⟩ := List.mem_map.1 hmem
    exact hfree e he heq
  · intro e he slot hslot hname
    rw [hwrite] at he
    refine hothers slot hslot ?_
    rw [hname]
    rcases List.mem_cons.1 he with rfl | he
    · exact .head _
    · exact .tail _ ((h.keys s).subset (List.mem_map_of_mem he))
  · -- the tag is set apart, and what is left are the fields of the variant it names
    have hpartition : (Variant.write tag variants b).partition (·.1 == tag) =
        ([(tag, .str variant)], fields.write s) := by
      have hnone : (fields.write s).filter (·.1 == tag) = [] :=
        List.filter_eq_nil_iff.2 fun e he heq => hfree e he (beq_iff_eq.1 heq)
      have hall : (fields.write s).filter (fun e => !(e.1 == tag)) = fields.write s :=
        List.filter_eq_self.2 fun e he => by simp [hfree e he]
      rw [hwrite, List.partition_eq_filter_filter]
      simp [Function.comp_def, hnone, hall]
    obtain ⟨seen, hsteps⟩ := foldlM_checkStep hslots hkeys hchecked [] fun _ _ => List.not_mem_nil
    have hmissing := missing?_eq_none (h.present s)
    have hpick : Variant.ofEntries tag (Variant.ofTag variants) [(tag, .str variant)] =
        .ok (Variant.of type label variant source? fields) := by
      rw [← hnamed]
      simp [Variant.ofEntries, Variant.ofTag]
    rw [checkEntries_eq, hpartition]
    dsimp only
    rw [hpick]
    show ((fields.write s).foldlM (checkStep fields.slots) [] >>= _) = _
    rw [hsteps]
    show (match missing? fields.slots (fields.write s) with
      | some name => throw _
      | none => pure ()) = _
    rw [hmissing]
    rfl

end Checked

end DocCompiler.Wire
