import DocCompiler.Proofs.Json.Canonical
import DocCompiler.Proofs.Json.Literals

/-! Compact text reads back as the value it was written for, with the keys of objects in order:
parsing after printing is `canonical`. It takes room for the nesting, and numbers whose text reads
back; integers of 64 bits are such. -/

namespace DocCompiler.Json

namespace Reader

variable {α β : Type}

theorem bind_ok {x : Reader α} {f : α → Reader β} {cs cs' : List Char} {a : α}
    (h : x cs = .ok (a, cs')) : (x >>= f) cs = f a cs' := by
  show (x cs).bind _ = _
  rw [h]
  rfl

theorem map_ok {f : α → β} {x : Reader α} {cs cs' : List Char} {a : α} (h : x cs = .ok (a, cs')) :
    (do return f (← x) : Reader β) cs = .ok (f a, cs') := bind_ok h

theorem next?_cons {c : Char} (hc : isSpace c = false) (cs : List Char) :
    next? (c :: cs) = .ok (some c, c :: cs) := by
  simp [next?, hc]

theorem word_ok (w cs : List Char) : word w (w ++ cs) = .ok ((), cs) := by
  have hword : Literal.word w (w ++ cs) = .ok cs := by
    induction w with
    | nil => rfl
    | cons c w ih => rw [List.cons_append, Literal.word, if_pos rfl, ih]
  rw [word, hword]
  rfl

theorem isSpace_of_isDigit {c : Char} (h : c.isDigit = true) : isSpace c = false := by
  have hne : ∀ d : Char, d.isDigit = false → c ≠ d := by
    rintro d hd rfl
    rw [h] at hd
    cases hd
  simp [isSpace, hne ' ' rfl, hne '\n' rfl, hne '\t' rfl, hne '\r' rfl]

end Reader

def Number.ReadsBack (n : Number) : Prop :=
  ∃ c cs, n.text = c :: cs ∧ (c = '-' ∨ c.isDigit = true) ∧
    ∀ rest, Closed rest → Reader.scalar c (n.text ++ rest) = .ok (.num n, rest)

theorem scalar_digit {c : Char} (h : c.isDigit = true) :
    Reader.scalar c = (do return .num (← Reader.lift (Literal.number false))) := by
  have hne : ∀ d : Char, d.isDigit = false → c ≠ d := by
    rintro d hd rfl
    rw [h] at hd
    cases hd
  rw [Reader.scalar, if_neg (hne 'n' rfl), if_neg (hne 't' rfl), if_neg (hne 'f' rfl),
    if_neg (hne '-' rfl), if_pos h]

theorem readsBack_int {n : Int} (hlow : -(UInt64.size / 2 : Nat) ≤ n) (hhigh : n < UInt64.size) :
    (Number.int n).ReadsBack := by
  obtain ⟨d, ds, hcons, hd, -⟩ := toDigits_cons n.natAbs
  have hlimit : Literal.significandLimit = UInt64.size := rfl
  have hsize : UInt64.size = 18446744073709551616 := rfl
  by_cases hneg : n < 0
  · have htext : (Number.int n).text = '-' :: Nat.toDigits 10 n.natAbs := by
      simp [Number.text, hneg]
    refine ⟨'-', Nat.toDigits 10 n.natAbs, htext, .inl rfl, ?_⟩
    intro rest hrest
    have hread := number_toDigits true (n := n.natAbs) (by omega) hrest
    have hvalue : Literal.ofInteger true n.natAbs = .ok (.int n) := by
      have habs : -(n.natAbs : Int) = n := by omega
      rw [Literal.ofInteger, if_pos rfl, if_pos (by omega), habs]
    rw [hvalue] at hread
    rw [htext]
    exact Reader.map_ok (f := Json.num) hread
  · have htext : (Number.int n).text = Nat.toDigits 10 n.natAbs := by
      simp [Number.text, hneg]
    refine ⟨d, ds, htext.trans hcons, .inr hd, ?_⟩
    intro rest hrest
    have hread := number_toDigits false (n := n.natAbs) (by omega) hrest
    have hvalue : Literal.ofInteger false n.natAbs = .ok (.int n) := by
      have habs : (n.natAbs : Int) = n := by omega
      rw [Literal.ofInteger, if_neg Bool.false_ne_true, habs]
    rw [hvalue] at hread
    rw [htext, scalar_digit hd]
    exact Reader.map_ok (f := Json.num) hread

/-- Values that read back where so many containers may be opened, plus one. -/
inductive Readable : Nat → Json → Prop where
  | null (depth : Nat) : Readable (depth + 1) .null
  | bool (depth : Nat) (b : Bool) : Readable (depth + 1) (.bool b)
  | num (depth : Nat) {n : Number} (h : n.ReadsBack) : Readable (depth + 1) (.num n)
  | str (depth : Nat) (s : String) : Readable (depth + 1) (.str s)
  | arr {depth : Nat} {items : List Json} (h : ∀ v ∈ items, Readable (depth + 1) v) :
      Readable (depth + 2) (.arr items)
  | obj {depth : Nat} {entries : List (String × Json)}
      (h : ∀ e ∈ entries, Readable (depth + 1) e.2) : Readable (depth + 2) (.obj entries)

theorem Readable.chars_cons {depth : Nat} {v : Json} (h : Readable depth v) :
    ∃ c cs, v.chars = c :: cs ∧ Reader.isSpace c = false ∧ c ≠ ']' ∧ c ≠ '}' := by
  cases h with
  | num _ h =>
    obtain ⟨c, cs, htext, hc, -⟩ := h
    refine ⟨c, cs, htext, ?_⟩
    rcases hc with rfl | hc
    · decide
    · refine ⟨Reader.isSpace_of_isDigit hc, ?_, ?_⟩ <;> (rintro rfl; cases hc)
  | bool _ b => cases b <;> exact ⟨_, _, rfl, by decide⟩
  | null | str | arr | obj => exact ⟨_, _, rfl, by decide⟩

/-- What follows an item of an array, up to its bracket. -/
def itemTail : List Json → List Char
  | [] => []
  | v :: rest => ',' :: (v.chars ++ itemTail rest)

theorem itemChars_cons (v : Json) (rest : List Json) :
    itemChars (v :: rest) = v.chars ++ itemTail rest := by
  induction rest generalizing v with
  | nil => simp [itemChars, itemTail]
  | cons w rest ih => rw [itemChars, ih, itemTail]; simp

def entryTail : List (String × Json) → List Char
  | [] => []
  | (k, v) :: rest => ',' :: (quote k ++ ':' :: (v.chars ++ entryTail rest))

theorem entryChars_cons (k : String) (v : Json) (rest : List (String × Json)) :
    entryChars ((k, v) :: rest) = quote k ++ ':' :: (v.chars ++ entryTail rest) := by
  induction rest generalizing k v with
  | nil => simp [entryChars, entryTail]
  | cons e rest ih => rw [entryChars, ih, entryTail]; simp

namespace Reader

theorem hasItem_end (first : Bool) (cs : List Char) :
    hasItem first (']' :: cs) = .ok (false, ']' :: cs) := bind_ok (next?_cons rfl cs)

theorem hasItem_first {c : Char} (hc : isSpace c = false) (hend : c ≠ ']') (cs : List Char) :
    hasItem true (c :: cs) = .ok (true, c :: cs) := by
  rw [hasItem, bind_ok (next?_cons hc cs)]
  simp only [↓reduceIte]
  rfl

theorem hasItem_next {c : Char} (hc : isSpace c = false) (hend : c ≠ ']') (cs : List Char) :
    hasItem false (',' :: c :: cs) = .ok (true, c :: cs) := by
  have hadvance : advance (',' :: c :: cs) = .ok ((), c :: cs) := rfl
  rw [hasItem, bind_ok (next?_cons rfl _)]
  show (advance >>= _) _ = _
  rw [bind_ok hadvance, bind_ok (next?_cons hc cs)]
  simp only
  rfl

theorem hasEntry_end (first : Bool) (cs : List Char) :
    hasEntry first ('}' :: cs) = .ok (false, '}' :: cs) := bind_ok (next?_cons rfl cs)

theorem hasEntry_first (cs : List Char) : hasEntry true ('"' :: cs) = .ok (true, '"' :: cs) :=
  bind_ok (next?_cons rfl cs)

theorem hasEntry_next (cs : List Char) :
    hasEntry false (',' :: '"' :: cs) = .ok (true, '"' :: cs) := rfl

theorem key_quote (k : String) (cs : List Char) : key (quote k ++ cs) = .ok (k, cs) := by
  have hadvance : advance (quote k ++ cs) = .ok ((), k.toList.flatMap escapeChar ++ '"' :: cs) := by
    simp [quote, advance, modify, modifyGet, MonadStateOf.modifyGet, StateT.modifyGet, pure,
      Except.pure]
  rw [key, bind_ok hadvance]
  exact string_quoted k cs

theorem colon_cons (cs : List Char) : colon (':' :: cs) = .ok ((), cs) :=
  bind_ok (next?_cons rfl cs)

variable {item : Reader Json}

/-- A reader that reads `v`, in front of anything that can follow it, as `w`. -/
def Takes (item : Reader Json) (v w : Json) : Prop :=
  (∃ c cs, v.chars = c :: cs ∧ isSpace c = false ∧ c ≠ ']' ∧ c ≠ '}') ∧
    ∀ rest, Closed rest → item (v.chars ++ rest) = .ok (w, rest)

theorem closed_itemTail (vs : List Json) (rest : List Char) :
    Closed (itemTail vs ++ ']' :: rest) := by
  cases vs <;> simp [itemTail, Closed]

theorem closed_entryTail (es : List (String × Json)) (rest : List Char) :
    Closed (entryTail es ++ '}' :: rest) := by
  cases es <;> simp [entryTail, Closed]

theorem items_cons {v w : Json} (h : Takes item v w) {first : Bool} {cs rest : List Char}
    (hmore : hasItem first cs = .ok (true, v.chars ++ rest)) (hrest : Closed rest) (rounds : Nat)
    (done : List Json) :
    items item (rounds + 1) first done cs = items item rounds false (w :: done) rest := by
  rw [items, bind_ok hmore]
  simp only [↓reduceIte]
  rw [bind_ok (h.2 rest hrest)]

section Items

variable {f : Json → Json}

theorem items_tail (vs : List Json) (h : ∀ v ∈ vs, Takes item v (f v)) {rounds : Nat}
    (hrounds : vs.length < rounds) (done : List Json) (rest : List Char) :
    items item rounds false done (itemTail vs ++ ']' :: rest) =
      .ok (done.reverse ++ vs.map f, rest) := by
  induction vs generalizing rounds done with
  | nil =>
    obtain ⟨n, rfl⟩ := Nat.exists_eq_add_of_lt hrounds
    rw [items, itemTail, List.nil_append, bind_ok (hasItem_end false rest), List.map_nil,
      List.append_nil]
    rfl
  | cons v vs ih =>
    obtain ⟨n, rfl⟩ : ∃ n, rounds = n + 1 := Nat.exists_eq_add_one.2 (Nat.zero_lt_of_lt hrounds)
    have hmore : hasItem false (itemTail (v :: vs) ++ ']' :: rest) =
        .ok (true, v.chars ++ (itemTail vs ++ ']' :: rest)) := by
      obtain ⟨⟨c, cs, hchars, hspace, hend, -⟩, -⟩ := h v (.head _)
      simp only [itemTail, hchars, List.cons_append, List.append_assoc]
      exact hasItem_next hspace hend _
    rw [items_cons (h v (.head _)) hmore (closed_itemTail vs rest),
      ih (fun w hw => h w (.tail _ hw)) (Nat.lt_of_succ_lt_succ hrounds), List.reverse_cons,
      List.map_cons, List.append_assoc, List.singleton_append]

theorem items_chars (vs : List Json) (h : ∀ v ∈ vs, Takes item v (f v)) {rounds : Nat}
    (hrounds : vs.length < rounds) (rest : List Char) :
    items item rounds true [] (itemChars vs ++ ']' :: rest) = .ok (vs.map f, rest) := by
  obtain ⟨n, rfl⟩ : ∃ n, rounds = n + 1 := Nat.exists_eq_add_one.2 (Nat.zero_lt_of_lt hrounds)
  cases vs with
  | nil =>
    rw [items, itemChars, List.nil_append, bind_ok (hasItem_end true rest)]
    rfl
  | cons v vs =>
    have hmore : hasItem true (itemChars (v :: vs) ++ ']' :: rest) =
        .ok (true, v.chars ++ (itemTail vs ++ ']' :: rest)) := by
      obtain ⟨⟨c, cs, hchars, hspace, hend, -⟩, -⟩ := h v (.head _)
      simp only [itemChars_cons, hchars, List.cons_append, List.append_assoc]
      exact hasItem_first hspace hend _
    rw [items_cons (h v (.head _)) hmore (closed_itemTail vs rest),
      items_tail vs (fun w hw => h w (.tail _ hw)) (Nat.lt_of_succ_lt_succ hrounds)]
    rfl

end Items

section Entries

variable {σ : Type} {step : String → σ → Reader σ} {f : σ → String × Json → σ}

/-- Reading the value of an entry, from the colon on, adds it to what has been gathered. -/
def Gathers (step : String → σ → Reader σ) (f : σ → String × Json → σ) (gathered : σ)
    (e : String × Json) : Prop :=
  ∀ rest, Closed rest → step e.1 gathered (':' :: (e.2.chars ++ rest)) = .ok (f gathered e, rest)

theorem entries_cons {gathered : σ} {e : String × Json} (h : Gathers step f gathered e)
    {first : Bool} {cs rest : List Char}
    (hmore : hasEntry first cs = .ok (true, quote e.1 ++ ':' :: (e.2.chars ++ rest)))
    (hrest : Closed rest) (rounds : Nat) :
    entries step (rounds + 1) first gathered cs = entries step rounds false (f gathered e) rest := by
  rw [entries, bind_ok hmore]
  simp only [↓reduceIte]
  rw [bind_ok (key_quote e.1 _), bind_ok (h rest hrest)]

theorem entries_tail (es : List (String × Json)) (gathered : σ)
    (h : ∀ before e after, es = before ++ e :: after →
      Gathers step f (before.foldl f gathered) e)
    {rounds : Nat} (hrounds : es.length < rounds) (rest : List Char) :
    entries step rounds false gathered (entryTail es ++ '}' :: rest) =
      .ok (es.foldl f gathered, rest) := by
  induction es generalizing rounds gathered with
  | nil =>
    obtain ⟨n, rfl⟩ := Nat.exists_eq_add_of_lt hrounds
    rw [entries, entryTail, List.nil_append, bind_ok (hasEntry_end false rest)]
    rfl
  | cons e es ih =>
    obtain ⟨n, rfl⟩ : ∃ n, rounds = n + 1 := Nat.exists_eq_add_one.2 (Nat.zero_lt_of_lt hrounds)
    have hmore : hasEntry false (entryTail (e :: es) ++ '}' :: rest) =
        .ok (true, quote e.1 ++ ':' :: (e.2.chars ++ (entryTail es ++ '}' :: rest))) := by
      simp only [entryTail, quote, List.cons_append, List.append_assoc]
      exact hasEntry_next _
    have hfirst : Gathers step f gathered e := h [] e es rfl
    rw [entries_cons hfirst hmore (closed_entryTail es rest),
      ih _ (fun before d after heq => h (e :: before) d after (by rw [heq]; rfl))
        (Nat.lt_of_succ_lt_succ hrounds)]
    rfl

theorem entries_chars (es : List (String × Json)) (gathered : σ)
    (h : ∀ before e after, es = before ++ e :: after →
      Gathers step f (before.foldl f gathered) e)
    {rounds : Nat} (hrounds : es.length < rounds) (rest : List Char) :
    entries step rounds true gathered (entryChars es ++ '}' :: rest) =
      .ok (es.foldl f gathered, rest) := by
  obtain ⟨n, rfl⟩ : ∃ n, rounds = n + 1 := Nat.exists_eq_add_one.2 (Nat.zero_lt_of_lt hrounds)
  cases es with
  | nil =>
    rw [entries, entryChars, List.nil_append, bind_ok (hasEntry_end true rest)]
    rfl
  | cons e es =>
    have hmore : hasEntry true (entryChars (e :: es) ++ '}' :: rest) =
        .ok (true, quote e.1 ++ ':' :: (e.2.chars ++ (entryTail es ++ '}' :: rest))) := by
      simp only [entryChars_cons e.1, quote, List.cons_append, List.append_assoc]
      exact hasEntry_first _
    have hfirst : Gathers step f gathered e := h [] e es rfl
    rw [entries_cons hfirst hmore (closed_entryTail es rest),
      entries_tail es _ (fun before d after heq => h (e :: before) d after (by rw [heq]; rfl))
        (Nat.lt_of_succ_lt_succ hrounds)]
    rfl

end Entries

def entry (item : Reader Json) (k : String) (done : List (String × Json)) :
    Reader (List (String × Json)) := do
  colon
  return (k, ← item) :: done

theorem foldl_cons_map {α β : Type} (g : α → β) (l : List α) (done : List β) :
    l.foldl (fun done a => g a :: done) done = (l.map g).reverse ++ done := by
  induction l generalizing done with
  | nil => rfl
  | cons a l ih => rw [List.foldl_cons, ih]; simp

theorem entries_entry {f : Json → Json} (es : List (String × Json))
    (h : ∀ e ∈ es, Takes item e.2 (f e.2))
    {rounds : Nat} (hrounds : es.length < rounds) (rest : List Char) :
    entries (entry item) rounds true [] (entryChars es ++ '}' :: rest) =
      .ok ((es.map fun e => (e.1, f e.2)).reverse, rest) := by
  have hgathers : ∀ before e after, es = before ++ e :: after →
      Gathers (entry item) (fun done e => (e.1, f e.2) :: done)
        (before.foldl (fun done e => (e.1, f e.2) :: done) []) e := by
    intro before e after heq rest hrest
    have htakes := h e (by rw [heq]; exact List.mem_append_right _ (.head _))
    rw [entry, bind_ok (colon_cons _)]
    exact map_ok (f := fun v => (e.1, v) :: before.foldl (fun done e => (e.1, f e.2) :: done) [])
      (htakes.2 rest hrest)
  rw [entries_chars es [] hgathers hrounds, foldl_cons_map, List.append_nil]

theorem value_scalar (raw : Bool) (rounds depth : Nat) {c : Char} (hc : isSpace c = false)
    (hlist : c ≠ '[') (hobject : c ≠ '{') (cs : List Char) :
    value raw rounds (depth + 1) (c :: cs) = scalar c (c :: cs) := by
  rw [value, bind_ok (next?_cons hc cs)]
  simp only

theorem value_arr (raw : Bool) (rounds depth : Nat) (cs : List Char) :
    value raw rounds (depth + 2) ('[' :: cs) =
      (do return .arr (← items (value raw rounds (depth + 1)) rounds true []) : Reader Json) cs := by
  rw [value, bind_ok (next?_cons rfl cs)]
  simp only
  rw [inside, if_neg (by simp)]
  exact bind_ok rfl

theorem value_obj (raw : Bool) (rounds depth : Nat) (cs : List Char) :
    value raw rounds (depth + 2) ('{' :: cs) =
      (do
        let es := (← entries (entry (value raw rounds (depth + 1))) rounds true []).reverse
        return if raw then .obj es else .ofEntries es : Reader Json) cs := by
  rw [value, bind_ok (next?_cons rfl cs)]
  simp only
  rw [inside, if_neg (by simp)]
  exact bind_ok rfl

end Reader

theorem le_length_flatMap {α : Type} (l : List α) (f : α → List Char) :
    l.length ≤ (l.flatMap fun a => ',' :: f a).length ∧
      ∀ a ∈ l, (f a).length ≤ (l.flatMap fun a => ',' :: f a).length := by
  induction l with
  | nil => exact ⟨Nat.le_refl _, nofun⟩
  | cons a l ih =>
    simp only [List.flatMap_cons, List.length_cons, List.length_append]
    refine ⟨by omega, ?_⟩
    intro b hb
    rcases List.mem_cons.1 hb with rfl | hb
    · omega
    · have hle := ih.2 b hb
      omega

theorem itemTail_eq (items : List Json) : itemTail items = items.flatMap fun v => ',' :: v.chars := by
  induction items with
  | nil => rfl
  | cons v rest ih => rw [itemTail, ih]; rfl

theorem entryTail_eq (entries : List (String × Json)) : entryTail entries =
    entries.flatMap fun e => ',' :: (quote e.1 ++ ':' :: e.2.chars) := by
  induction entries with
  | nil => rfl
  | cons e rest ih => rw [entryTail, ih]; simp

theorem le_length_itemChars (items : List Json) :
    items.length ≤ (itemChars items).length + 1 ∧
      ∀ v ∈ items, v.chars.length ≤ (itemChars items).length := by
  cases items with
  | nil => exact ⟨Nat.zero_le _, nofun⟩
  | cons v rest =>
    obtain ⟨hcount, hlength⟩ := le_length_flatMap rest chars
    rw [itemChars_cons, itemTail_eq, List.length_append, List.length_cons]
    refine ⟨by omega, ?_⟩
    intro w hw
    rcases List.mem_cons.1 hw with rfl | hw
    · omega
    · have hle := hlength w hw
      omega

theorem le_length_entryChars (entries : List (String × Json)) :
    entries.length ≤ (entryChars entries).length + 1 ∧
      ∀ e ∈ entries, e.2.chars.length ≤ (entryChars entries).length := by
  cases entries with
  | nil => exact ⟨Nat.zero_le _, nofun⟩
  | cons e rest =>
    obtain ⟨k, v⟩ := e
    obtain ⟨hcount, hlength⟩ := le_length_flatMap rest fun e => quote e.1 ++ ':' :: e.2.chars
    rw [entryChars_cons, entryTail_eq]
    simp only [List.length_cons, List.length_append] at hlength ⊢
    refine ⟨by omega, ?_⟩
    intro w hw
    rcases List.mem_cons.1 hw with rfl | hw
    · simp only
      omega
    · have hle := hlength w hw
      omega

/-- A value as it is read: as it stands, or in canonical form. -/
def form (raw : Bool) (v : Json) : Json := if raw then v else v.canonical

theorem form_arr (raw : Bool) (items : List Json) :
    form raw (.arr items) = .arr (items.map (form raw)) := by
  cases raw with
  | true => exact congrArg Json.arr (List.map_id' items).symm
  | false => exact congrArg Json.arr (canonicalItems_eq items)

theorem form_obj (raw : Bool) (entries : List (String × Json)) :
    (if raw then .obj (entries.map fun e => (e.1, form raw e.2))
      else .ofEntries (entries.map fun e => (e.1, form raw e.2))) = form raw (.obj entries) := by
  cases raw with
  | true => exact congrArg Json.obj (List.map_id' entries)
  | false => exact congrArg Json.ofEntries (canonicalEntries_eq entries).symm

/-- A reader takes an array if it reads the items, each with room for it, and the bracket. -/
theorem Reader.takes_arr {reader : Reader Json} {items : List Json} {w : Json} {depth rounds : Nat}
    (hread : Readable depth (.arr items)) (hrounds : (Json.arr items).chars.length < rounds)
    (h : ∀ less, depth = less + 2 → items.length < rounds →
      (∀ v ∈ items, Readable (less + 1) v ∧ v.chars.length < rounds) →
        ∀ rest, reader ('[' :: (itemChars items ++ ']' :: rest)) = .ok (w, rest)) :
    Takes reader (.arr items) w := by
  refine ⟨hread.chars_cons, fun rest _ => ?_⟩
  obtain ⟨hcount, hlength⟩ := le_length_itemChars items
  simp only [chars, List.length_cons, List.length_append, List.length_nil] at hrounds
  rw [chars, List.cons_append, List.append_assoc, List.singleton_append]
  cases hread with
  | arr hitems =>
    refine h _ rfl (by omega) (fun v hv => ⟨hitems v hv, ?_⟩) rest
    have hle := hlength v hv
    omega

theorem Reader.takes_obj {reader : Reader Json} {entries : List (String × Json)} {w : Json}
    {depth rounds : Nat} (hread : Readable depth (.obj entries))
    (hrounds : (Json.obj entries).chars.length < rounds)
    (h : ∀ less, depth = less + 2 → entries.length < rounds →
      (∀ e ∈ entries, Readable (less + 1) e.2 ∧ e.2.chars.length < rounds) →
        ∀ rest, reader ('{' :: (entryChars entries ++ '}' :: rest)) = .ok (w, rest)) :
    Takes reader (.obj entries) w := by
  refine ⟨hread.chars_cons, fun rest _ => ?_⟩
  obtain ⟨hcount, hlength⟩ := le_length_entryChars entries
  simp only [chars, List.length_cons, List.length_append, List.length_nil] at hrounds
  rw [chars, List.cons_append, List.append_assoc, List.singleton_append]
  cases hread with
  | obj hentries =>
    refine h _ rfl (by omega) (fun e he => ⟨hentries e he, ?_⟩) rest
    have hle := hlength e he
    omega

/-- A readable value is read from the front of a text. -/
theorem Readable.takes {depth rounds : Nat} {v : Json} (h : Readable depth v) (raw : Bool)
    (hrounds : v.chars.length < rounds) :
    Reader.Takes (Reader.value raw rounds depth) v (form raw v) := by
  have hscalar {v : Json} (h : v.canonical = v) : form raw v = v := by cases raw <;> simp [form, h]
  induction h with
  | null depth =>
    refine ⟨(Readable.null depth).chars_cons, ?_⟩
    intro rest _
    rw [hscalar rfl]
    exact (Reader.value_scalar raw rounds depth rfl (by decide) (by decide) _).trans
      (Reader.bind_ok (Reader.word_ok _ rest))
  | bool depth b =>
    refine ⟨(Readable.bool depth b).chars_cons, ?_⟩
    intro rest _
    rw [hscalar rfl]
    cases b with
    | true =>
      exact (Reader.value_scalar raw rounds depth rfl (by decide) (by decide) _).trans
        (Reader.bind_ok (Reader.word_ok _ rest))
    | false =>
      exact (Reader.value_scalar raw rounds depth rfl (by decide) (by decide) _).trans
        (Reader.bind_ok (Reader.word_ok _ rest))
  | num depth hn =>
    refine ⟨(Readable.num depth hn).chars_cons, ?_⟩
    intro rest hrest
    obtain ⟨c, cs, htext, hc, hread⟩ := hn
    have hread := hread rest hrest
    rw [htext, List.cons_append] at hread
    rw [chars, htext, List.cons_append, hscalar rfl]
    have hplain : Reader.isSpace c = false ∧ c ≠ '[' ∧ c ≠ '{' := by
      rcases hc with rfl | hc
      · decide
      · refine ⟨Reader.isSpace_of_isDigit hc, ?_, ?_⟩ <;> (rintro rfl; cases hc)
    rw [Reader.value_scalar raw rounds depth hplain.1 hplain.2.1 hplain.2.2]
    exact hread
  | str depth s =>
    refine ⟨(Readable.str depth s).chars_cons, ?_⟩
    intro rest _
    have hquote : Reader.lift Literal.string (s.toList.flatMap escapeChar ++ '"' :: rest) =
        .ok (s, rest) := string_quoted s rest
    rw [chars, quote, List.cons_append, List.append_assoc, List.singleton_append,
      Reader.value_scalar raw rounds depth rfl (by decide) (by decide), hscalar rfl]
    exact Reader.map_ok (f := Json.str) hquote
  | @arr depth items h ih =>
    refine Reader.takes_arr (.arr h) hrounds ?_
    rintro _ ⟨⟩ hcount hitems rest
    rw [Reader.value_arr, form_arr]
    exact Reader.map_ok (f := Json.arr)
      (Reader.items_chars items (fun v hv => ih v hv (hitems v hv).2) hcount rest)
  | @obj depth entries h ih =>
    refine Reader.takes_obj (.obj h) hrounds ?_
    rintro _ ⟨⟩ hcount hentries rest
    have hread := Reader.map_ok
      (f := fun es => if raw then Json.obj es.reverse else .ofEntries es.reverse)
      (Reader.entries_entry entries (fun e he => ih e he (hentries e he).2) hcount rest)
    rw [List.reverse_reverse, form_obj] at hread
    rw [Reader.value_obj]
    exact hread

/-- **Printing and parsing.** The compact text of a value of which no part stands in more than
127 containers holds that value in canonical form, if the text of its numbers reads back. -/
theorem parse_text {v : Json} (h : Readable 128 v) : parse v.text = .ok v.canonical := by
  have hread := (h.takes false (Nat.lt_succ_self _)).2 [] trivial
  rw [List.append_nil] at hread
  rw [parse, Reader.run, text, String.toList_ofList]
  simp only [hread, bind, Except.bind]
  rfl

theorem Readable.canonical {depth : Nat} {v : Json} (h : Readable depth v) :
    Readable depth v.canonical := by
  induction h with
  | null depth => exact .null depth
  | bool depth b => exact .bool depth b
  | num depth h => exact .num depth h
  | str depth s => exact .str depth s
  | arr _ ih =>
    rw [Json.canonical, canonicalItems_eq]
    exact .arr (List.forall_mem_map.2 ih)
  | @obj depth _ _ ih =>
    rw [canonical_obj]
    exact .obj (forall_mem_sortedEntries (P := Readable (depth + 1)) ih)

/-- Sorting the keys before a value is written makes no difference to who reads it. -/
theorem parse_canonicalText {v : Json} (h : Readable 128 v) :
    parse v.canonicalText = .ok v.canonical := by
  rw [canonicalText, parse_text h.canonical, canonical_canonical]

end DocCompiler.Json
