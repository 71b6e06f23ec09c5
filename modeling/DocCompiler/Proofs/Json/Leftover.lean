import DocCompiler.Proofs.Json.Nested

/-! What is left when compact text is read. Whether or not its numbers can be read and there is room
for its depth: a reading that succeeds ends where the value ends, takes every string for what it was
written for, and has had room for the value. So the strings of a message can be relied on, whatever
else the message holds; and a message that nests too deep is not read. -/

namespace DocCompiler.Json

def Digits (cs : List Char) : Prop := ∀ c ∈ cs, c.isDigit = true

def Ended (cs : List Char) : Prop := ∀ c ∈ cs.head?, c.isDigit = false

theorem Closed.ended {cs : List Char} (h : Closed cs) : Ended cs := by
  rintro c hc
  cases cs with
  | nil => cases hc
  | cons d cs =>
    cases hc
    exact h.not_digit

theorem span_digits {ds rest : List Char} (hds : Digits ds) (hrest : Ended rest) :
    (ds ++ rest).takeWhile Char.isDigit = ds ∧ (ds ++ rest).dropWhile Char.isDigit = rest := by
  induction ds with
  | nil =>
    cases rest with
    | nil => exact ⟨rfl, rfl⟩
    | cons c rest => simp [hrest c rfl]
  | cons d ds ih =>
    obtain ⟨htake, hdrop⟩ := ih fun d hd => hds d (.tail _ hd)
    simp [hds d (.head _), htake, hdrop]

/-- A point and digits, or nothing. -/
def Fractional (cs : List Char) : Prop := cs = [] ∨ ∃ ds, Digits ds ∧ cs = '.' :: ds

/-- An exponent with a sign, or nothing. -/
def Exponential (cs : List Char) : Prop :=
  cs = [] ∨ ∃ sign ds, (sign = '+' ∨ sign = '-') ∧ Digits ds ∧ cs = 'e' :: sign :: ds

def Numeric (cs : List Char) : Prop :=
  ∃ ds fraction exponent, Digits ds ∧ Fractional fraction ∧ Exponential exponent ∧
    cs = ds ++ fraction ++ exponent

section Numbers

theorem digits_toDigits (n : Nat) : Digits (Nat.toDigits 10 n) := fun _ =>
  Nat.isDigit_of_mem_toDigits (by decide) (by decide)

theorem digits_replicate (n : Nat) : Digits (List.replicate n '0') := fun _ hc =>
  List.eq_of_mem_replicate hc ▸ rfl

theorem Digits.append {a b : List Char} (ha : Digits a) (hb : Digits b) : Digits (a ++ b) :=
  fun c hc => (List.mem_append.1 hc).elim (ha c) (hb c)

theorem numeric_toDigits (n : Nat) : Numeric (Nat.toDigits 10 n) :=
  ⟨_, [], [], digits_toDigits n, .inl rfl, .inl rfl, by simp⟩

theorem numeric_positional {ds : List Char} (h : Digits ds) (point : Int) :
    Numeric (Decimal.positional ds point) := by
  rw [Decimal.positional]
  split
  case isTrue =>
    refine ⟨['0'], '.' :: (List.replicate (-point).toNat '0' ++ ds), [], by simp [Digits],
      .inr ⟨_, (digits_replicate _).append h, rfl⟩, .inl rfl, by simp⟩
  case isFalse =>
    have hwhole : Digits (ds.take point.toNat) := fun c hc => h c (List.mem_of_mem_take hc)
    have hbehind : Digits (if (ds.drop point.toNat).isEmpty then ['0'] else ds.drop point.toNat) := by
      split
      · exact digits_replicate 1
      · exact fun c hc => h c (List.mem_of_mem_drop hc)
    exact ⟨_, '.' :: _, [], hwhole.append (digits_replicate (point.toNat - ds.length)),
      .inr ⟨_, hbehind, rfl⟩, .inl rfl, by simp⟩

theorem numeric_scientific {ds : List Char} (h : Digits ds) (exponent : Int) :
    Numeric (Decimal.scientific ds exponent) := by
  have hpower : Exponential ('e' :: (if exponent < 0 then '-' else '+') ::
      Nat.toDigits 10 exponent.natAbs) := by
    refine .inr ⟨_, _, ?_, digits_toDigits _, rfl⟩
    split
    · exact .inr rfl
    · exact .inl rfl
  match ds with
  | [] => exact ⟨[], [], _, nofun, .inl rfl, hpower, rfl⟩
  | [d] => exact ⟨[d], [], _, h, .inl rfl, hpower, rfl⟩
  | d :: e :: ds =>
    exact ⟨[d], '.' :: e :: ds, _, fun c hc => h c (List.mem_singleton.1 hc ▸ .head _),
      .inr ⟨_, fun c hc => h c (.tail _ hc), rfl⟩, hpower, rfl⟩

theorem Numeric.ne_minus {c : Char} {cs : List Char} (h : Numeric (c :: cs)) : c ≠ '-' := by
  rintro rfl
  obtain ⟨ds, fraction, exponent, hds, hfraction, hexponent, heq⟩ := h
  cases ds with
  | cons d ds =>
    obtain rfl := (List.cons.inj heq).1
    exact Bool.noConfusion (hds '-' (.head _) : Char.isDigit '-' = true)
  | nil => rcases hfraction with rfl | ⟨fs, -, rfl⟩ <;>
      rcases hexponent with rfl | ⟨sign, es, -, -, rfl⟩ <;> simp at heq

theorem Number.numeric_text (n : Number) : ∃ cs, Numeric cs ∧ (n.text = cs ∨ n.text = '-' :: cs) := by
  have hdecimal (d : Decimal) : Numeric d.text := by
    rw [Decimal.text]
    split
    · exact numeric_positional (digits_toDigits _) _
    · exact numeric_scientific (digits_toDigits _) _
  cases n with
  | int n =>
    refine ⟨Nat.toDigits 10 n.natAbs, numeric_toDigits _, ?_⟩
    rw [Number.text]
    by_cases hneg : n < 0 <;> simp [hneg]
  | float x =>
    have hzero : Numeric ['0', '.', '0'] :=
      ⟨['0'], ['.', '0'], [], digits_replicate 1, .inr ⟨_, digits_replicate 1, rfl⟩, .inl rfl, rfl⟩
    refine ⟨if x.magnitude = 0 then ['0', '.', '0'] else (Decimal.shortest x.magnitude).text, ?_, ?_⟩
    · split
      · exact hzero
      · exact hdecimal _
    · rw [Number.text, Binary64.text]
      by_cases hneg : x.negative = true <;> simp [hneg]

theorem Exponential.ended {cs rest : List Char} (h : Exponential cs) (hrest : Closed rest) :
    Ended (cs ++ rest) := by
  rcases h with rfl | ⟨sign, ds, -, -, rfl⟩
  · exact hrest.ended
  · rintro c ⟨⟩
    rfl

section Literal

variable {negative : Bool} {d : Decimal} {n : Number} {cs rest r : List Char}

theorem leftover_exponent {e : Int} {sign : Char} {ds : List Char}
    (hsign : sign = '+' ∨ sign = '-') (hds : Digits ds) (hrest : Closed rest)
    (h : Literal.exponent (sign :: (ds ++ rest)) = .ok (e, r)) : r = rest := by
  have hdrop := (span_digits hds hrest.ended).2
  generalize ds ++ rest = cs at h hdrop
  cases cs with
  | nil => rcases hsign with rfl | rfl <;> cases h
  | cons c cs =>
    have hread : ∃ e, Literal.exponent (sign :: c :: cs) =
        if c.isDigit then .ok (e, (c :: cs).dropWhile Char.isDigit) else .error .invalidNumber := by
      rcases hsign with rfl | rfl <;> exact ⟨_, rfl⟩
    obtain ⟨e', hread⟩ := hread
    rw [hread] at h
    split at h
    case isTrue =>
      cases h
      exact hdrop
    case isFalse => cases h

/-- What is read may fail to be a number, but it is behind it that reading goes on. -/
theorem leftover_map {x : Except Fault Number}
    (h : (do .ok (← x, rest) : Except Fault (Number × List Char)) = .ok (n, r)) : r = rest := by
  cases x with
  | error e => cases h
  | ok a =>
    cases h
    rfl

theorem leftover_afterDigits (hcs : Exponential cs) (hrest : Closed rest)
    (h : Literal.afterDigits negative d (cs ++ rest) = .ok (n, r)) : r = rest := by
  rcases hcs with rfl | ⟨sign, ds, hsign, hds, rfl⟩
  · rw [List.nil_append] at h
    unfold Literal.afterDigits at h
    split at h
    case h_3 => exact leftover_map h
    all_goals exact absurd hrest (by simp [Closed])
  · have hread : Literal.afterDigits negative d ('e' :: sign :: (ds ++ rest)) =
        (Literal.exponent (sign :: (ds ++ rest))).bind fun x =>
          (Literal.ofDecimal negative ⟨d.digits, d.exponent + x.1⟩).bind fun n => .ok (n, x.2) := rfl
    rw [List.cons_append, List.cons_append, hread] at h
    cases hexponent : Literal.exponent (sign :: (ds ++ rest)) with
    | error fault =>
      rw [hexponent] at h
      cases h
    | ok x =>
      obtain ⟨e, left⟩ := x
      obtain rfl := leftover_exponent hsign hds hrest hexponent
      rw [hexponent] at h
      exact leftover_map h

theorem leftover_fraction {ds : List Char} (hds : Digits ds) (hcs : Exponential cs)
    (hrest : Closed rest) (h : Literal.fraction negative d (ds ++ (cs ++ rest)) = .ok (n, r)) :
    r = rest := by
  obtain ⟨htake, hdrop⟩ := span_digits hds (hcs.ended hrest)
  rw [Literal.fraction, htake, hdrop] at h
  dsimp only at h
  split at h
  case h_3 => exact leftover_afterDigits hcs hrest h
  all_goals cases h

/-- However a number is read, it ends where its text does. -/
theorem leftover_number (hcs : Numeric cs) (hrest : Closed rest)
    (h : Literal.number negative (cs ++ rest) = .ok (n, r)) : r = rest := by
  obtain ⟨ds, fraction, exponent, hds, hfraction, hexponent, rfl⟩ := hcs
  have hended : Ended (fraction ++ (exponent ++ rest)) := by
    rcases hfraction with rfl | ⟨fs, -, rfl⟩
    · exact hexponent.ended hrest
    · rintro c ⟨⟩
      rfl
  obtain ⟨htake, hdrop⟩ := span_digits hds hended
  rw [List.append_assoc, List.append_assoc, Literal.number, htake, hdrop] at h
  dsimp only at h
  split at h
  case h_3 =>
    rcases hfraction with rfl | ⟨fs, hfs, rfl⟩
    · rcases hexponent with rfl | ⟨sign, es, hsign, hes, rfl⟩
      · rw [List.nil_append, List.nil_append] at h
        split at h
        case h_4 => split at h <;> exact leftover_map h
        all_goals exact absurd hrest (by simp [Closed])
      · exact leftover_afterDigits (.inr ⟨sign, es, hsign, hes, rfl⟩) hrest h
    · exact leftover_fraction hfs hexponent hrest h
  all_goals cases h

end Literal

end Numbers

namespace Reader

variable {α β : Type}

/-- Whatever a reader reads from the front of a text, and the rest it leaves, are such. -/
def On (x : Reader α) (cs : List Char) (Q : α → List Char → Prop) : Prop :=
  ∀ a rest, x cs = .ok (a, rest) → Q a rest

namespace On

variable {x : Reader α} {f : α → Reader β} {cs cs' : List Char} {a : α}
  {P : α → List Char → Prop} {Q : β → List Char → Prop}

theorem pure (h : P a cs) : On (pure a) cs P := by
  rintro _ _ ⟨⟩
  exact h

theorem throw (fault : Fault) : On (throw fault) cs P := by
  rintro _ _ ⟨⟩

theorem bind (hx : On x cs P) (hf : ∀ a cs', P a cs' → On (f a) cs' Q) : On (x >>= f) cs Q := by
  intro b rest h
  cases hread : x cs with
  | error e =>
    have hfail : (x >>= f) cs = .error e := by
      show (x cs).bind _ = _
      rw [hread]
      rfl
    rw [hfail] at h
    cases h
  | ok r =>
    obtain ⟨a, cs'⟩ := r
    rw [bind_ok hread] at h
    exact hf a cs' (hx a cs' hread) b rest h

/-- What is known to be read is read, and the reader goes on. -/
theorem step (hx : x cs = .ok (a, cs')) (hf : On (f a) cs' Q) : On (x >>= f) cs Q := by
  intro b rest h
  rw [bind_ok hx] at h
  exact hf b rest h

theorem ok (hx : x cs = .ok (a, cs')) (h : P a cs') : On x cs P := by
  intro b rest hread
  rw [hx] at hread
  cases hread
  exact h

theorem of_eq {y : Reader α} {cs' : List Char} (h : x cs = y cs') (hy : On y cs' P) : On x cs P :=
  fun a rest hread => hy a rest (h ▸ hread)

end On

/-- Reads a value from the front of a text and leaves what is behind it. -/
def Ends (item : Reader Json) (R : Json → Json → Prop) (v : Json) : Prop :=
  ∀ rest, Closed rest → On item (v.chars ++ rest) fun w left => left = rest ∧ R v w

theorem on_lift_number {negative : Bool} {cs rest : List Char} (hcs : Numeric cs)
    (hrest : Closed rest) :
    On (do return .num (← lift (Literal.number negative)) : Reader Json) (cs ++ rest)
      fun _ left => left = rest := by
  refine On.bind (P := fun _ left => left = rest) (fun n left h => ?_) fun n left hleft => .pure hleft
  exact leftover_number hcs hrest h

theorem on_scalar_number (n : Number) {c : Char} {cs rest : List Char} (htext : n.text = c :: cs)
    (hrest : Closed rest) : On (scalar c) (n.text ++ rest) fun _ left => left = rest := by
  obtain ⟨ns, hnumeric, hns | hns⟩ := n.numeric_text
  · obtain ⟨d, ds, hcons, hd⟩ := n.text_cons
    obtain rfl : c = d := (List.cons.inj (htext.symm.trans hcons)).1
    have hminus : c ≠ '-' := Numeric.ne_minus (hns.symm.trans htext ▸ hnumeric)
    rw [hns, scalar_digit (hd.resolve_left hminus)]
    exact on_lift_number hnumeric hrest
  · obtain rfl : c = '-' := (List.cons.inj (htext.symm.trans hns)).1
    rw [hns]
    exact .step (a := ()) rfl (on_lift_number hnumeric hrest)

theorem exists_chars_cons (v : Json) :
    ∃ c cs, v.chars = c :: cs ∧ isSpace c = false ∧ c ≠ ']' := by
  cases v with
  | num n =>
    obtain ⟨c, cs, htext, hc⟩ := n.text_cons
    refine ⟨c, cs, htext, ?_⟩
    rcases hc with rfl | hc
    · decide
    · refine ⟨isSpace_of_isDigit hc, ?_⟩
      rintro rfl
      cases hc
  | bool b => cases b <;> exact ⟨_, _, rfl, by decide⟩
  | null | str | arr | obj => exact ⟨_, _, rfl, by decide⟩

section Items

variable {item : Reader Json} {R : Json → Json → Prop} {v : Json} {vs : List Json}
  {rest : List Char}

theorem on_items_cons {rounds : Nat} {first : Bool} {cs : List Char} {done : List Json}
    {Q : List Json → List Char → Prop} (hmore : hasItem first cs = .ok (true, v.chars ++ rest))
    (hrest : Closed rest) (hv : Ends item R v)
    (htail : ∀ w, R v w → On (items item rounds false (w :: done)) rest Q) :
    On (items item (rounds + 1) first done) cs Q := by
  rw [items]
  refine .step hmore (.bind (hv rest hrest) ?_)
  rintro w _ ⟨rfl, hw⟩
  exact htail w hw

theorem on_items_tail (h : ∀ v ∈ vs, Ends item R v) (rounds : Nat) (done : List Json) :
    On (items item rounds false done) (itemTail vs ++ ']' :: rest) fun _ left =>
      left = rest ∧ ∀ v ∈ vs, ∃ w, R v w := by
  induction rounds generalizing vs done with
  | zero => exact .throw _
  | succ rounds ih =>
    cases vs with
    | nil =>
      rw [items]
      exact .step (hasItem_end false rest) (.step (a := ()) rfl (.pure ⟨rfl, List.forall_mem_nil _⟩))
    | cons v vs =>
      have hmore : hasItem false (itemTail (v :: vs) ++ ']' :: rest) =
          .ok (true, v.chars ++ (itemTail vs ++ ']' :: rest)) := by
        obtain ⟨c, cs, hchars, hspace, hend⟩ := exists_chars_cons v
        simp only [itemTail, hchars, List.cons_append, List.append_assoc]
        exact hasItem_next hspace hend _
      refine on_items_cons hmore (closed_itemTail vs rest) (h v (.head _)) fun w hw => ?_
      intro ws left hread
      obtain ⟨rfl, hws⟩ := ih (fun v hv => h v (.tail _ hv)) _ ws left hread
      exact ⟨rfl, List.forall_mem_cons.2 ⟨⟨w, hw⟩, hws⟩⟩

theorem on_items (h : ∀ v ∈ vs, Ends item R v) (rounds : Nat) :
    On (items item rounds true []) (itemChars vs ++ ']' :: rest) fun _ left =>
      left = rest ∧ ∀ v ∈ vs, ∃ w, R v w := by
  cases rounds with
  | zero => exact .throw _
  | succ rounds =>
    cases vs with
    | nil =>
      rw [items]
      exact .step (hasItem_end true rest) (.step (a := ()) rfl (.pure ⟨rfl, List.forall_mem_nil _⟩))
    | cons v vs =>
      have hmore : hasItem true (itemChars (v :: vs) ++ ']' :: rest) =
          .ok (true, v.chars ++ (itemTail vs ++ ']' :: rest)) := by
        obtain ⟨c, cs, hchars, hspace, hend⟩ := exists_chars_cons v
        simp only [itemChars_cons, hchars, List.cons_append, List.append_assoc]
        exact hasItem_first hspace hend _
      refine on_items_cons hmore (closed_itemTail vs rest) (h v (.head _)) fun w hw => ?_
      intro ws left hread
      obtain ⟨rfl, hws⟩ :=
        on_items_tail (fun v hv => h v (.tail _ hv)) rounds [w] ws left hread
      exact ⟨rfl, List.forall_mem_cons.2 ⟨⟨w, hw⟩, hws⟩⟩

end Items

section Entries

variable {item : Reader Json} {R : Json → Json → Prop} {e : String × Json}
  {es : List (String × Json)} {rest : List Char}

/-- An entry has been read for another one: under its key, and with a related value. -/
def ReadFor (R : Json → Json → Prop) (e e' : String × Json) : Prop := e.1 = e'.1 ∧ R e.2 e'.2

theorem on_entries_cons {rounds : Nat} {first : Bool} {cs : List Char}
    {done : List (String × Json)} {Q : List (String × Json) → List Char → Prop}
    (hmore : hasEntry first cs = .ok (true, quote e.1 ++ ':' :: (e.2.chars ++ rest)))
    (hrest : Closed rest) (he : Ends item R e.2)
    (htail : ∀ e', ReadFor R e e' → On (entries (entry item) rounds false (e' :: done)) rest Q) :
    On (entries (entry item) (rounds + 1) first done) cs Q := by
  have hentry : On (entry item e.1 done) (':' :: (e.2.chars ++ rest)) fun es left =>
      left = rest ∧ ∃ e', es = e' :: done ∧ ReadFor R e e' := by
    rw [entry]
    refine .step (colon_cons _) (.bind (he rest hrest) ?_)
    rintro w _ ⟨rfl, hw⟩
    exact .pure ⟨rfl, (e.1, w), rfl, rfl, hw⟩
  rw [entries]
  refine .step hmore (.step (key_quote e.1 _) (.bind hentry ?_))
  rintro _ _ ⟨rfl, e', rfl, he'⟩
  exact htail e' he'

theorem on_entries_tail (h : ∀ e ∈ es, Ends item R e.2) (rounds : Nat)
    (done : List (String × Json)) :
    On (entries (entry item) rounds false done) (entryTail es ++ '}' :: rest) fun all left =>
      left = rest ∧ ∃ es', all.reverse = done.reverse ++ es' ∧ List.Forall₂ (ReadFor R) es es' := by
  induction rounds generalizing es done with
  | zero => exact .throw _
  | succ rounds ih =>
    cases es with
    | nil =>
      rw [entries]
      exact .step (hasEntry_end false rest) (.step (a := ()) rfl (.pure ⟨rfl, [], by simp, .nil⟩))
    | cons e es =>
      have hmore : hasEntry false (entryTail (e :: es) ++ '}' :: rest) =
          .ok (true, quote e.1 ++ ':' :: (e.2.chars ++ (entryTail es ++ '}' :: rest))) := by
        simp only [entryTail, quote, List.cons_append, List.append_assoc]
        exact hasEntry_next _
      refine on_entries_cons hmore (closed_entryTail es rest) (h e (.head _)) fun e' he' => ?_
      intro all left hread
      obtain ⟨rfl, es', hall, hes'⟩ := ih (fun e he => h e (.tail _ he)) _ all left hread
      exact ⟨rfl, e' :: es', by simp [hall], .cons he' hes'⟩

theorem on_entries (h : ∀ e ∈ es, Ends item R e.2) (rounds : Nat) :
    On (entries (entry item) rounds true []) (entryChars es ++ '}' :: rest) fun all left =>
      left = rest ∧ List.Forall₂ (ReadFor R) es all.reverse := by
  cases rounds with
  | zero => exact .throw _
  | succ rounds =>
    cases es with
    | nil =>
      rw [entries]
      exact .step (hasEntry_end true rest) (.step (a := ()) rfl (.pure ⟨rfl, .nil⟩))
    | cons e es =>
      have hmore : hasEntry true (entryChars (e :: es) ++ '}' :: rest) =
          .ok (true, quote e.1 ++ ':' :: (e.2.chars ++ (entryTail es ++ '}' :: rest))) := by
        simp only [entryChars_cons e.1, quote, List.cons_append, List.append_assoc]
        exact hasEntry_first _
      refine on_entries_cons hmore (closed_entryTail es rest) (h e (.head _)) fun e' he' => ?_
      intro all left hread
      obtain ⟨rfl, es', hall, hes'⟩ :=
        on_entries_tail (fun e he => h e (.tail _ he)) rounds [e'] all left hread
      exact ⟨rfl, hall ▸ List.Forall₂.cons he' hes'⟩

end Entries

def SameString (v w : Json) : Prop := ∀ s, v = .str s → w = .str s

theorem sameString_of_not_str {v w : Json} (h : v.str? = none) : SameString v w := by
  rintro s rfl
  cases h

/-- What a value is read as where there is some room: as a string if it is one, and only if it nests
no deeper than that. -/
structure ReadWithin (depth : Nat) (v w : Json) : Prop where
  string : SameString v w
  nested : Nested depth v

theorem forall_nested_of_readFor {depth : Nat} {entries es : List (String × Json)}
    (h : List.Forall₂ (ReadFor (ReadWithin depth)) entries es) :
    ∀ e ∈ entries, Nested depth e.2 := by
  induction h with
  | nil => exact List.forall_mem_nil _
  | cons he _ ih => exact List.forall_mem_cons.2 ⟨he.2.nested, ih⟩

theorem on_value_tooDeep (rounds : Nat) {c : Char} (hc : c = '[' ∨ c = '{') (cs : List Char)
    {P : Json → List Char → Prop} : On (value false rounds 1) (c :: cs) P := by
  rw [value]
  rcases hc with rfl | rfl <;>
  · refine .step (next?_cons rfl cs) ?_
    dsimp only
    rw [inside, if_pos (Nat.le_refl 1)]
    exact .throw _

theorem on_value_obj {rounds depth : Nat} {R : Json → Json → Prop} {entries : List (String × Json)}
    (h : ∀ e ∈ entries, Ends (value false rounds (depth + 1)) R e.2) (rest : List Char) :
    On (value false rounds (depth + 2)) ((Json.obj entries).chars ++ rest) fun w left =>
      left = rest ∧ ∃ es, w = .ofEntries es ∧ List.Forall₂ (ReadFor R) entries es := by
  rw [chars, List.cons_append, List.append_assoc, List.singleton_append]
  refine .of_eq (value_obj false rounds depth _) (On.bind (on_entries h rounds) ?_)
  rintro es _ ⟨rfl, hes⟩
  exact .pure ⟨rfl, es.reverse, rfl, hes⟩

theorem value_word (rounds depth : Nat) {c : Char} {w : List Char} {v : Json}
    (hc : isSpace c = false ∧ c ≠ '[' ∧ c ≠ '{')
    (hscalar : scalar c = (do word (c :: w); return v)) (rest : List Char) :
    value false rounds (depth + 1) (c :: w ++ rest) = .ok (v, rest) := by
  rw [List.cons_append, value_scalar false rounds depth hc.1 hc.2.1 hc.2.2, hscalar]
  exact bind_ok (word_ok (c :: w) rest)

/-- **Reading ends where writing does.** A value that can be read from the front of a text is read
up to its end, as the string that it is if it is one, and nests no deeper than there is room. -/
theorem ends_value (rounds depth : Nat) (v : Json) :
    Ends (value false rounds depth) (ReadWithin depth) v := by
  induction depth generalizing v with
  | zero =>
    intro rest _
    rw [value]
    exact .throw _
  | succ depth ih =>
    intro rest hrest
    cases v with
    | null =>
      exact .ok (value_word rounds depth (by decide) rfl rest)
        ⟨rfl, sameString_of_not_str rfl, .null depth⟩
    | bool b =>
      have hbool : ReadWithin (depth + 1) (.bool b) (.bool b) :=
        ⟨sameString_of_not_str rfl, .bool depth b⟩
      cases b with
      | true => exact .ok (value_word rounds depth (by decide) rfl rest) ⟨rfl, hbool⟩
      | false => exact .ok (value_word rounds depth (by decide) rfl rest) ⟨rfl, hbool⟩
    | num n =>
      obtain ⟨c, cs, htext, hc⟩ := n.text_cons
      have hplain : isSpace c = false ∧ c ≠ '[' ∧ c ≠ '{' := by
        rcases hc with rfl | hc
        · decide
        · refine ⟨isSpace_of_isDigit hc, ?_, ?_⟩ <;> (rintro rfl; cases hc)
      have hread : value false rounds (depth + 1) (n.text ++ rest) = scalar c (n.text ++ rest) := by
        rw [htext]
        exact value_scalar false rounds depth hplain.1 hplain.2.1 hplain.2.2 _
      refine .of_eq hread fun w left h => ?_
      exact ⟨on_scalar_number n htext hrest w left h, sameString_of_not_str rfl, .num depth n⟩
    | str s =>
      have hquote : lift Literal.string (s.toList.flatMap escapeChar ++ '"' :: rest) =
          .ok (s, rest) := string_quoted s rest
      rw [chars, quote, List.cons_append, List.append_assoc, List.singleton_append]
      refine .of_eq (value_scalar false rounds depth rfl (by decide) (by decide) _) ?_
      refine .ok (map_ok (f := Json.str) hquote) ⟨rfl, ?_, .str depth s⟩
      rintro _ ⟨⟩
      rfl
    | arr items =>
      rw [chars, List.cons_append, List.append_assoc, List.singleton_append]
      cases depth with
      | zero => exact on_value_tooDeep rounds (.inl rfl) _
      | succ depth =>
        refine .of_eq (value_arr false rounds depth _) (On.bind (on_items (fun v _ => ih v) rounds) ?_)
        rintro ws _ ⟨rfl, hws⟩
        refine .pure ⟨rfl, sameString_of_not_str rfl, .arr fun v hv => ?_⟩
        obtain ⟨w, hw⟩ := hws v hv
        exact hw.nested
    | obj entries =>
      cases depth with
      | zero => exact on_value_tooDeep rounds (.inr rfl) _
      | succ depth =>
        intro w left hread
        obtain ⟨rfl, es, -, hes⟩ := on_value_obj (fun e _ => ih e.2) rest w left hread
        exact ⟨rfl, sameString_of_not_str rfl, .obj (forall_nested_of_readFor hes)⟩

end Reader

section Messages

variable {entries : List (String × Json)} {v : Json}

theorem binding?_of_readFor {depth : Nat} {es : List (String × Json)}
    (h : List.Forall₂ (Reader.ReadFor (Reader.ReadWithin depth)) entries es) {key s : String}
    (hs : binding? key entries = some (.str s)) : binding? key es = some (.str s) := by
  induction h with
  | nil => cases hs
  | cons he _ ih =>
    obtain ⟨hkey, hread⟩ := he
    rw [binding?_cons] at hs ⊢
    rw [← hkey]
    split at hs
    case isTrue hk => rw [if_pos hk, hread.string s (Option.some.inj hs)]
    case isFalse hk => rw [if_neg hk, ih hs]

theorem keys_of_readFor {R : Json → Json → Prop} {es : List (String × Json)}
    (h : List.Forall₂ (Reader.ReadFor R) entries es) : entries.map (·.1) = es.map (·.1) := by
  induction h with
  | nil => rfl
  | cons he _ ih => rw [List.map_cons, List.map_cons, he.1, ih]

theorem exists_value_of_parse {w : Json} (h : parse w.text = .ok v) :
    ∃ left, Reader.value false (w.chars.length + 1) 128 w.chars = .ok (v, left) := by
  rw [parse, Reader.run, text, String.toList_ofList] at h
  dsimp only at h
  cases hread : Reader.value false (w.chars.length + 1) 128 w.chars with
  | error fault =>
    rw [hread] at h
    cases h
  | ok r =>
    rw [hread] at h
    simp only [bind, Except.bind] at h
    split at h
    case isTrue => exact ⟨r.2, by cases h; rfl⟩
    case isFalse => cases h

theorem nested_of_parse {w : Json} (h : parse w.text = .ok v) : Nested 128 w := by
  obtain ⟨left, hread⟩ := exists_value_of_parse h
  rw [← List.append_nil w.chars] at hread
  exact (Reader.ends_value _ 128 w [] trivial v left hread).2.nested

/-- The text of an object that can be read holds the strings that it was written with. -/
theorem field?_of_parse (hkeys : (entries.map (·.1)).Nodup)
    (hparse : parse (Json.obj entries).text = .ok v) {key s : String}
    (hs : binding? key entries = some (.str s)) : v.field? key = some (.str s) := by
  obtain ⟨left, hread⟩ := exists_value_of_parse hparse
  rw [← List.append_nil (Json.obj entries).chars] at hread
  obtain ⟨-, es, rfl, hes⟩ :=
    Reader.on_value_obj (fun e _ => Reader.ends_value _ _ e.2) [] v left hread
  have hnodup : (es.map (·.1)).Nodup := keys_of_readFor hes ▸ hkeys
  have hfield : Json.field? key (.ofEntries es) = (SortedMap.ofList es).find? key := rfl
  rw [hfield, SortedMap.find?_ofList, binding?_reverse hnodup, binding?_of_readFor hes hs]

end Messages

end DocCompiler.Json
