import DocCompiler.Proofs.Json.ReadBack

/-! Compact text marks its own end. How a value begins tells its kind, the text of a number holds
nothing that could stand behind it, and a string ends at the first quote that is not escaped; so a
text that goes on with something that ends a value is cut behind the value in one way only. No
control character occurs in it. -/

namespace DocCompiler.Json

section Numbers

def isNumberChar (c : Char) : Bool := c.isDigit || c == '-' || c == '+' || c == '.' || c == 'e'

theorem isNumberChar_of_isDigit {c : Char} (h : c.isDigit = true) : isNumberChar c = true := by
  simp [isNumberChar, h]

/-- A text that begins with a digit and is written with the characters of numbers. -/
def Numeral (cs : List Char) : Prop :=
  (∃ c rest, cs = c :: rest ∧ c.isDigit = true) ∧ ∀ c ∈ cs, isNumberChar c = true

theorem isNumberChar_of_mem_toDigits {n : Nat} {c : Char} (h : c ∈ Nat.toDigits 10 n) :
    isNumberChar c = true :=
  isNumberChar_of_isDigit (Nat.isDigit_of_mem_toDigits (by decide) (by decide) h)

theorem isNumberChar_of_mem_replicate {n : Nat} {c : Char} (h : c ∈ List.replicate n '0') :
    isNumberChar c = true :=
  List.eq_of_mem_replicate h ▸ rfl

theorem numeral_toDigits (n : Nat) : Numeral (Nat.toDigits 10 n) := by
  obtain ⟨d, ds, hcons, hd, -⟩ := toDigits_cons n
  exact ⟨⟨d, ds, hcons, hd⟩, fun _ => isNumberChar_of_mem_toDigits⟩

theorem Numeral.positional {ds : List Char} (h : Numeral ds) (point : Int) :
    Numeral (Decimal.positional ds point) := by
  obtain ⟨⟨d, rest, rfl, hd⟩, hall⟩ := h
  rw [Decimal.positional]
  split
  · refine ⟨⟨'0', _, rfl, rfl⟩, fun c hc => ?_⟩
    simp only [List.cons_append, List.mem_cons, List.mem_append] at hc
    rcases hc with rfl | rfl | hc | hc
    · rfl
    · rfl
    · exact isNumberChar_of_mem_replicate hc
    · exact hall c (List.mem_cons.2 hc)
  · obtain ⟨n, hn⟩ : ∃ n, point.toNat = n + 1 := ⟨point.toNat - 1, by omega⟩
    rw [hn]
    refine ⟨⟨d, _, rfl, hd⟩, fun c hc => ?_⟩
    rcases List.mem_append.1 hc with hc | hc
    · rcases List.mem_append.1 hc with hc | hc
      · exact hall c (List.mem_of_mem_take hc)
      · exact isNumberChar_of_mem_replicate hc
    · rcases List.mem_cons.1 hc with rfl | hc
      · rfl
      · split at hc
        · exact List.mem_singleton.1 hc ▸ rfl
        · exact hall c (List.mem_of_mem_drop hc)

theorem Numeral.scientific {ds : List Char} (h : Numeral ds) (exponent : Int) :
    Numeral (Decimal.scientific ds exponent) := by
  obtain ⟨⟨d, rest, rfl, hd⟩, hall⟩ := h
  have hsign : isNumberChar (if exponent < 0 then '-' else '+') = true := by split <;> rfl
  have hbehind : ∀ c ∈ 'e' :: (if exponent < 0 then '-' else '+') ::
      Nat.toDigits 10 exponent.natAbs, isNumberChar c = true := by
    intro c hc
    simp only [List.mem_cons] at hc
    rcases hc with rfl | rfl | hc
    · rfl
    · exact hsign
    · exact isNumberChar_of_mem_toDigits hc
  cases rest with
  | nil =>
    refine ⟨⟨d, _, rfl, hd⟩, fun c hc => ?_⟩
    rcases List.mem_cons.1 hc with rfl | hc
    · exact hall c (.head _)
    · exact hbehind c hc
  | cons d' rest =>
    refine ⟨⟨d, _, rfl, hd⟩, fun c hc => ?_⟩
    rcases List.mem_append.1 hc with hc | hc
    · simp only [List.mem_cons] at hc
      rcases hc with rfl | rfl | hc
      · exact hall c (.head _)
      · rfl
      · exact hall c (.tail _ (List.mem_cons.2 hc))
    · exact hbehind c hc

theorem numeral_decimal (d : Decimal) : Numeral d.text := by
  rw [Decimal.text]
  split
  · exact (numeral_toDigits _).positional _
  · exact (numeral_toDigits _).scientific _

theorem Number.text_eq (n : Number) : ∃ cs, Numeral cs ∧ (n.text = cs ∨ n.text = '-' :: cs) := by
  cases n with
  | int n =>
    refine ⟨Nat.toDigits 10 n.natAbs, numeral_toDigits _, ?_⟩
    rw [Number.text]
    by_cases hneg : n < 0 <;> simp [hneg]
  | float x =>
    have hzero : Numeral ['0', '.', '0'] := ⟨⟨'0', ['.', '0'], rfl, rfl⟩, List.all_eq_true.1 rfl⟩
    refine ⟨if x.magnitude = 0 then ['0', '.', '0'] else (Decimal.shortest x.magnitude).text, ?_, ?_⟩
    · split
      · exact hzero
      · exact numeral_decimal _
    · rw [Number.text, Binary64.text]
      by_cases hneg : x.negative = true <;> simp [hneg]

theorem Number.isNumberChar_of_mem (n : Number) {c : Char} (h : c ∈ n.text) :
    isNumberChar c = true := by
  obtain ⟨cs, ⟨-, hall⟩, htext | htext⟩ := n.text_eq <;> rw [htext] at h
  · exact hall c h
  · rcases List.mem_cons.1 h with rfl | h
    · rfl
    · exact hall c h

theorem Number.text_cons (n : Number) :
    ∃ c cs, n.text = c :: cs ∧ (c = '-' ∨ c.isDigit = true) := by
  obtain ⟨cs, ⟨⟨d, rest, rfl, hd⟩, -⟩, htext | htext⟩ := n.text_eq
  · exact ⟨d, rest, htext, .inr hd⟩
  · exact ⟨'-', d :: rest, htext, .inl rfl⟩

theorem Number.takeWhile_text (n : Number) {rest : List Char} (h : Closed rest) :
    (n.text ++ rest).takeWhile isNumberChar = n.text := by
  have hrest : rest.takeWhile isNumberChar = [] := by
    cases rest with
    | nil => rfl
    | cons c rest => rcases h with rfl | rfl | rfl <;> rfl
  rw [List.takeWhile_append_of_pos fun c hc => n.isNumberChar_of_mem hc, hrest, List.append_nil]

theorem Number.text_append_inj {m n : Number} {r r' : List Char} (hr : Closed r) (hr' : Closed r')
    (h : m.text ++ r = n.text ++ r') : m.text = n.text ∧ r = r' := by
  have htext : m.text = n.text := by rw [← m.takeWhile_text hr, h, n.takeWhile_text hr']
  rw [htext] at h
  exact ⟨htext, List.append_cancel_left h⟩

end Numbers

theorem quote_append_inj {s t : String} {r r' : List Char} (h : quote s ++ r = quote t ++ r') :
    s = t ∧ r = r' := by
  have hread := Reader.key_quote s r
  rw [h, Reader.key_quote] at hread
  cases hread
  exact ⟨rfl, rfl⟩

section Kinds

/-- The character that a value begins with; `0` for all that numbers begin with. -/
def opening : Json → Char
  | .null => 'n'
  | .bool true => 't'
  | .bool false => 'f'
  | .num _ => '0'
  | .str _ => '"'
  | .arr _ => '['
  | .obj _ => '{'

theorem chars_cons (v : Json) :
    ∃ c cs, v.chars = c :: cs ∧ (if c = '-' ∨ c.isDigit then '0' else c) = v.opening := by
  cases v with
  | num n =>
    obtain ⟨c, cs, htext, hc⟩ := n.text_cons
    exact ⟨c, cs, htext, if_pos hc⟩
  | bool b => cases b <;> exact ⟨_, _, rfl, rfl⟩
  | null | str | arr | obj => exact ⟨_, _, rfl, rfl⟩

theorem opening_eq {v w : Json} {r r' : List Char} (h : v.chars ++ r = w.chars ++ r') :
    v.opening = w.opening := by
  obtain ⟨c, cs, hv, hc⟩ := v.chars_cons
  obtain ⟨d, ds, hw, hd⟩ := w.chars_cons
  rw [hv, hw] at h
  rw [← hc, ← hd, (List.cons.inj h).1]

@[simp] theorem opening_canonical (v : Json) : v.canonical.opening = v.opening := by
  cases v with
  | bool b => cases b <;> rfl
  | null | num | str | arr | obj => rfl

end Kinds

section Separated

variable {α β : Type}

def separated (f : α → List Char) : List α → List Char
  | [] => []
  | a :: rest => f a ++ rest.flatMap fun b => ',' :: f b

theorem separated_map (f : β → List Char) (g : α → β) (l : List α) :
    separated f (l.map g) = separated (fun a => f (g a)) l := by
  cases l with
  | nil => rfl
  | cons a rest => rw [List.map_cons, separated, separated, List.flatMap_map]

theorem mem_separated {f : α → List Char} {l : List α} {c : Char} (h : c ∈ separated f l) :
    c = ',' ∨ ∃ a ∈ l, c ∈ f a := by
  cases l with
  | nil => cases h
  | cons a rest =>
    rcases List.mem_append.1 h with h | h
    · exact .inr ⟨a, .head _, h⟩
    · obtain ⟨b, hb, h⟩ := List.mem_flatMap.1 h
      rcases List.mem_cons.1 h with h | h
      · exact .inl h
      · exact .inr ⟨b, .tail _ hb, h⟩

theorem closed_flatMap (f : α → List Char) (l : List α) {r : List Char} (hr : Closed r) :
    Closed ((l.flatMap fun a => ',' :: f a) ++ r) := by
  cases l with
  | nil => exact hr
  | cons a rest => exact .inl rfl

/-- Whether `f` writes `a` in such a way that its end can be told and what `g` writes alike is
related to it. -/
def Delimits (f : α → List Char) (g : β → List Char) (R : α → β → Prop) (a : α) (b : β) : Prop :=
  ∀ {r r' : List Char}, Closed r → Closed r' → f a ++ r = g b ++ r' → R a b ∧ r = r'

variable {f : α → List Char} {g : β → List Char} {R : α → β → Prop}

theorem flatMap_append_inj {l : List α} {m : List β} (h : ∀ a ∈ l, ∀ b ∈ m, Delimits f g R a b)
    {close : Char} (hclose : close = ']' ∨ close = '}') {r r' : List Char}
    (heq : (l.flatMap fun a => ',' :: f a) ++ close :: r =
      (m.flatMap fun b => ',' :: g b) ++ close :: r') :
    List.Forall₂ R l m ∧ r = r' := by
  have hcomma : close ≠ ',' := by rcases hclose with rfl | rfl <;> decide
  have hclosed (r : List Char) : Closed (close :: r) := .inr hclose
  -- a comma or the closing bracket tells whether one more part follows
  induction l generalizing m with
  | nil =>
    cases m with
    | nil => exact ⟨.nil, (List.cons.inj heq).2⟩
    | cons b m => exact absurd (List.cons.inj heq).1 hcomma
  | cons a l ih =>
    cases m with
    | nil => exact absurd (List.cons.inj heq).1.symm hcomma
    | cons b m =>
      simp only [List.flatMap_cons, List.cons_append, List.append_assoc, List.cons.injEq,
        true_and] at heq
      obtain ⟨hab, heq⟩ := h a (.head _) b (.head _) (closed_flatMap f l (hclosed r))
        (closed_flatMap g m (hclosed r')) heq
      obtain ⟨hlm, hr⟩ := ih (fun a ha b hb => h a (.tail _ ha) b (.tail _ hb)) heq
      exact ⟨.cons hab hlm, hr⟩

def Opens (cs : List Char) : Prop := ∃ c rest, cs = c :: rest ∧ c ≠ ']' ∧ c ≠ '}'

theorem Opens.append_ne {cs : List Char} (h : Opens cs) {close : Char}
    (hclose : close = ']' ∨ close = '}') {r r' : List Char} : cs ++ r ≠ close :: r' := by
  obtain ⟨c, rest, rfl, hlist, hobject⟩ := h
  intro heq
  have hc : c = close := (List.cons.inj heq).1
  rcases hclose with rfl | rfl
  · exact hlist hc
  · exact hobject hc

/-- What stands between two brackets is told apart if each part of it is. -/
theorem separated_append_inj {l : List α} {m : List β} (h : ∀ a ∈ l, ∀ b ∈ m, Delimits f g R a b)
    (hf : ∀ a ∈ l, Opens (f a)) (hg : ∀ b ∈ m, Opens (g b)) {close : Char}
    (hclose : close = ']' ∨ close = '}') {r r' : List Char}
    (heq : separated f l ++ close :: r = separated g m ++ close :: r') :
    List.Forall₂ R l m ∧ r = r' := by
  have hclosed (r : List Char) : Closed (close :: r) := .inr hclose
  cases l with
  | nil =>
    cases m with
    | nil => exact ⟨.nil, (List.cons.inj heq).2⟩
    | cons b m =>
      rw [separated, separated, List.append_assoc] at heq
      exact absurd heq.symm ((hg b (.head _)).append_ne hclose)
  | cons a l =>
    cases m with
    | nil =>
      rw [separated, separated, List.append_assoc] at heq
      exact absurd heq ((hf a (.head _)).append_ne hclose)
    | cons b m =>
      rw [separated, separated, List.append_assoc, List.append_assoc] at heq
      obtain ⟨hab, heq⟩ := h a (.head _) b (.head _) (closed_flatMap f l (hclosed r))
        (closed_flatMap g m (hclosed r')) heq
      obtain ⟨hlm, hr⟩ := flatMap_append_inj
        (fun a ha b hb => h a (.tail _ ha) b (.tail _ hb)) hclose heq
      exact ⟨.cons hab hlm, hr⟩

end Separated

theorem itemChars_eq (items : List Json) : itemChars items = separated chars items := by
  cases items with
  | nil => rfl
  | cons v rest => rw [itemChars_cons, itemTail_eq, separated]

def entryText (e : String × Json) : List Char := quote e.1 ++ ':' :: e.2.chars

theorem entryChars_eq (entries : List (String × Json)) :
    entryChars entries = separated entryText entries := by
  cases entries with
  | nil => rfl
  | cons e rest => rw [entryChars_cons, entryTail_eq, separated]; simp [entryText]

theorem opens_chars (v : Json) : Opens v.chars := by
  obtain ⟨c, cs, hchars, hc⟩ := v.chars_cons
  refine ⟨c, cs, hchars, ?_, ?_⟩ <;>
  · rintro rfl
    cases v with
    | bool b => cases b <;> cases hc
    | null | num | str | arr | obj => cases hc

theorem opens_entryText (e : String × Json) : Opens (entryText e) :=
  ⟨'"', _, rfl, by decide, by decide⟩

section Controls

def Plain (c : Char) : Prop := 0x20 ≤ c.toNat

instance (c : Char) : Decidable (Plain c) := inferInstanceAs (Decidable (_ ≤ _))

theorem plain_of_isNumberChar {c : Char} (h : isNumberChar c = true) : Plain c := by
  simp only [isNumberChar, Bool.or_eq_true, beq_iff_eq] at h
  rcases h with (((h | rfl) | rfl) | rfl) | rfl
  · have hlow : 48 ≤ c.toNat := by
      simp only [Char.isDigit, Bool.and_eq_true, decide_eq_true_eq] at h
      exact h.1
    exact Nat.le_trans (by decide) hlow
  all_goals decide

theorem plain_hexDigit (n : Fin 16) : Plain (hexDigit n) := by
  revert n
  decide

theorem plain_escapeChar (c : Char) : ∀ d ∈ escapeChar c, Plain d := by
  unfold escapeChar
  iterate 7
    split
    case isTrue => simp [Plain]
  split
  case isTrue hcontrol =>
    have hhigh : Plain (hexDigit (c.toNat / 16)) := plain_hexDigit ⟨c.toNat / 16, by omega⟩
    have hlow : Plain (hexDigit (c.toNat % 16)) := plain_hexDigit ⟨c.toNat % 16, by omega⟩
    simp only [List.forall_mem_cons]
    exact ⟨by decide, by decide, by decide, by decide, hhigh, hlow, nofun⟩
  case isFalse hplain =>
    intro d hd
    rw [List.mem_singleton.1 hd]
    exact Nat.le_of_not_lt hplain

theorem plain_quote (s : String) : ∀ c ∈ quote s, Plain c := by
  intro c hc
  rcases List.mem_cons.1 hc with rfl | hc
  · decide
  · rcases List.mem_append.1 hc with hc | hc
    · obtain ⟨d, -, hc⟩ := List.mem_flatMap.1 hc
      exact plain_escapeChar d c hc
    · exact List.mem_singleton.1 hc ▸ by decide

/-- Compact text holds no control character, and so no line break. -/
theorem plain_chars (v : Json) : ∀ c ∈ v.chars, Plain c := by
  induction v using induction with
  | null => simp [chars, Plain]
  | bool b => cases b <;> simp [chars, Plain]
  | num n => exact fun c hc => plain_of_isNumberChar (n.isNumberChar_of_mem hc)
  | str s => exact plain_quote s
  | arr items ih =>
    intro c hc
    simp only [chars, itemChars_eq, List.mem_cons, List.mem_append, List.not_mem_nil,
      or_false] at hc
    rcases hc with rfl | hc | rfl
    · decide
    · rcases mem_separated hc with rfl | ⟨v, hv, hc⟩
      · decide
      · exact ih v hv c hc
    · decide
  | obj entries ih =>
    intro c hc
    simp only [chars, entryChars_eq, List.mem_cons, List.mem_append, List.not_mem_nil,
      or_false] at hc
    rcases hc with rfl | hc | rfl
    · decide
    · rcases mem_separated hc with rfl | ⟨e, he, hc⟩
      · decide
      · rcases List.mem_append.1 hc with hc | hc
        · exact plain_quote e.1 c hc
        · rcases List.mem_cons.1 hc with rfl | hc
          · decide
          · exact ih e he c hc
    · decide

end Controls

end DocCompiler.Json
