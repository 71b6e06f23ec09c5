import DocCompiler.Proofs.Text.Pieces
import DocCompiler.Transclusion.Token

/-! The grammar of transclusion tokens: how a token may be spelt, and what a spelling says. The
recogniser finds a token at the front of a text if and only if the text begins with a spelling
of it. -/

namespace DocCompiler.Transclusion

/-- Decimal digits, at least one, and the number they denote. -/
inductive Numeral : List Char → Nat → Prop where
  | digit {c : Char} (hc : c.isDigit = true) : Numeral [c] (c.toNat - '0'.toNat)
  | append {cs : List Char} {n : Nat} {c : Char} (h : Numeral cs n) (hc : c.isDigit = true) :
    Numeral (cs ++ [c]) (10 * n + (c.toNat - '0'.toNat))

theorem numeral_iff {cs : List Char} {n : Nat} :
    Numeral cs n ↔ cs ≠ [] ∧ (∀ c ∈ cs, c.isDigit = true) ∧ Nat.ofDigitChars 10 cs 0 = n := by
  constructor
  · intro h
    induction h with
    | digit hc => exact ⟨nofun, List.forall_mem_singleton.2 hc, by simp [Nat.ofDigitChars]⟩
    | append _ hc ih =>
      obtain ⟨-, hall, rfl⟩ := ih
      refine ⟨by simp, List.forall_mem_append.2 ⟨hall, List.forall_mem_singleton.2 hc⟩, ?_⟩
      rw [Nat.ofDigitChars_append]
      simp [Nat.ofDigitChars]
  · rintro ⟨hne, hall, rfl⟩
    induction cs using List.reverseRecOn with
    | nil => exact absurd rfl hne
    | append_singleton cs c ih =>
      obtain ⟨hcs, hc⟩ := List.forall_mem_append.1 hall
      have hc := List.forall_mem_singleton.1 hc
      by_cases hempty : cs = []
      · subst hempty
        simpa [Nat.ofDigitChars] using Numeral.digit hc
      · have := Numeral.append (ih hempty hcs) hc
        rw [Nat.ofDigitChars_append]
        simpa [Nat.ofDigitChars] using this

namespace RevisionSpec

/-- The characters behind an `@` pin a revision: they are a numeral for it, perhaps after a plus
sign. -/
def Pins (cs : List Char) (rev : UInt32) : Prop :=
  ∃ digits, (cs = digits ∨ cs = '+' :: digits) ∧ Numeral digits rev.toNat

variable {cs : List Char} {rev : UInt32}

def unsigned : List Char → List Char
  | '+' :: rest => rest
  | cs => cs

theorem pins_iff : Pins cs rev ↔ Numeral (unsigned cs) rev.toNat := by
  constructor
  · rintro ⟨digits, rfl | rfl, hdigits⟩
    · -- a plus sign is no digit
      unfold unsigned
      split
      case h_1 rest => exact absurd ((numeral_iff.1 hdigits).2.1 '+' (.head _)) (by decide)
      case h_2 => exact hdigits
    · exact hdigits
  · intro h
    unfold unsigned at h
    split at h
    case h_1 rest => exact ⟨rest, .inr rfl, h⟩
    case h_2 => exact ⟨cs, .inl rfl, h⟩

theorem ofChars_eq (cs : List Char) : ofChars cs =
    if unsigned cs ≠ [] ∧ (unsigned cs).all Char.isDigit = true ∧
      Nat.ofDigitChars 10 (unsigned cs) 0 < UInt32.size then
      .pinned (.ofNat (Nat.ofDigitChars 10 (unsigned cs) 0))
    else .invalid (String.ofList cs) := by
  unfold ofChars unsigned
  split <;> simp [and_assoc]

theorem ofChars_of_pins (h : Pins cs rev) : ofChars cs = .pinned rev := by
  obtain ⟨hne, hall, hvalue⟩ := numeral_iff.1 (pins_iff.1 h)
  have hlt : Nat.ofDigitChars 10 (unsigned cs) 0 < UInt32.size := hvalue ▸ rev.toNat_lt
  rw [ofChars_eq, if_pos ⟨hne, List.all_eq_true.2 hall, hlt⟩, hvalue, UInt32.ofNat_toNat]

theorem ofChars_of_not_pins (h : ∀ rev, ¬ Pins cs rev) :
    ofChars cs = .invalid (String.ofList cs) := by
  rw [ofChars_eq, if_neg]
  rintro ⟨hne, hall, hlt⟩
  refine h (.ofNat (Nat.ofDigitChars 10 (unsigned cs) 0))
    (pins_iff.2 (numeral_iff.2 ⟨hne, List.all_eq_true.1 hall, ?_⟩))
  rw [UInt32.toNat_ofNat_of_lt' hlt]

/-- What a token says by what it writes behind its `@`, if it has one. -/
inductive Says : Option (List Char) → Option RevisionSpec → Prop where
  | absent : Says none none
  | pinned {cs : List Char} {rev : UInt32} (h : Pins cs rev) : Says (some cs) (some (.pinned rev))
  | invalid {cs : List Char} (h : ∀ rev, ¬ Pins cs rev) :
    Says (some cs) (some (.invalid (String.ofList cs)))

theorem says_iff {pin : Option (List Char)} {revision : Option RevisionSpec} :
    Says pin revision ↔ revision = pin.map ofChars := by
  constructor
  · intro h
    cases h with
    | absent => rfl
    | pinned h => rw [Option.map_some, ofChars_of_pins h]
    | invalid h => rw [Option.map_some, ofChars_of_not_pins h]
  · rintro rfl
    cases pin with
    | none => exact .absent
    | some cs =>
      by_cases h : ∃ rev, Pins cs rev
      · obtain ⟨rev, h⟩ := h
        rw [Option.map_some, ofChars_of_pins h]
        exact .pinned h
      · rw [not_exists] at h
        rw [Option.map_some, ofChars_of_not_pins h]
        exact .invalid h

end RevisionSpec

/-- The parts of a token as it is written: blanks, an identifier, what stands behind an `@` if
there is one, and blanks again. -/
structure Spelling where
  blanks : List Char
  identifier : List Char
  pin : Option (List Char)
  moreBlanks : List Char
  blank : ∀ c ∈ blanks ++ moreBlanks, Text.isBlank c = true
  named : identifier ≠ []
  identifier_chars : ∀ c ∈ identifier, Text.isBlank c = false ∧ c ∉ ['{', '}', '@']
  pin_chars : ∀ cs ∈ pin, ∀ c ∈ cs, Text.isBlank c = false ∧ c ∉ ['{', '}']

namespace Spelling

def pinChars : Option (List Char) → List Char
  | none => []
  | some cs => '@' :: cs

def inner (s : Spelling) : List Char :=
  s.blanks ++ (s.identifier ++ (pinChars s.pin ++ s.moreBlanks))

def chars (s : Spelling) : List Char := '{' :: '{' :: '>' :: (s.inner ++ ['}', '}'])

theorem brace_not_mem_inner (s : Spelling) : '{' ∉ s.inner := by
  have hblank : Text.isBlank '{' = false := by decide
  obtain ⟨hblanks, hmore⟩ := List.forall_mem_append.1 s.blank
  rw [inner, List.mem_append, List.mem_append, List.mem_append]
  rintro (h | h | h | h)
  · exact Bool.noConfusion (hblank.symm.trans (hblanks _ h))
  · exact (s.identifier_chars _ h).2 (by decide)
  · cases hpin : s.pin with
    | none => rw [hpin] at h; cases h
    | some cs =>
      rw [hpin] at h
      exact (s.pin_chars cs hpin _ ((List.mem_cons.1 h).resolve_left (by decide))).2 (by decide)
  · exact Bool.noConfusion (hblank.symm.trans (hmore _ h))

structure Spells (s : Spelling) (t : Token) : Prop where
  source : t.source.toList = s.chars
  identifier : t.identifier.toList = s.identifier
  revision : RevisionSpec.Says s.pin t.revision

end Spelling

namespace Token

section Cut

variable {p : Char → Bool} {c : Char} {cs run rest : List Char}

theorem forall_mem_takeWhile (hrun : cs.takeWhile p = run) : ∀ c ∈ run, p c = true := by
  intro c hc
  rw [← hrun] at hc
  exact List.all_eq_true.1 List.all_takeWhile c hc

theorem eq_append_of_takeWhile (hrun : cs.takeWhile p = run) (hrest : cs.drop run.length = rest) :
    cs = run ++ rest := by
  subst hrun hrest
  exact (List.prefix_iff_eq_append.1 (List.takeWhile_prefix p)).symm

theorem takeWhile_run (hrun : ∀ c ∈ run, p c = true) (hrest : ∀ c ∈ rest.head?, p c = false) :
    (run ++ rest).takeWhile p = run := by
  rw [List.takeWhile_append_of_pos hrun]
  cases rest with
  | nil => exact List.append_nil run
  | cons c rest => rw [List.takeWhile_cons_of_neg (by simp [hrest c rfl]), List.append_nil]

end Cut

theorem isIdentifierChar_iff {c : Char} :
    isIdentifierChar c = true ↔ Text.isBlank c = false ∧ c ∉ ['{', '}', '@'] := by
  simp [isIdentifierChar, and_assoc]

theorem isRevisionChar_iff {c : Char} :
    isRevisionChar c = true ↔ Text.isBlank c = false ∧ c ∉ ['{', '}'] := by
  simp [isRevisionChar, and_assoc]

theorem head_moreBlanks (s : Spelling) (after : List Char) :
    ∀ c ∈ (s.moreBlanks ++ '}' :: '}' :: after).head?, Text.isBlank c = true ∨ c = '}' := by
  intro c hc
  have hblank := (List.forall_mem_append.1 s.blank).2
  cases hmore : s.moreBlanks with
  | nil =>
    rw [hmore] at hc
    exact .inr (Option.some.inj hc).symm
  | cons d more =>
    rw [hmore] at hc
    obtain rfl : d = c := Option.some.inj hc
    exact .inl (hblank d (hmore ▸ .head _))

section Parts

variable (s : Spelling) {ends : List Char}

theorem takeWhile_blanks (rest : List Char) :
    (s.blanks ++ (s.identifier ++ rest)).takeWhile Text.isBlank = s.blanks := by
  refine takeWhile_run (List.forall_mem_append.1 s.blank).1 fun c hc => ?_
  obtain ⟨d, name, hname⟩ := List.exists_cons_of_ne_nil s.named
  rw [hname] at hc
  obtain rfl : d = c := Option.some.inj hc
  exact (s.identifier_chars d (hname ▸ .head _)).1

theorem takeWhile_identifier (hends : ∀ c ∈ ends.head?, Text.isBlank c = true ∨ c = '}') :
    (s.identifier ++ (Spelling.pinChars s.pin ++ ends)).takeWhile isIdentifierChar =
      s.identifier := by
  refine takeWhile_run (fun c hc => isIdentifierChar_iff.2 (s.identifier_chars c hc)) fun c hc => ?_
  cases hpin : s.pin with
  | none =>
    rw [hpin] at hc
    rcases hends c hc with hblank | rfl
    · simp [isIdentifierChar, hblank]
    · rfl
  | some cs =>
    rw [hpin] at hc
    obtain rfl := Option.some.inj hc
    rfl

theorem revisionPart_pinChars (hends : ∀ c ∈ ends.head?, Text.isBlank c = true ∨ c = '}') :
    revisionPart (Spelling.pinChars s.pin ++ ends) = s.pin := by
  cases hpin : s.pin with
  | none =>
    unfold revisionPart
    split
    case h_1 cs heq =>
      have hat := hends '@' (by rw [← List.nil_append ends]; exact congrArg List.head? heq)
      exact absurd hat (by decide)
    case h_2 => rfl
  | some cs =>
    refine congrArg some (takeWhile_run (fun c hc => ?_) fun c hc => ?_)
    · exact isRevisionChar_iff.2 (s.pin_chars cs hpin c hc)
    · rcases hends c hc with hblank | rfl
      · simp [isRevisionChar, hblank]
      · rfl

theorem takeWhile_moreBlanks (after : List Char) :
    (s.moreBlanks ++ '}' :: '}' :: after).takeWhile Text.isBlank = s.moreBlanks := by
  refine takeWhile_run (List.forall_mem_append.1 s.blank).2 fun c hc => ?_
  obtain rfl := Option.some.inj hc
  rfl

theorem pinSize_eq (pin : Option (List Char)) :
    (pin.map (·.length + 1)).getD 0 = (Spelling.pinChars pin).length := by
  cases pin <;> rfl

theorem length_chars : s.chars.length = 3 + s.blanks.length + s.identifier.length +
    (Spelling.pinChars s.pin).length + s.moreBlanks.length + 2 := by
  simp only [Spelling.chars, Spelling.inner, List.length_cons, List.length_append, List.length_nil]
  omega

end Parts

/-- The recogniser reads a spelling part by part: no part goes on in the next one. -/
theorem recognise_chars (s : Spelling) (after : List Char) :
    recognise (s.chars ++ after) = some (⟨String.ofList s.chars, String.ofList s.identifier,
      s.pin.map RevisionSpec.ofChars⟩, s.chars.length) := by
  have hends := head_moreBlanks s after
  have hlast := takeWhile_moreBlanks s after
  have hclosing : (s.moreBlanks ++ '}' :: '}' :: after).drop s.moreBlanks.length =
      '}' :: '}' :: after := List.drop_left
  have hchars : s.chars ++ after = '{' :: '{' :: '>' :: (s.blanks ++ (s.identifier ++
      (Spelling.pinChars s.pin ++ (s.moreBlanks ++ '}' :: '}' :: after)))) := by
    simp [Spelling.chars, Spelling.inner]
  generalize s.moreBlanks ++ '}' :: '}' :: after = ends at *
  rw [hchars, recognise]
  simp only [takeWhile_blanks s, takeWhile_identifier s hends, revisionPart_pinChars s hends,
    List.drop_left, pinSize_eq, hlast, hclosing]
  rw [← length_chars s, ← hchars, List.take_left]
  obtain ⟨c, name, hcons⟩ := List.exists_cons_of_ne_nil s.named
  simp only [hcons]

theorem eq_pinChars_append {cs rest : List Char} {pin : Option (List Char)}
    (hpin : revisionPart cs = pin) (hrest : cs.drop ((pin.map (·.length + 1)).getD 0) = rest) :
    cs = Spelling.pinChars pin ++ rest ∧ ∀ run ∈ pin, ∀ c ∈ run, isRevisionChar c = true := by
  subst hpin hrest
  unfold revisionPart
  split
  case h_1 cs =>
    refine ⟨congrArg ('@' :: ·) (eq_append_of_takeWhile rfl rfl), ?_⟩
    rintro run ⟨⟩
    exact fun c => forall_mem_takeWhile rfl c
  case h_2 => exact ⟨rfl, nofun⟩

theorem exists_spelling_of_recognise {cs : List Char} {t : Token} {size : Nat}
    (h : recognise cs = some (t, size)) : ∃ s : Spelling, s.chars <+: cs := by
  unfold recognise at h
  split at h
  case h_2 => cases h
  case h_1 cs =>
    dsimp only at h
    generalize hblanks : cs.takeWhile Text.isBlank = blanks at h
    generalize hafterBlanks : cs.drop blanks.length = afterBlanks at h
    generalize hid : afterBlanks.takeWhile isIdentifierChar = identifier at h
    generalize hafterId : afterBlanks.drop identifier.length = afterIdentifier at h
    generalize hpin : revisionPart afterIdentifier = pin at h
    generalize hafterPin : afterIdentifier.drop ((pin.map (·.length + 1)).getD 0) = afterPin at h
    generalize hmore : afterPin.takeWhile Text.isBlank = moreBlanks at h
    generalize hclosing : afterPin.drop moreBlanks.length = closing at h
    obtain ⟨hpinRest, hpinChars⟩ := eq_pinChars_append hpin hafterPin
    split at h
    case h_2 => cases h
    case h_1 c name rest =>
      have hcs : cs = blanks ++ (c :: name ++ (Spelling.pinChars pin ++ (moreBlanks ++
          '}' :: '}' :: rest))) := by
        rw [eq_append_of_takeWhile hblanks hafterBlanks, eq_append_of_takeWhile hid hafterId,
          hpinRest, eq_append_of_takeWhile hmore hclosing]
      refine ⟨⟨blanks, c :: name, pin, moreBlanks, ?_, List.cons_ne_nil c name, ?_, ?_⟩, rest, ?_⟩
      · exact List.forall_mem_append.2 ⟨forall_mem_takeWhile hblanks, forall_mem_takeWhile hmore⟩
      · exact fun d hd => isIdentifierChar_iff.1 (forall_mem_takeWhile hid d hd)
      · exact fun run hrun d hd => isRevisionChar_iff.1 (hpinChars run hrun d hd)
      · simp [Spelling.chars, Spelling.inner, hcs]

/-- **The recogniser follows the grammar.** It finds a token at the front of a text, if and only
if the text begins with a spelling of that token, which it covers. -/
theorem recognise_eq_some_iff {cs : List Char} {t : Token} {size : Nat} :
    recognise cs = some (t, size) ↔
      ∃ s : Spelling, s.Spells t ∧ s.chars <+: cs ∧ size = s.chars.length := by
  constructor
  · intro h
    obtain ⟨s, after, rfl⟩ := exists_spelling_of_recognise h
    rw [recognise_chars, Option.some.injEq, Prod.mk.injEq] at h
    obtain ⟨rfl, rfl⟩ := h
    exact ⟨s, ⟨String.toList_ofList, String.toList_ofList, RevisionSpec.says_iff.2 rfl⟩,
      List.prefix_append _ _, rfl⟩
  · rintro ⟨s, hs, ⟨after, rfl⟩, rfl⟩
    obtain ⟨source, identifier, revision⟩ := t
    have hsource : String.ofList s.chars = source := by
      rw [← hs.source, String.ofList_toList]
    have hidentifier : String.ofList s.identifier = identifier := by
      rw [← hs.identifier, String.ofList_toList]
    have hrevision : revision = s.pin.map RevisionSpec.ofChars :=
      RevisionSpec.says_iff.1 hs.revision
    rw [recognise_chars, hsource, hidentifier, hrevision]

theorem mem_all {t : Token} {text : String} : t ∈ all text ↔ .found t ∈ pieces text := by
  rw [all, List.mem_filterMap]
  constructor
  · rintro ⟨p, hp, heq⟩
    cases p with
    | plain c => cases heq
    | found t' => exact Option.some.inj heq ▸ hp
  · exact fun ht => ⟨.found t, ht, rfl⟩

end Token
end DocCompiler.Transclusion
