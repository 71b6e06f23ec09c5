import DocCompiler.Proofs.Time.Calendar
import DocCompiler.Time.Timestamp

/-! The text of a point in time reads back as it. Only a leap second that does not end a minute is
written as the second that follows it. -/

namespace DocCompiler

section Results

variable {ε ε' α β : Type}

theorem bind_eq_ok {x : Except ε α} {f : α → Except ε β} {b : β} (h : x >>= f = .ok b) :
    ∃ a, x = .ok a ∧ f a = .ok b := by
  cases x with
  | ok a => exact ⟨a, rfl, h⟩
  | error e => cases h

theorem mapError_eq_ok {x : Except ε α} {f : ε → ε'} {a : α} (h : x.mapError f = .ok a) :
    x = .ok a := by
  cases x with
  | ok a' => exact congrArg Except.ok (Except.ok.inj h)
  | error e => cases h

end Results

namespace Time.Timestamp

def NoDigit : List Char → Prop
  | [] => True
  | c :: _ => c.isDigit = false

theorem isBlank_of_isDigit {c : Char} (h : c.isDigit = true) : Text.isBlank c = false := by
  simp only [Char.isDigit, ge_iff_le, Bool.and_eq_true, decide_eq_true_eq, UInt32.le_iff_toNat_le]
    at h
  have hlow : 48 ≤ c.toNat := h.1
  have hhigh : c.toNat ≤ 57 := h.2
  simp only [Text.isBlank, Bool.or_eq_false_iff, Bool.and_eq_false_iff, decide_eq_false_iff_not,
    beq_eq_false_iff_ne]
  omega

section Digits

variable {ds rest : List Char} {limit n : Nat}

theorem takeWhile_take (hds : ∀ d ∈ ds, d.isDigit = true) (hlen : ds.length ≤ limit)
    (hend : ds.length = limit ∨ NoDigit rest) :
    ((ds ++ rest).take limit).takeWhile Char.isDigit = ds := by
  induction ds generalizing limit with
  | nil =>
    rcases hend with rfl | hend
    · rfl
    · cases rest with
      | nil => simp
      | cons c rest =>
        have hc : c.isDigit = false := hend
        cases limit <;> simp [hc]
  | cons d ds ih =>
    cases limit with
    | zero => simp at hlen
    | succ limit =>
      have hrest := ih (fun d hd => hds d (.tail _ hd)) (Nat.le_of_succ_le_succ hlen)
        (hend.imp_left Nat.succ.inj)
      simp [hds d (.head _), hrest]

theorem digits_append (hds : ∀ d ∈ ds, d.isDigit = true) (hne : ds ≠ []) (hlen : ds.length ≤ limit)
    (hend : ds.length = limit ∨ NoDigit rest) (hsize : Nat.ofDigitChars 10 ds 0 < UInt64.size / 2) :
    digits limit (ds ++ rest) = .ok (Nat.ofDigitChars 10 ds 0, rest) := by
  obtain ⟨d, ds', rfl⟩ := List.exists_cons_of_ne_nil hne
  have htake := takeWhile_take hds hlen hend
  rw [List.cons_append] at htake ⊢
  simp only [digits, htake]
  rw [if_neg (by simp), if_neg (by omega), ← List.cons_append, List.drop_left]

theorem padded_digits (width n : Nat) : ∀ d ∈ padded width n, d.isDigit = true := by
  intro d hd
  rcases List.mem_append.1 hd with hd | hd
  · rw [List.eq_of_mem_replicate hd]
    rfl
  · exact Nat.isDigit_of_mem_toDigits (by decide) (by decide) hd

theorem padded_ne_nil (width n : Nat) : padded width n ≠ [] := by
  simp [padded]

theorem ofDigitChars_padded (width n : Nat) : Nat.ofDigitChars 10 (padded width n) 0 = n := by
  rw [padded, Nat.ofDigitChars_append, Nat.ofDigitChars_replicate_zero, Nat.mul_zero,
    Nat.ofDigitChars_ten_toDigits]

theorem length_padded {width : Nat} (hwidth : (Nat.toDigits 10 n).length ≤ width) :
    (padded width n).length = width := by
  simp only [padded, List.length_append, List.length_replicate]
  omega

theorem digits_padded (hlen : (padded limit n).length = limit) (hsize : n < UInt64.size / 2)
    (rest : List Char) : digits limit (padded limit n ++ rest) = .ok (n, rest) := by
  have hread : digits limit (padded limit n ++ rest) =
      .ok (Nat.ofDigitChars 10 (padded limit n) 0, rest) :=
    digits_append (padded_digits limit n) (padded_ne_nil limit n) (Nat.le_of_eq hlen) (.inl hlen)
      (by rwa [ofDigitChars_padded])
  rwa [ofDigitChars_padded] at hread

theorem trimStart_padded (width n : Nat) (rest : List Char) :
    Text.trimStart (padded width n ++ rest) = padded width n ++ rest := by
  obtain ⟨d, ds, hcons⟩ := List.exists_cons_of_ne_nil (padded_ne_nil width n)
  have hd : d.isDigit = true := padded_digits width n d (by rw [hcons]; exact .head _)
  rw [hcons, List.cons_append, Text.trimStart_cons (isBlank_of_isDigit hd)]

theorem field_padded (low high : Nat) {n : Nat} (hlow : low ≤ n) (hhigh : n ≤ high) (hbound : high < 100)
    (rest : List Char) : field low high (padded 2 n ++ rest) = .ok (n, rest) := by
  have hlen : (Nat.toDigits 10 n).length ≤ 2 :=
    (Nat.length_toDigits_le_iff (by decide) (by decide)).2 (by omega)
  have hsize : n < UInt64.size / 2 := Nat.lt_trans (by omega : n < 100) (by decide)
  have hread := digits_padded (length_padded hlen) hsize rest
  simp only [field, trimStart_padded, hread, bind, Except.bind]
  rw [if_pos ⟨hlow, hhigh⟩]

end Digits

theorem year_yearText {y : Int} (hlow : -262143 ≤ y) (hhigh : y ≤ 262142) (rest : List Char) :
    year (yearText y ++ '-' :: rest) = .ok (y, '-' :: rest) := by
  have hsize : y.natAbs < UInt64.size / 2 := Nat.lt_trans (by omega : y.natAbs < 262144) (by decide)
  have hbounds : -2147483648 ≤ y ∧ y ≤ 2147483647 := by omega
  by_cases hplain : 0 ≤ y ∧ y ≤ 9999
  · have hlen : (Nat.toDigits 10 y.toNat).length ≤ 4 :=
      (Nat.length_toDigits_le_iff (by decide) (by decide)).2 (by omega)
    have hread := digits_padded (length_padded hlen) (by omega) ('-' :: rest)
    have hcast : (y.toNat : Int) = y := by omega
    obtain ⟨d, ds, hcons⟩ := List.exists_cons_of_ne_nil (padded_ne_nil 4 y.toNat)
    have hd : d.isDigit = true := padded_digits 4 y.toNat d (by rw [hcons]; exact .head _)
    have hminus : d ≠ '-' := by rintro rfl; cases hd
    have hplus : d ≠ '+' := by rintro rfl; cases hd
    rw [yearText, if_pos hplain, year, trimStart_padded]
    rw [hcons, List.cons_append] at hread ⊢
    split
    · rename_i heq
      exact absurd (List.cons.inj heq).1 hminus
    · rename_i heq
      exact absurd (List.cons.inj heq).1 hplus
    · simp only [hread, Except.map, bind, Except.bind, hcast]
      rw [if_pos hbounds]
  · have hread : digits (padded 4 y.natAbs ++ '-' :: rest).length (padded 4 y.natAbs ++ '-' :: rest) =
        .ok (y.natAbs, '-' :: rest) := by
      have hend : NoDigit ('-' :: rest) := rfl
      rw [digits_append (padded_digits 4 y.natAbs) (padded_ne_nil 4 y.natAbs)
        (by rw [List.length_append]; omega) (.inr hend) (by rwa [ofDigitChars_padded]),
        ofDigitChars_padded]
    rw [yearText, if_neg hplain]
    by_cases hneg : y < 0
    · have hcast : -(y.natAbs : Int) = y := by omega
      rw [if_pos hneg, List.cons_append, year, Text.trimStart_cons rfl]
      simp only [hread, Except.map, bind, Except.bind, hcast]
      rw [if_pos hbounds]
    · have hcast : (y.natAbs : Int) = y := by omega
      rw [if_neg hneg, List.cons_append, year, Text.trimStart_cons rfl]
      simp only [hread, Except.map, bind, Except.bind, hcast]
      rw [if_pos hbounds]

theorem fraction_padded {width n : Nat} (hwidth : width ≤ 9) (hn : n < Nat.pow 10 width)
    (hpos : 0 < width) {rest : List Char} (hrest : NoDigit rest) :
    ∃ h, fraction ('.' :: (padded width n ++ rest)) =
      .ok (⟨Nat.pow 10 (9 - width) * n, h⟩, rest) := by
  have hlen : (padded width n).length = width :=
    length_padded ((Nat.length_toDigits_le_iff (by decide) hpos).2 hn)
  have hscale : Nat.pow 10 (9 - width) * Nat.pow 10 width = nanosPerSecond := by
    show 10 ^ (9 - width) * 10 ^ width = nanosPerSecond
    rw [← Nat.pow_add, Nat.sub_add_cancel hwidth]
    rfl
  have hnano : Nat.pow 10 (9 - width) * n < nanosPerSecond := by
    rw [← hscale]
    exact Nat.mul_lt_mul_of_pos_left hn (Nat.pow_pos (by decide))
  have hsize : n < UInt64.size / 2 := by
    have hle : n ≤ Nat.pow 10 (9 - width) * n := Nat.le_mul_of_pos_left n (Nat.pow_pos (by decide))
    exact Nat.lt_trans (Nat.lt_of_le_of_lt hle hnano) (by decide)
  have hread : digits 9 (padded width n ++ rest) = .ok (n, rest) := by
    rw [digits_append (padded_digits width n) (padded_ne_nil width n) (by omega) (.inr hrest)
      (by rwa [ofDigitChars_padded]), ofDigitChars_padded]
  have hzeros : 9 - ((padded width n ++ rest).length - rest.length) = 9 - width := by
    rw [List.length_append, hlen, Nat.add_sub_cancel]
  have hdrop : rest.dropWhile Char.isDigit = rest := by
    cases rest with
    | nil => rfl
    | cons c rest =>
      have hc : c.isDigit = false := hrest
      simp [hc]
  have hvalue : Nat.ofDigitChars 10 (List.replicate (9 - width) '0') n % nanosPerSecond =
      Nat.pow 10 (9 - width) * n := by
    rw [Nat.ofDigitChars_replicate_zero]
    exact Nat.mod_eq_of_lt hnano
  refine ⟨hnano, ?_⟩
  simp only [fraction, hread, bind, Except.bind, hzeros, hdrop, hvalue]

theorem fraction_fractionText (nano : Fin nanosPerSecond) (rest : List Char) :
    fraction (fractionText nano ++ 'Z' :: rest) = .ok (nano, 'Z' :: rest) := by
  obtain ⟨nano, hnano⟩ := nano
  have hsize : nano < 1000000000 := hnano
  have hend : NoDigit ('Z' :: rest) := rfl
  have hdigits {width n : Nat} (hwidth : width ≤ 9) (hpos : 0 < width) (hn : n < Nat.pow 10 width)
      (hvalue : Nat.pow 10 (9 - width) * n = nano) :
      fraction ('.' :: padded width n ++ 'Z' :: rest) = .ok (⟨nano, hnano⟩, 'Z' :: rest) := by
    subst hvalue
    obtain ⟨h, hread⟩ := fraction_padded hwidth hn hpos hend
    exact hread
  simp only [fractionText]
  by_cases hzero : nano = 0
  · subst hzero
    rfl
  · rw [if_neg hzero]
    split
    case isTrue =>
      refine hdigits (by decide) (by decide) (show _ < 1000 by omega) ?_
      show 1000000 * (nano / 1000000) = nano
      omega
    case isFalse =>
      split
      case isTrue =>
        refine hdigits (by decide) (by decide) (show _ < 1000000 by omega) ?_
        show 1000 * (nano / 1000) = nano
        omega
      case isFalse => exact hdigits (by decide) (by decide) hsize (Nat.one_mul nano)

/-- The point in time that the text of `t` names: a leap second that does not end a minute is
written as the second after it. -/
def sent (t : Timestamp) : Timestamp :=
  if h : nanosPerSecond ≤ t.nano ∧ t.second % 60 ≠ 59 then
    ⟨t.day, t.second + 1, t.nano - nanosPerSecond, t.inRange, by have := t.second_lt; omega,
      Nat.lt_of_le_of_lt (Nat.sub_le ..) t.nano_lt⟩
  else t

theorem zone_utc : zone ['Z'] = .ok (0, []) := rfl

/-- What the text of a point in time consists of is read one part after the other. -/
theorem read_parts {date : Date} (hour minute second : Nat) (hyear : date.yearInRange = true)
    (hdate : date.exists = true) (hhour : hour < 24) (hminute : minute < 60) (hsecond : second ≤ 60)
    (nano : Fin nanosPerSecond) :
    read (String.ofList (yearText date.year ++ '-' :: (padded 2 date.month ++ '-' ::
      (padded 2 date.day ++ 'T' :: (padded 2 hour ++ ':' :: (padded 2 minute ++ ':' ::
        (padded 2 second ++ (fractionText nano ++ ['Z'])))))))) =
      ofLocal date (hour * 3600 + minute * 60 + if second == 60 then 59 else second) (second == 60)
        nano 0 := by
  simp only [Date.yearInRange, Bool.and_eq_true, decide_eq_true_eq] at hyear
  simp only [Date.exists, Bool.and_eq_true, decide_eq_true_eq] at hdate
  have hday : date.day ≤ 31 := by
    have hle := hdate.2
    simp only [daysInMonth] at hle
    split at hle <;> (try split at hle) <;> omega
  have hmark (c : Char) (hc : Text.isBlank c = false) (cs : List Char) : mark c (c :: cs) = .ok cs := by
    simp [mark, Text.trimStart_cons hc]
  have hseparator (cs : List Char) : separator ('T' :: cs) = .ok cs := rfl
  simp only [read, String.toList_ofList, year_yearText hyear.1 hyear.2, bind, Except.bind,
    hmark '-' rfl, hmark ':' rfl, hseparator,
    field_padded 1 12 hdate.1.1.1 hdate.1.1.2 (by decide),
    field_padded 1 31 hdate.1.2 hday (by decide),
    field_padded 0 23 (Nat.zero_le hour) (Nat.le_of_lt_succ hhour) (by decide),
    field_padded 0 59 (Nat.zero_le minute) (Nat.le_of_lt_succ hminute) (by decide),
    field_padded 0 60 (Nat.zero_le second) hsecond (by decide),
    fraction_fractionText, zone_utc]
  rfl

/-- A second of a day in world time, with or without the leap second that follows it. -/
theorem ofLocal_ofDayNumber {day : Int} (inRange : (Date.ofDayNumber day).yearInRange = true)
    (second : Nat) (hsecond : second < 86400) (leap : Bool) (nano : Fin nanosPerSecond) :
    ∃ h, ofLocal (Date.ofDayNumber day) second leap nano 0 =
      .ok ⟨day, second, nano + if leap then nanosPerSecond else 0, inRange, hsecond, h⟩ := by
  have hdate : ((Date.ofDayNumber day).yearInRange && (Date.ofDayNumber day).exists) = true := by
    rw [inRange, Date.exists_ofDayNumber]
    rfl
  have hseconds : (Date.ofDayNumber day).dayNumber * 86400 + second - 0 = day * 86400 + second := by
    rw [Date.dayNumber_ofDayNumber]
    omega
  have hquot : (day * 86400 + (second : Int)) / 86400 = day := by omega
  have hrem : ((day * 86400 + (second : Int)) % 86400).toNat = second := by omega
  have hnano : nano + (if leap then nanosPerSecond else 0) < 2 * nanosPerSecond := by
    have hlt := nano.isLt
    split <;> omega
  refine ⟨hnano, ?_⟩
  rw [ofLocal, if_neg (by rw [hdate]; decide)]
  simp only [hseconds, hquot, hrem]
  rw [dif_pos inRange]

/-- The text of a point in time reads back as it was sent. -/
theorem read_text (t : Timestamp) : read t.text = .ok t.sent := by
  obtain ⟨day, second, nano, inRange, second_lt, nano_lt⟩ := t
  have hnanos : nanosPerSecond = 1000000000 := rfl
  have hshape := read_parts (second / 3600) (second / 60 % 60)
    (second % 60 + if nanosPerSecond ≤ nano then 1 else 0) inRange
    (Date.exists_ofDayNumber day) (by omega) (by omega) (by split <;> omega)
    ⟨if nanosPerSecond ≤ nano then nano - nanosPerSecond else nano, by split <;> omega⟩
  simp only [text, List.append_assoc, List.cons_append]
  rw [hshape]
  have hclock : second / 3600 * 3600 + second / 60 % 60 * 60 + second % 60 = second := by
    have hhours : second / 60 / 60 = second / 3600 := Nat.div_div_eq_div_mul ..
    omega
  by_cases hleap : nanosPerSecond ≤ nano
  · by_cases hlast : second % 60 = 59
    · simp only [hleap, hlast, sent, ↓reduceIte, beq_self_eq_true]
      obtain ⟨_, hlocal⟩ := ofLocal_ofDayNumber inRange
        (second / 3600 * 3600 + second / 60 % 60 * 60 + 59) (by omega) true
        ⟨nano - nanosPerSecond, by omega⟩
      rw [hlocal, dif_neg (by simp)]
      simp only [↓reduceIte]
      rw [Except.ok.injEq, Timestamp.mk.injEq]
      exact ⟨rfl, by omega, by omega⟩
    · have hnot : (second % 60 + 1 == 60) = false := by simp; omega
      simp only [hleap, sent, ↓reduceIte, hnot]
      obtain ⟨_, hlocal⟩ := ofLocal_ofDayNumber inRange
        (second / 3600 * 3600 + second / 60 % 60 * 60 + (second % 60 + 1)) (by omega) false
        ⟨nano - nanosPerSecond, by omega⟩
      simp only [Bool.false_eq_true, ↓reduceIte]
      rw [hlocal, dif_pos ⟨trivial, hlast⟩]
      simp only [Bool.false_eq_true, ↓reduceIte]
      rw [Except.ok.injEq, Timestamp.mk.injEq]
      exact ⟨rfl, by omega, by omega⟩
  · have hnot : (second % 60 == 60) = false := by simp; omega
    simp only [hleap, sent, ↓reduceIte, Nat.add_zero, hnot]
    obtain ⟨_, hlocal⟩ := ofLocal_ofDayNumber inRange
      (second / 3600 * 3600 + second / 60 % 60 * 60 + second % 60) (by omega) false
      ⟨nano, by omega⟩
    simp only [Bool.false_eq_true, ↓reduceIte]
    rw [hlocal, dif_neg (by simp)]
    simp only [Bool.false_eq_true, ↓reduceIte]
    rw [Except.ok.injEq, Timestamp.mk.injEq]
    exact ⟨rfl, by omega, by omega⟩

section Read

theorem offset_mod {cs rest : List Char} {o : Int} (h : offset cs = .ok (o, rest)) : o % 60 = 0 := by
  have hsigned {sign : Int} {cs rest : List Char} {o : Int}
      (h : (twoDigits '9' cs >>= fun hours =>
        twoDigits '5' (hours.2.dropWhile fun c => c == ':' || Text.isBlank c) >>= fun minutes =>
          .ok (sign * (hours.1 * 3600 + minutes.1 * 60), minutes.2)) = Except.ok (o, rest)) :
      o % 60 = 0 := by
    obtain ⟨hours, -, h⟩ := bind_eq_ok h
    obtain ⟨minutes, -, h⟩ := bind_eq_ok h
    obtain ⟨rfl, rfl⟩ := Prod.mk.inj (Except.ok.inj h)
    refine Int.emod_eq_zero_of_dvd (Dvd.dvd.mul_left ⟨(hours.1 : Int) * 60 + minutes.1, ?_⟩ sign)
    omega
  unfold offset at h
  split at h
  · cases h; rfl
  · cases h; rfl
  · exact hsigned h
  · exact hsigned h
  · exact hsigned h
  · cases h
  · cases h

theorem zone_mod {cs rest : List Char} {o : Int} (h : zone cs = .ok (o, rest)) : o % 60 = 0 := by
  unfold zone at h
  dsimp only at h
  split at h
  · cases h; rfl
  · exact offset_mod h

/-- With an offset of full minutes, a leap second that ends a minute somewhere ends one in UTC. -/
theorem sent_ofLocal {date : Date} {second : Nat} {leap : Bool} {nano : Fin nanosPerSecond}
    {offset : Int} {t : Timestamp} (h : ofLocal date second leap nano offset = .ok t)
    (hoffset : offset % 60 = 0) (hleap : leap = true → second % 60 = 59) : t.sent = t := by
  unfold ofLocal at h
  dsimp only at h
  split at h
  · cases h
  · split at h
    · cases h
      refine dif_neg fun hodd => ?_
      obtain ⟨hnano, hsecond⟩ := hodd
      dsimp only at hnano hsecond
      cases leap with
      | false =>
        have hlt := nano.isLt
        simp at hnano
        omega
      | true =>
        have hlast := hleap rfl
        omega
    · cases h

theorem sent_of_read {text : String} {t : Timestamp} (h : read text = .ok t) : t.sent = t := by
  obtain ⟨⟨y, _⟩, -, h⟩ := bind_eq_ok h
  obtain ⟨_, -, h⟩ := bind_eq_ok h
  obtain ⟨⟨m, _⟩, -, h⟩ := bind_eq_ok h
  obtain ⟨_, -, h⟩ := bind_eq_ok h
  obtain ⟨⟨d, _⟩, -, h⟩ := bind_eq_ok h
  obtain ⟨_, -, h⟩ := bind_eq_ok h
  obtain ⟨⟨hour, _⟩, -, h⟩ := bind_eq_ok h
  obtain ⟨_, -, h⟩ := bind_eq_ok h
  obtain ⟨⟨minute, _⟩, -, h⟩ := bind_eq_ok h
  obtain ⟨_, -, h⟩ := bind_eq_ok h
  obtain ⟨⟨second, _⟩, -, h⟩ := bind_eq_ok h
  obtain ⟨⟨nano, _⟩, -, h⟩ := bind_eq_ok h
  obtain ⟨⟨offset, _⟩, hzone, h⟩ := bind_eq_ok h
  dsimp only at h
  split at h
  · cases h
  · refine sent_ofLocal h (zone_mod hzone) fun hleap => ?_
    rw [if_pos hleap]
    omega

end Read

end Time.Timestamp
end DocCompiler
