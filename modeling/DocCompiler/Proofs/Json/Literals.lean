import DocCompiler.Json.Reader
import DocCompiler.Json.Writer
import Mathlib.Data.List.Basic

/-! Strings and integers that are written as JSON read back as themselves, whatever stands behind
them; behind a number it must be something that ends it. -/

namespace DocCompiler.Json

/-- What can stand behind a value in compact text. -/
def Closed : List Char → Prop
  | [] => True
  | c :: _ => c = ',' ∨ c = ']' ∨ c = '}'

theorem Closed.not_digit {c : Char} {rest : List Char} (h : Closed (c :: rest)) :
    c.isDigit = false := by
  rcases h with rfl | rfl | rfl <;> decide

section Strings

theorem hexValue?_hexDigit (n : Fin 16) : Literal.hexValue? (hexDigit n) = some n.val := by
  revert n
  decide

theorem escape_control {c : Char} (hc : c.toNat < 0x20) (cs : List Char) :
    Literal.escape ('u' :: '0' :: '0' :: hexDigit (c.toNat / 16) :: hexDigit (c.toNat % 16) :: cs) =
      .ok (c, 5) := by
  have hhigh := hexValue?_hexDigit ⟨c.toNat / 16, by omega⟩
  have hlow := hexValue?_hexDigit ⟨c.toNat % 16, by omega⟩
  have hzero : Literal.hexValue? '0' = some 0 := by decide
  have hunit : Literal.hexUnit ('0' :: '0' :: hexDigit (c.toNat / 16) ::
      hexDigit (c.toNat % 16) :: cs) = .ok c.toNat := by
    simp only [Literal.hexUnit, List.take_succ_cons, List.take_zero, List.mapM_cons, List.mapM_nil,
      hzero, hhigh, hlow, bind, Option.bind, pure]
    congr 1
    omega
  simp only [Literal.escape, Literal.unicodeEscape, hunit, bind, Except.bind, Except.map]
  rw [if_neg (by omega), if_pos (by omega), Char.ofNat_toNat]

/-- Passes the characters of an escape that has been read. -/
theorem stringLoop_skip (done covered cs : List Char) :
    Literal.stringLoop covered.length done (covered ++ cs) = Literal.stringLoop 0 done cs := by
  induction covered with
  | nil => rfl
  | cons c covered ih => exact ih

theorem stringLoop_escape {done covered cs : List Char} {c : Char}
    (h : Literal.escape (covered ++ cs) = .ok (c, covered.length)) :
    Literal.stringLoop 0 done ('\\' :: (covered ++ cs)) = Literal.stringLoop 0 (c :: done) cs := by
  rw [Literal.stringLoop, if_neg (by decide), if_pos rfl, h]
  exact stringLoop_skip (c :: done) covered cs

theorem stringLoop_escapeChar (done : List Char) (c : Char) (cs : List Char) :
    Literal.stringLoop 0 done (escapeChar c ++ cs) = Literal.stringLoop 0 (c :: done) cs := by
  have hsimple : ∀ e : Char, Literal.escape ([e] ++ cs) = .ok (c, 1) →
      Literal.stringLoop 0 done (['\\', e] ++ cs) = Literal.stringLoop 0 (c :: done) cs :=
    fun e he => stringLoop_escape he
  unfold escapeChar
  split
  case isTrue h => subst h; exact hsimple '"' rfl
  split
  case isTrue h => subst h; exact hsimple '\\' rfl
  split
  case isTrue h => subst h; exact hsimple 'b' rfl
  split
  case isTrue h => subst h; exact hsimple 't' rfl
  split
  case isTrue h => subst h; exact hsimple 'n' rfl
  split
  case isTrue h => subst h; exact hsimple 'f' rfl
  split
  case isTrue h => subst h; exact hsimple 'r' rfl
  split
  case isTrue h =>
    have hfive := escape_control h cs
    have hcover : Literal.escape (['u', '0', '0', hexDigit (c.toNat / 16), hexDigit (c.toNat % 16)]
        ++ cs) = .ok (c, 5) := hfive
    exact stringLoop_escape hcover
  case isFalse hquote hslash _ _ _ _ _ hplain =>
    rw [List.singleton_append, Literal.stringLoop, if_neg hquote, if_neg hslash, if_neg hplain]

theorem stringLoop_flatMap (done s cs : List Char) :
    Literal.stringLoop 0 done (s.flatMap escapeChar ++ '"' :: cs) =
      .ok (String.ofList (done.reverse ++ s), cs) := by
  induction s generalizing done with
  | nil => simp [Literal.stringLoop]
  | cons c s ih =>
    rw [List.flatMap_cons, List.append_assoc, stringLoop_escapeChar, ih, List.reverse_cons,
      List.append_assoc, List.singleton_append]

theorem string_quoted (s : String) (cs : List Char) :
    Literal.string (s.toList.flatMap escapeChar ++ '"' :: cs) = .ok (s, cs) := by
  rw [Literal.string, stringLoop_flatMap, List.reverse_nil, List.nil_append, String.ofList_toList]

end Strings

section Integers

theorem takeWhile_digits {ds rest : List Char} (hds : ∀ d ∈ ds, d.isDigit = true)
    (hrest : Closed rest) :
    (ds ++ rest).takeWhile Char.isDigit = ds ∧ (ds ++ rest).dropWhile Char.isDigit = rest := by
  induction ds with
  | nil =>
    cases rest with
    | nil => exact ⟨rfl, rfl⟩
    | cons c rest => simp [hrest.not_digit]
  | cons d ds ih =>
    obtain ⟨htake, hdrop⟩ := ih fun d hd => hds d (.tail _ hd)
    simp [hds d (.head _), htake, hdrop]

theorem takeDigits_eq {ds : List Char} {n : Nat}
    (h : Nat.ofDigitChars 10 ds n < Literal.significandLimit) :
    Literal.takeDigits n ds = (Nat.ofDigitChars 10 ds n, ds.length) := by
  induction ds generalizing n with
  | nil => simp [Literal.takeDigits]
  | cons d ds ih =>
    rw [Nat.ofDigitChars_cons] at h ⊢
    have hle : 10 * n + (d.toNat - '0'.toNat) ≤ Nat.ofDigitChars 10 ds
        (10 * n + (d.toNat - '0'.toNat)) := by
      rw [Nat.ofDigitChars_eq_ofDigitChars_zero]
      exact Nat.le_trans (Nat.le_mul_of_pos_left _ (Nat.pow_pos (by decide))) (Nat.le_add_right ..)
    have hcomm : n * 10 + Literal.digitValue d = 10 * n + (d.toNat - '0'.toNat) := by
      rw [Nat.mul_comm, Literal.digitValue]
    simp only [Literal.takeDigits, hcomm]
    rw [if_pos (Nat.lt_of_le_of_lt hle h), ih h, List.length_cons]

/-- Only zero begins with a zero. -/
theorem toDigits_cons (n : Nat) :
    ∃ d ds, Nat.toDigits 10 n = d :: ds ∧ d.isDigit = true ∧ (d = '0' → n = 0) := by
  have hdigit : ∀ k : Fin 10, k.val.digitChar.isDigit = true ∧ (k.val.digitChar = '0' → k.val = 0) := by
    decide
  induction n using Nat.strongRecOn with
  | ind n ih =>
    rcases Nat.lt_or_ge n 10 with hlt | hge
    · obtain ⟨hd, hzero⟩ := hdigit ⟨n, hlt⟩
      exact ⟨n.digitChar, [], Nat.toDigits_of_lt_base hlt, hd, hzero⟩
    · obtain ⟨d, ds, heq, hd, hzero⟩ := ih (n / 10) (by omega)
      refine ⟨d, ds ++ [(n % 10).digitChar], ?_, hd, fun h => ?_⟩
      · rw [Nat.toDigits_of_base_le (by decide) hge, heq, List.cons_append]
      · have := hzero h
        omega

theorem number_toDigits (negative : Bool) {n : Nat} (hn : n < Literal.significandLimit)
    {rest : List Char} (hrest : Closed rest) :
    Literal.number negative (Nat.toDigits 10 n ++ rest) =
      (Literal.ofInteger negative n).map (·, rest) := by
  have hdigits : ∀ d ∈ Nat.toDigits 10 n, d.isDigit = true := fun d hd =>
    Nat.isDigit_of_mem_toDigits (by decide) (by decide) hd
  obtain ⟨htake, hdrop⟩ := takeWhile_digits hdigits hrest
  have htaken : Literal.takeDigits 0 (Nat.toDigits 10 n) = (n, (Nat.toDigits 10 n).length) := by
    rw [takeDigits_eq, Nat.ofDigitChars_ten_toDigits]
    rwa [Nat.ofDigitChars_ten_toDigits]
  have hform : ∀ d' ds', Nat.toDigits 10 n = '0' :: d' :: ds' → False := by
    intro d' ds' heq
    obtain ⟨d, ds, hcons, -, hzero⟩ := toDigits_cons n
    have hd : d = '0' := by rw [heq] at hcons; exact (List.cons.inj hcons).1.symm
    rw [hzero hd] at heq
    cases heq
  rw [Literal.number, htake, hdrop]
  dsimp only
  split
  case h_1 heq => exact absurd heq Nat.toDigits_ne_nil
  case h_2 heq => exact (hform _ _ heq).elim
  case h_3 =>
    rw [htaken]
    dsimp only
    rw [Nat.sub_self, if_pos rfl]
    split
    case h_4 =>
      cases Literal.ofInteger negative n <;> rfl
    all_goals exact absurd hrest (by simp [Closed])

end Integers
end DocCompiler.Json
