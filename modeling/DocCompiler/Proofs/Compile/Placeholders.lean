import DocCompiler.Proofs.Text.Occurrences
import DocCompiler.Proofs.Transclusion.Tokens
import DocCompiler.Substitution

/-! Placeholders against the text around them. Substitution leaves a text as it is if no placeholder
in it has another value than itself; whatever the values, it leaves the transclusion tokens, as no
placeholder can begin in a token or reach into one. -/

namespace DocCompiler.Substitution

open Text (Piece)
open Transclusion (Token)

variable {values : Variables}

def replacement (values : Variables) : Piece String → List Char
  | .plain c => [c]
  | .found key => (((values.find? key).map (·.rendered)).getD (placeholder key)).toList

theorem toList_foldl_put (out : String) (ps : List (Piece String)) :
    (ps.foldl (put values) out).toList = out.toList ++ ps.flatMap (replacement values) := by
  induction ps generalizing out with
  | nil => simp
  | cons p ps ih =>
    rw [List.foldl_cons, ih, List.flatMap_cons, ← List.append_assoc]
    cases p with
    | plain c => rw [put, String.toList_push]; rfl
    | found key => rw [put, String.toList_append]; rfl

theorem toList_result (text : String) (values : Variables) :
    (substitute text values).result.toList = (pieces text).flatMap (replacement values) :=
  toList_foldl_put "" (pieces text)

structure IsKey (key : String) : Prop where
  ne_nil : key.toList ≠ []
  chars : ∀ c ∈ key.toList, isKeyChar c = true

theorem IsKey.not_mem {key : String} (h : IsKey key) {c : Char} (hc : isKeyChar c = false) :
    c ∉ key.toList := fun hmem => Bool.noConfusion (hc.symm.trans (h.chars c hmem))

theorem IsKey.brace_not_mem {key : String} (h : IsKey key) : '{' ∉ key.toList ++ ['}', '}'] := by
  rw [List.mem_append, not_or]
  exact ⟨h.not_mem rfl, by decide⟩

theorem recognise_eq_some {cs : List Char} {key : String} {size : Nat}
    (h : recognise cs = some (key, size)) :
    IsKey key ∧ size = key.toList.length + 4 ∧
      ∃ rest, cs = '{' :: '{' :: (key.toList ++ '}' :: '}' :: rest) := by
  unfold recognise at h
  split at h
  case h_2 => cases h
  case h_1 cs =>
    dsimp only at h
    generalize hrun : cs.takeWhile isKeyChar = run at h
    generalize hclosing : cs.drop run.length = closing at h
    split at h
    case h_2 => cases h
    case h_1 c name rest =>
      cases h
      refine ⟨⟨?_, ?_⟩, ?_, rest, ?_⟩
      · rw [String.toList_ofList]
        exact List.cons_ne_nil c name
      · intro d hd
        rw [String.toList_ofList, ← hrun] at hd
        exact List.all_eq_true.1 List.all_takeWhile d hd
      · rw [String.toList_ofList]
      · rw [String.toList_ofList, Token.eq_append_of_takeWhile hrun hclosing]

theorem toList_placeholder (key : String) :
    (placeholder key).toList = '{' :: '{' :: (key.toList ++ ['}', '}']) := by
  simp [placeholder]

theorem writes_recognise :
    Text.Recogniser.Writes recognise fun key => (placeholder key).toList := by
  intro cs key size h
  obtain ⟨-, hsize, rest, rfl⟩ := recognise_eq_some h
  refine ⟨by simp [hsize], by simp [hsize, toList_placeholder], rest, ?_⟩
  simp [toList_placeholder]

theorem recognise_placeholder {key : String} (h : IsKey key) (after : List Char) :
    recognise ((placeholder key).toList ++ after) = some (key, key.toList.length + 4) := by
  have hrun : (key.toList ++ '}' :: '}' :: after).takeWhile isKeyChar = key.toList :=
    Token.takeWhile_run h.chars (by rintro _ ⟨⟩; rfl)
  have hclosing : (key.toList ++ '}' :: '}' :: after).drop key.toList.length =
      '}' :: '}' :: after := List.drop_left
  rw [toList_placeholder, List.cons_append, List.cons_append, List.append_assoc, recognise]
  simp only [List.cons_append, List.nil_append, hrun, hclosing]
  obtain ⟨c, name, hname⟩ := List.exists_cons_of_ne_nil h.ne_nil
  simp only [hname]
  rw [← hname, String.ofList_toList]

/-- No placeholder begins inside another one: there is no opening brace behind its first two. -/
theorem apart_recognise : Text.Recogniser.Apart recognise := by
  intro cs key size h k hpos hk
  obtain ⟨hkey, hsize, rest, rfl⟩ := recognise_eq_some h
  rw [Option.eq_none_iff_forall_ne_some]
  rintro ⟨key', size'⟩ h'
  obtain ⟨-, -, rest', hrest'⟩ := recognise_eq_some h'
  have hinner : key.toList ++ '}' :: '}' :: rest = key.toList ++ ['}', '}'] ++ rest := by simp
  obtain ⟨n, hn, hbrace⟩ : ∃ n < (key.toList ++ ['}', '}']).length,
      (key.toList ++ ['}', '}'] ++ rest)[n]? = some '{' := by
    match k with
    | 1 =>
      have hsecond := congrArg (·[1]?) hrest'
      exact ⟨0, by simp, by simpa using hsecond⟩
    | n + 2 =>
      have hfirst := congrArg (·[0]?) hrest'
      exact ⟨n, by simp; omega, by simpa using hfirst⟩
  rw [List.getElem?_append_left hn] at hbrace
  exact hkey.brace_not_mem (List.mem_of_getElem? hbrace)

/-- Each placeholder in a text that has a value is replaced by itself. -/
def Keeps (values : Variables) (text : String) : Prop :=
  ∀ key value, IsKey key → (placeholder key).toList <:+: text.toList →
    values.find? key = some value → value.rendered = placeholder key

theorem result_eq_self {text : String} (h : Keeps values text) :
    (substitute text values).result = text := by
  have htext := Text.flatMap_written_scan writes_recognise text.toList
  have hpiece : ∀ p ∈ pieces text, replacement values p =
      Piece.written (fun key => (placeholder key).toList) p := by
    intro p hp
    cases p with
    | plain c => rfl
    | found key =>
      obtain ⟨_, _, hfound⟩ := Text.exists_recognise_of_mem_scan hp
      have hwithin : (placeholder key).toList <:+: text.toList :=
        htext ▸ List.infix_of_mem_flatten (List.mem_map_of_mem hp)
      rw [replacement, Piece.written]
      cases hvalue : values.find? key with
      | none => rfl
      | some value =>
        exact congrArg String.toList (h key value (recognise_eq_some hfound).1 hwithin hvalue)
  rw [String.ext_iff, toList_result, List.flatMap_congr hpiece]
  exact htext

theorem result_empty (text : String) : (substitute text ∅).result = text :=
  result_eq_self nofun

section Untouched

variable {source after : List Char}

theorem recognise_append_eq_none (hsource : Token.Delimited source) {s : List Char} (hne : s ≠ [])
    (hs : s <:+ source) : recognise (s ++ after) = none := by
  rw [Option.eq_none_iff_forall_ne_some]
  rintro ⟨key, size⟩ h
  obtain ⟨hkey, -, rest, hrest⟩ := recognise_eq_some h
  by_cases hpart : s = source
  · -- `>` would be the first character of the key
    obtain ⟨inner, -, rfl⟩ := hsource
    obtain ⟨c, name, hname⟩ := List.exists_cons_of_ne_nil hkey.ne_nil
    rw [hpart, hname] at hrest
    simp only [List.cons_append, List.cons.injEq] at hrest
    obtain rfl := hrest.2.2.1
    exact absurd (hname ▸ .head _) (hkey.not_mem (c := '>') rfl)
  · exact hsource.append_ne hne hs hpart after _ hrest

theorem size_le_of_recognise (hsource : Token.Delimited source) {s : List Char} {key : String}
    {size : Nat} (hne : s ≠ []) (h : recognise (s ++ (source ++ after)) = some (key, size)) :
    size ≤ s.length := by
  obtain ⟨hkey, hsize, rest, hrest⟩ := recognise_eq_some h
  obtain ⟨inner, -, rfl⟩ := hsource
  have hbrace := hkey.brace_not_mem
  match s with
  | [c] =>
    -- the second brace of the token would be the first character of the key
    obtain ⟨d, name, hname⟩ := List.exists_cons_of_ne_nil hkey.ne_nil
    rw [hname] at hrest hbrace
    simp only [List.cons_append, List.nil_append, List.cons.injEq] at hrest
    obtain rfl := hrest.2.2.1
    exact absurd (.head _) hbrace
  | c :: d :: s =>
    have htail : s ++ '{' :: '{' :: '>' :: (inner ++ ['}', '}'] ++ after) =
        (key.toList ++ ['}', '}']) ++ rest := by
      simpa using (List.cons.inj (List.cons.inj hrest).2).2
    rcases List.append_eq_append_iff.1 htail with ⟨more, hmore, hfrom⟩ | ⟨more, rfl, -⟩
    · cases more with
      | nil =>
        rw [List.append_nil] at hmore
        simp [hsize, ← hmore]
      | cons e more =>
        obtain rfl := (List.cons.inj hfrom).1
        exact absurd (hmore ▸ by simp) hbrace
    · simp [hsize]

/-- A token of a text comes through the substitution of whatever values. -/
theorem infix_result {text : String} (hsource : Token.Delimited source)
    (hwithin : source <:+: text.toList) (values : Variables) :
    source <:+: (substitute text values).result.toList := by
  obtain ⟨before, after, htext⟩ := hwithin
  have hinside : ∀ s, s ≠ [] → s <:+ source → recognise (s ++ after) = none :=
    fun s hne hs => recognise_append_eq_none hsource hne hs
  obtain ⟨ps, qs, hscan⟩ := Text.exists_scan_append hinside
    (fun s key size hne h => size_le_of_recognise hsource hne h) before
  have hplain : (source.map .plain).flatMap (replacement values) = source := by
    simp [List.flatMap_map, replacement]
  rw [toList_result, pieces, ← htext, List.append_assoc, hscan, List.flatMap_append,
    List.flatMap_append, hplain]
  exact ⟨_, _, rfl⟩

end Untouched

end DocCompiler.Substitution
