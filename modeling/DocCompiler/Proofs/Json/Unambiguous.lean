import DocCompiler.Proofs.Json.Delimited
import Mathlib.Data.List.Forall2
import Mathlib.Data.List.Nodup
import Mathlib.Data.List.Perm.Basic

/-! Canonical text is canonical and unambiguous: values whose objects bind each key once have the
same canonical text exactly when they differ in nothing but the order in which the entries of
objects are listed. -/

namespace DocCompiler

namespace SortedMap

variable {α β : Type} {l m : List (String × α)}

theorem binding?_eq_some (h : (l.map (·.1)).Nodup) {key : String} {a : α} :
    binding? key l = some a ↔ (key, a) ∈ l :=
  ⟨mem_of_binding?, binding?_of_mem h (e := (key, a))⟩

theorem perm_ofList (h : (l.map (·.1)).Nodup) : (ofList l).entries.Perm l := by
  refine (List.perm_ext_iff_of_nodup (List.Nodup.of_map _ (ofList l).nodup_keys)
    (List.Nodup.of_map _ h)).2 fun e => ?_
  rw [mem_entries, find?_ofList, binding?_reverse h, binding?_eq_some h]

theorem ofList_perm (h : (l.map (·.1)).Nodup) (hperm : l.Perm m) : ofList l = ofList m := by
  have hm : (m.map (·.1)).Nodup := (hperm.map _).nodup_iff.1 h
  refine ext_find? fun key => Option.ext fun a => ?_
  rw [find?_ofList, find?_ofList, binding?_reverse h, binding?_reverse hm, binding?_eq_some h,
    binding?_eq_some hm, hperm.mem_iff]

theorem find?_map (f : α → β) (m : SortedMap α) (key : String) :
    (m.map f).find? key = (m.find? key).map f := binding?_map f

theorem map_ofList (f : α → β) (l : List (String × α)) :
    (ofList l).map f = ofList (l.map fun e => (e.1, f e.2)) := by
  refine ext_find? fun key => ?_
  rw [find?_map, find?_ofList, find?_ofList, ← List.map_reverse, binding?_map]

end SortedMap

namespace Json

/-- Every object, at any depth, binds each of its keys once. -/
inductive DistinctKeys : Json → Prop where
  | null : DistinctKeys .null
  | bool (b : Bool) : DistinctKeys (.bool b)
  | num (n : Number) : DistinctKeys (.num n)
  | str (s : String) : DistinctKeys (.str s)
  | arr {items : List Json} (h : ∀ v ∈ items, DistinctKeys v) : DistinctKeys (.arr items)
  | obj {entries : List (String × Json)} (hkeys : (entries.map (·.1)).Nodup)
      (h : ∀ e ∈ entries, DistinctKeys e.2) : DistinctKeys (.obj entries)

/-- Equality of values up to the order in which the entries of objects are listed, at any depth.
Numbers are equal when they are written alike. -/
inductive EqUpToOrder : Json → Json → Prop where
  | null : EqUpToOrder .null .null
  | bool (b : Bool) : EqUpToOrder (.bool b) (.bool b)
  | num {m n : Number} (h : m.text = n.text) : EqUpToOrder (.num m) (.num n)
  | str (s : String) : EqUpToOrder (.str s) (.str s)
  | arr {items items' : List Json} (h : List.Forall₂ EqUpToOrder items items') :
      EqUpToOrder (.arr items) (.arr items')
  | obj {entries listed entries' : List (String × Json)}
      (hkeys : entries.map (·.1) = listed.map (·.1))
      (hvalues : List.Forall₂ EqUpToOrder (entries.map (·.2)) (listed.map (·.2)))
      (hperm : listed.Perm entries') : EqUpToOrder (.obj entries) (.obj entries')

def canonicalEntryText (e : String × Json) : List Char := quote e.1 ++ ':' :: e.2.canonical.chars

theorem opens_canonicalEntryText (e : String × Json) : Opens (canonicalEntryText e) :=
  opens_entryText (e.1, e.2.canonical)

theorem canonical_chars_arr (items : List Json) : (Json.arr items).canonical.chars =
    '[' :: (separated (fun v => v.canonical.chars) items ++ [']']) := by
  rw [canonical, canonicalItems_eq, chars, itemChars_eq, separated_map]

theorem canonical_chars_obj (entries : List (String × Json)) : (Json.obj entries).canonical.chars =
    '{' :: (separated canonicalEntryText (SortedMap.ofList entries).entries ++ ['}']) := by
  have hsorted : sortedEntries entries = (SortedMap.ofList entries).map canonical := by
    rw [sortedEntries, canonicalEntries_eq, SortedMap.map_ofList]
  rw [canonical_obj, hsorted, chars, entryChars_eq]
  exact congrArg (fun cs => '{' :: (cs ++ ['}'])) (separated_map ..)

section Injective

theorem canonical_opening_eq {v w : Json} {r r' : List Char}
    (h : v.canonical.chars ++ r = w.canonical.chars ++ r') : v.opening = w.opening := by
  rw [← opening_canonical v, ← opening_canonical w, opening_eq h]

def EqEntry (e e' : String × Json) : Prop := e.1 = e'.1 ∧ EqUpToOrder e.2 e'.2

theorem delimits_entry {e e' : String × Json}
    (h : Delimits (fun v => v.canonical.chars) (fun v => v.canonical.chars) EqUpToOrder e.2 e'.2) :
    Delimits canonicalEntryText canonicalEntryText EqEntry e e' := by
  intro r r' hr hr' heq
  rw [canonicalEntryText, canonicalEntryText, List.append_assoc, List.append_assoc] at heq
  obtain ⟨hkey, heq⟩ := quote_append_inj heq
  obtain ⟨hvalue, hrest⟩ := h hr hr' (List.cons.inj heq).2
  exact ⟨⟨hkey, hvalue⟩, hrest⟩

theorem eqUpToOrder_obj {entries entries' : List (String × Json)}
    (hkeys : (entries.map (·.1)).Nodup) (hkeys' : (entries'.map (·.1)).Nodup)
    (h : List.Forall₂ EqEntry (SortedMap.ofList entries).entries
      (SortedMap.ofList entries').entries) : EqUpToOrder (.obj entries) (.obj entries') := by
  obtain ⟨listed, hall, hperm⟩ := List.perm_comp_forall₂ (SortedMap.perm_ofList hkeys).symm h
  refine .obj ?_ ?_ (hperm.trans (SortedMap.perm_ofList hkeys'))
  · rw [← List.forall₂_eq_eq_eq, List.forall₂_map_left_iff, List.forall₂_map_right_iff]
    exact hall.imp fun _ _ h => h.1
  · rw [List.forall₂_map_left_iff, List.forall₂_map_right_iff]
    exact hall.imp fun _ _ h => h.2

/-- **One way to be read.** Canonical text ends where its value ends, and tells the value up to
order. -/
theorem DistinctKeys.delimits {v : Json} (hv : v.DistinctKeys) : ∀ {w : Json}, w.DistinctKeys →
    Delimits (fun v => v.canonical.chars) (fun v => v.canonical.chars) EqUpToOrder v w := by
  -- for `w` of another kind than `v`, the texts differ in their first character
  induction hv with
  | null =>
    intro w hw r r' _ _ heq
    cases hw with
    | null => exact ⟨.null, List.append_cancel_left heq⟩
    | bool b => cases b <;> cases canonical_opening_eq heq
    | num | str | arr | obj => cases canonical_opening_eq heq
  | bool b =>
    intro w hw r r' _ _ heq
    have hopening := canonical_opening_eq heq
    cases hw with
    | bool b' =>
      have hb : b = b' := by cases b <;> cases b' <;> first | rfl | cases hopening
      subst hb
      exact ⟨.bool b, List.append_cancel_left heq⟩
    | null | num | str | arr | obj => cases b <;> cases hopening
  | num m =>
    intro w hw r r' hr hr' heq
    cases hw with
    | num n =>
      obtain ⟨htext, hrest⟩ := Number.text_append_inj hr hr' heq
      exact ⟨.num htext, hrest⟩
    | bool b => cases b <;> cases canonical_opening_eq heq
    | null | str | arr | obj => cases canonical_opening_eq heq
  | str s =>
    intro w hw r r' _ _ heq
    cases hw with
    | str t =>
      obtain ⟨rfl, hrest⟩ := quote_append_inj heq
      exact ⟨.str s, hrest⟩
    | bool b => cases b <;> cases canonical_opening_eq heq
    | null | num | arr | obj => cases canonical_opening_eq heq
  | @arr items _ ih =>
    intro w hw r r' _ _ heq
    cases hw with
    | @arr items' hitems' =>
      simp only [canonical_chars_arr, List.cons_append, List.append_assoc, List.nil_append,
        List.cons.injEq, true_and] at heq
      obtain ⟨hall, hrest⟩ := separated_append_inj (fun v hv w hw => ih v hv (hitems' w hw))
        (fun v _ => opens_chars _) (fun w _ => opens_chars _) (.inl rfl) heq
      exact ⟨.arr hall, hrest⟩
    | bool b => cases b <;> cases canonical_opening_eq heq
    | null | num | str | obj => cases canonical_opening_eq heq
  | @obj entries hkeys _ ih =>
    intro w hw r r' _ _ heq
    cases hw with
    | @obj entries' hkeys' hentries' =>
      simp only [canonical_chars_obj, List.cons_append, List.append_assoc, List.nil_append,
        List.cons.injEq, true_and] at heq
      have hmem {entries : List (String × Json)} (hkeys : (entries.map (·.1)).Nodup) :
          ∀ e ∈ (SortedMap.ofList entries).entries, e ∈ entries :=
        fun _ he => (SortedMap.perm_ofList hkeys).mem_iff.1 he
      obtain ⟨hall, hrest⟩ := separated_append_inj
        (fun e he e' he' => delimits_entry
          (ih e (hmem hkeys e he) (hentries' e' (hmem hkeys' e' he'))))
        (fun e _ => opens_canonicalEntryText e) (fun e _ => opens_canonicalEntryText e)
        (.inr rfl) heq
      exact ⟨eqUpToOrder_obj hkeys hkeys' hall, hrest⟩
    | bool b => cases b <;> cases canonical_opening_eq heq
    | null | num | str | arr => cases canonical_opening_eq heq

theorem DistinctKeys.eqUpToOrder {v w : Json} (hv : v.DistinctKeys) (hw : w.DistinctKeys)
    (h : v.canonicalText = w.canonicalText) : EqUpToOrder v w := by
  have hchars : v.canonical.chars = w.canonical.chars := String.ofList_injective h
  have hrest : Closed [] := trivial
  exact (hv.delimits hw hrest hrest (congrArg (· ++ []) hchars)).1

end Injective

section Invariant

variable {α β γ : Type}

theorem map_eq_of_forall₂ {R : α → β → Prop} {f : α → γ} {g : β → γ} {l : List α} {m : List β}
    (h : List.Forall₂ R l m) (heq : ∀ a ∈ l, ∀ b, R a b → f a = g b) : l.map f = m.map g := by
  induction h with
  | nil => rfl
  | cons hab _ ih =>
    rw [List.map_cons, List.map_cons, heq _ (.head _) _ hab,
      ih fun a ha => heq a (.tail _ ha)]

theorem separated_congr {f : α → List Char} {g : β → List Char} {l : List α} {m : List β}
    (h : l.map f = m.map g) : separated f l = separated g m := by
  have hf : separated f l = separated id (l.map f) := (separated_map id f l).symm
  have hg : separated g m = separated id (m.map g) := (separated_map id g m).symm
  rw [hf, hg, h]

theorem separated_canonicalEntryText {m n : SortedMap Json}
    (h : m.map (fun v => v.canonical.chars) = n.map fun v => v.canonical.chars) :
    separated canonicalEntryText m.entries = separated canonicalEntryText n.entries := by
  have htexts (m : SortedMap Json) : m.entries.map canonicalEntryText =
      (m.map fun v => v.canonical.chars).entries.map fun e => quote e.1 ++ ':' :: e.2 := by
    rw [SortedMap.map, List.map_map]
    rfl
  exact separated_congr (by rw [htexts, htexts, h])

theorem DistinctKeys.canonical_chars_eq {v : Json} (hv : v.DistinctKeys) :
    ∀ {w : Json}, EqUpToOrder v w → v.canonical.chars = w.canonical.chars := by
  induction hv with
  | null | bool | str => rintro w ⟨⟩; rfl
  | num m =>
    intro w h
    cases h with
    | num htext => exact htext
  | @arr items _ ih =>
    intro w h
    cases h with
    | arr hall =>
      rw [canonical_chars_arr, canonical_chars_arr,
        separated_congr (map_eq_of_forall₂ hall fun v hv w h => ih v hv h)]
  | @obj entries hkeys _ ih =>
    intro w h
    cases h with
    | @obj _ listed entries' hlisted hvalues hperm =>
      have htexts : entries.map (fun e => e.2.canonical.chars) =
          listed.map fun e => e.2.canonical.chars := by
        rw [List.forall₂_map_left_iff, List.forall₂_map_right_iff] at hvalues
        exact map_eq_of_forall₂ hvalues fun e he e' h => ih e he h
      -- `listed` has the values of one side in the order of the other; maps forget that order
      have hsame : entries.map (fun e => (e.1, e.2.canonical.chars)) =
          listed.map fun e => (e.1, e.2.canonical.chars) := by
        rw [← List.zip_map', ← List.zip_map', hlisted, htexts]
      have hnodup : (listed.map (·.1)).Nodup := hlisted ▸ hkeys
      have hmap : (SortedMap.ofList entries).map (fun v => v.canonical.chars) =
          (SortedMap.ofList entries').map fun v => v.canonical.chars := by
        rw [← SortedMap.ofList_perm hnodup hperm, SortedMap.map_ofList, SortedMap.map_ofList]
        exact congrArg _ hsame
      rw [canonical_chars_obj, canonical_chars_obj, separated_canonicalEntryText hmap]

end Invariant

/-- **Canonical and unambiguous.** Values whose objects have distinct keys have the same canonical
text exactly when they are equal up to the order of entries. -/
theorem canonicalText_eq_iff {v w : Json} (hv : v.DistinctKeys) (hw : w.DistinctKeys) :
    v.canonicalText = w.canonicalText ↔ EqUpToOrder v w :=
  ⟨hv.eqUpToOrder hw, fun h => congrArg String.ofList (hv.canonical_chars_eq h)⟩

theorem DistinctKeys.pair {k l : String} {v w : Json} (hne : k ≠ l) (hv : v.DistinctKeys)
    (hw : w.DistinctKeys) : (Json.obj [(k, v), (l, w)]).DistinctKeys := by
  refine .obj (by simpa using hne) ?_
  simp only [List.forall_mem_cons]
  exact ⟨hv, hw, nofun⟩

theorem canonicalText_eq_iff_nested :
    (obj [("b", arr [obj [("y", null), ("x", nat 1)]]), ("a", str "\x7d")]).canonicalText =
      (obj [("a", str "\x7d"), ("b", arr [obj [("x", nat 1), ("y", null)]])]).canonicalText := by
  have hitem {v : Json} (hv : v.DistinctKeys) : (arr [v]).DistinctKeys :=
    .arr fun w hw => List.mem_singleton.1 hw ▸ hv
  refine (canonicalText_eq_iff
    (.pair (by decide) (hitem (.pair (by decide) .null (.num _))) (.str _))
    (.pair (by decide) (.str _) (hitem (.pair (by decide) (.num _) .null)))).2 ?_
  have hinner : EqUpToOrder (obj [("y", null), ("x", nat 1)]) (obj [("x", nat 1), ("y", null)]) :=
    .obj rfl (.cons .null (.cons (.num rfl) .nil)) (.swap ..)
  have hvalues : List.Forall₂ EqUpToOrder [arr [obj [("y", null), ("x", nat 1)]], str "\x7d"]
      [arr [obj [("x", nat 1), ("y", null)]], str "\x7d"] :=
    .cons (.arr (.cons hinner .nil)) (.cons (.str _) .nil)
  exact @EqUpToOrder.obj _ [("b", arr [obj [("x", nat 1), ("y", null)]]), ("a", str "\x7d")] _ rfl
    hvalues (.swap ..)

end Json
end DocCompiler
