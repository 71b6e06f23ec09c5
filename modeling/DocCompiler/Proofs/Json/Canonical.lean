import DocCompiler.Json.Writer

/-! Canonical form. A key of an object is bound to what its last entry binds it to, and a value
whose objects have their keys in order is canonical as it stands. -/

namespace DocCompiler

/-- What the first entry for a key binds it to. -/
def binding? {α : Type} (key : String) (entries : List (String × α)) : Option α :=
  (entries.find? (·.1 == key)).map (·.2)

section Binding

variable {α β : Type} {key : String} {l m : List (String × α)}

@[simp] theorem binding?_nil : binding? key ([] : List (String × α)) = none := rfl

theorem binding?_cons (e : String × α) (l : List (String × α)) :
    binding? key (e :: l) = if e.1 = key then some e.2 else binding? key l := by
  by_cases h : e.1 = key <;> simp [binding?, h]

theorem binding?_append : binding? key (l ++ m) = (binding? key l).or (binding? key m) := by
  rw [binding?, List.find?_append, Option.map_or]
  rfl

theorem binding?_eq_none : binding? key l = none ↔ ∀ e ∈ l, e.1 ≠ key := by
  simp [binding?]

theorem binding?_map (f : α → β) :
    binding? key (l.map fun e => (e.1, f e.2)) = (binding? key l).map f := by
  rw [binding?, List.find?_map, binding?, Option.map_map, Option.map_map]
  rfl

theorem binding?_filter (p : String → Bool) (l : List (String × α)) :
    binding? key (l.filter fun e => p e.1) = if p key then binding? key l else none := by
  induction l with
  | nil => simp
  | cons e l ih =>
    rw [List.filter_cons, binding?_cons]
    by_cases hkey : e.1 = key
    · subst hkey
      by_cases hp : p e.1 <;> simp [hp, ih, binding?_cons]
    · rw [if_neg hkey, ← ih]
      by_cases hp : p e.1 <;> simp [hp, hkey, binding?_cons]

theorem mem_of_binding? {a : α} (h : binding? key l = some a) : (key, a) ∈ l := by
  obtain ⟨e, he, rfl⟩ := Option.map_eq_some_iff.1 h
  have hkey : e.1 = key := beq_iff_eq.1 (List.find?_some he :)
  rw [← hkey]
  exact List.mem_of_find?_eq_some he

theorem binding?_of_mem (h : (l.map (·.1)).Nodup) {e : String × α} (he : e ∈ l) :
    binding? e.1 l = some e.2 := by
  induction l with
  | nil => cases he
  | cons f l ih =>
    obtain ⟨hnot, hnodup⟩ := List.nodup_cons.1 h
    rw [binding?_cons]
    rcases List.mem_cons.1 he with rfl | he
    · exact if_pos rfl
    · rw [if_neg fun heq => hnot (List.mem_map.2 ⟨e, he, heq.symm⟩)]
      exact ih hnodup he

theorem binding?_reverse (h : (l.map (·.1)).Nodup) : binding? key l.reverse = binding? key l := by
  induction l with
  | nil => rfl
  | cons e l ih =>
    obtain ⟨hnot, hnodup⟩ := List.nodup_cons.1 h
    rw [List.reverse_cons, binding?_append, ih hnodup, binding?_cons, binding?_cons]
    by_cases hkey : e.1 = key
    · have habsent : binding? key l = none := binding?_eq_none.2 fun e' he' heq =>
        hnot (List.mem_map.2 ⟨e', he', heq.trans hkey.symm⟩)
      rw [habsent, if_pos hkey, if_pos hkey]
      rfl
    · rw [if_neg hkey, if_neg hkey, binding?_nil, Option.or_none]

end Binding

namespace SortedMap

variable {α : Type}

theorem find?_eq_binding? (m : SortedMap α) (key : String) : m.find? key = binding? key m.entries :=
  rfl

theorem find?_ofList (l : List (String × α)) (key : String) :
    (ofList l).find? key = binding? key l.reverse := by
  induction l with
  | nil => rfl
  | cons e l ih =>
    have hcons : ofList (e :: l) = (ofList l).insertNew e.1 e.2 := rfl
    rw [hcons, find?_insertNew, List.reverse_cons, binding?_append, ← ih, binding?_cons]
    split
    · cases (ofList l).find? key <;> rfl
    · cases (ofList l).find? key <;> rfl

theorem nodup_keys (m : SortedMap α) : (m.entries.map (·.1)).Nodup := by
  rw [List.Nodup, List.pairwise_map]
  refine m.ordered.imp fun hlt heq => ?_
  rw [heq] at hlt
  exact Std.lt_irrefl hlt

theorem mem_entries {m : SortedMap α} {e : String × α} :
    e ∈ m.entries ↔ m.find? e.1 = some e.2 :=
  ⟨binding?_of_mem m.nodup_keys, mem_of_binding?⟩

theorem find?_erase (m : SortedMap α) (erased key : String) :
    (m.erase erased).find? key = if key != erased then m.find? key else none :=
  binding?_filter (· != erased) m.entries

theorem nodup_entries (m : SortedMap α) : m.entries.Nodup :=
  m.ordered.imp fun hlt heq => by
    rw [heq] at hlt
    exact Std.lt_irrefl hlt

theorem perm_cons_erase {m : SortedMap α} {key : String} {value : α}
    (h : m.find? key = some value) : ((key, value) :: (m.erase key).entries).Perm m.entries := by
  have herased : (m.erase key).find? key = none := by simp [find?_erase]
  have hnew : (key, value) ∉ (m.erase key).entries := fun hmem =>
    nomatch herased.symm.trans (mem_entries.1 hmem)
  have hnodup := List.nodup_cons.2 ⟨hnew, (m.erase key).nodup_entries⟩
  refine (List.perm_ext_iff_of_nodup hnodup m.nodup_entries).2 fun e => ?_
  rw [List.mem_cons, mem_entries, mem_entries, find?_erase]
  by_cases hkey : e.1 = key
  case pos => simp [hkey, h, Prod.ext_iff, eq_comm]
  case neg => simp [hkey, Prod.ext_iff]

theorem ext_find? {m n : SortedMap α} (h : ∀ key, m.find? key = n.find? key) : m = n := by
  have hperm : m.entries.Perm n.entries :=
    (List.perm_ext_iff_of_nodup m.nodup_entries n.nodup_entries).2 fun e => by
      rw [mem_entries, mem_entries, h]
  exact ext_entries (hperm.eq_of_pairwise
    (fun a b _ _ hab hba => absurd (String.lt_trans hab hba) Std.lt_irrefl) m.ordered n.ordered)

theorem erase_of_absent {m : SortedMap α} {key : String} (h : m.find? key = none) :
    m.erase key = m := by
  refine ext_find? fun k => ?_
  rw [find?_erase]
  split
  case isTrue => rfl
  case isFalse heq =>
    obtain rfl : k = key := by simpa using heq
    exact h.symm

theorem erase_insert (m : SortedMap α) (key : String) (value : α) :
    (m.insert key value).erase key = m.erase key := by
  refine ext_find? fun k => ?_
  rw [find?_erase, find?_erase, find?_insert]
  split
  case isTrue hne => rw [if_neg (Ne.symm (bne_iff_ne.1 hne))]
  case isFalse => rfl

end SortedMap

namespace Json

/-- What holds of a value if it holds of all that the value contains. -/
theorem induction {P : Json → Prop} (null : P .null) (bool : ∀ b, P (.bool b))
    (num : ∀ n, P (.num n)) (str : ∀ s, P (.str s))
    (arr : ∀ items, (∀ v ∈ items, P v) → P (.arr items))
    (obj : ∀ entries, (∀ e ∈ entries, P e.2) → P (.obj entries)) (v : Json) : P v :=
  match v with
  | .null => null
  | .bool b => bool b
  | .num n => num n
  | .str s => str s
  | .arr items => arr items fun v _ => induction null bool num str arr obj v
  | .obj entries => obj entries fun e _ => induction null bool num str arr obj e.2
decreasing_by
  · simp_wf
    have hitem := List.sizeOf_lt_of_mem ‹_›
    omega
  · simp_wf
    have hentry := List.sizeOf_lt_of_mem ‹_›
    have hpair : sizeOf e = 1 + sizeOf e.1 + sizeOf e.2 := rfl
    omega

theorem canonicalItems_eq (items : List Json) : canonicalItems items = items.map canonical := by
  induction items with
  | nil => rfl
  | cons v rest ih => rw [canonicalItems, ih, List.map_cons]

theorem canonicalEntries_eq (entries : List (String × Json)) :
    canonicalEntries entries = entries.map fun e => (e.1, e.2.canonical) := by
  induction entries with
  | nil => rfl
  | cons e rest ih => rw [canonicalEntries, ih, List.map_cons]

def sortedEntries (entries : List (String × Json)) : SortedMap Json :=
  .ofList (canonicalEntries entries)

theorem canonical_obj (entries : List (String × Json)) :
    (Json.obj entries).canonical = .obj (sortedEntries entries).entries := by
  rw [canonical]
  rfl

theorem binding?_sortedEntries (entries : List (String × Json)) (key : String) :
    binding? key (sortedEntries entries).entries = (binding? key entries.reverse).map canonical := by
  rw [← SortedMap.find?_eq_binding?, sortedEntries, SortedMap.find?_ofList, canonicalEntries_eq,
    ← List.map_reverse, binding?_map]

theorem map_canonical {entries : List (String × Json)} (h : ∀ e ∈ entries, e.2.canonical = e.2)
    (key : String) : (binding? key entries).map canonical = binding? key entries := by
  cases hfound : binding? key entries with
  | none => rfl
  | some v => exact congrArg some (h _ (mem_of_binding? hfound))

theorem canonical_arr {items : List Json} (h : ∀ v ∈ items, v.canonical = v) :
    (Json.arr items).canonical = .arr items := by
  rw [canonical, canonicalItems_eq, List.map_congr_left h, List.map_id']

theorem canonicalEntries_of_canonical {entries : List (String × Json)}
    (h : ∀ e ∈ entries, e.2.canonical = e.2) : canonicalEntries entries = entries := by
  rw [canonicalEntries_eq]
  exact (List.map_congr_left fun e he => by rw [h e he]).trans (List.map_id' entries)

theorem canonical_sorted {entries : List (String × Json)}
    (hordered : entries.Pairwise (fun a b => a.1 < b.1)) (h : ∀ e ∈ entries, e.2.canonical = e.2) :
    (Json.obj entries).canonical = .obj entries := by
  rw [canonical_obj, sortedEntries, canonicalEntries_of_canonical h]
  exact congrArg (fun m => Json.obj m.entries) (SortedMap.ofList_entries ⟨entries, hordered⟩)

theorem forall_mem_sortedEntries {entries : List (String × Json)} {P : Json → Prop}
    (h : ∀ e ∈ entries, P e.2.canonical) : ∀ e ∈ (sortedEntries entries).entries, P e.2 := by
  intro e he
  have hbound := SortedMap.mem_entries.1 he
  rw [SortedMap.find?_eq_binding?, binding?_sortedEntries] at hbound
  obtain ⟨v, hv, heq⟩ := Option.map_eq_some_iff.1 hbound
  exact heq ▸ h (e.1, v) (List.mem_reverse.1 (mem_of_binding? hv))

theorem canonical_canonical (v : Json) : v.canonical.canonical = v.canonical := by
  induction v using induction with
  | null | bool | num | str => rfl
  | arr items ih =>
    rw [canonical, canonicalItems_eq]
    exact canonical_arr (List.forall_mem_map.2 ih)
  | obj entries ih =>
    rw [canonical_obj]
    exact canonical_sorted (sortedEntries entries).ordered
      (forall_mem_sortedEntries (P := fun v => v.canonical = v) ih)

end Json
end DocCompiler
