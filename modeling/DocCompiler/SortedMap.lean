/-! Maps from strings, kept as a list of entries in increasing key order. Two maps with the same
bindings are equal. Main facts: `find?_insert` and `find?_ofList`. -/

namespace DocCompiler

/-- Bindings in strictly increasing key order. -/
structure SortedMap (α : Type) where
  entries : List (String × α)
  ordered : entries.Pairwise (fun a b => a.1 < b.1)

namespace SortedMap

variable {α β : Type}

theorem ext_entries {m n : SortedMap α} (h : m.entries = n.entries) : m = n := by
  cases m; cases n; cases h; rfl

def empty : SortedMap α := ⟨[], .nil⟩

instance : Inhabited (SortedMap α) := ⟨empty⟩
instance : EmptyCollection (SortedMap α) := ⟨empty⟩

/-- Puts a binding into its place; `onClash` picks between a new and a present value. -/
def place (onClash : α → α → α) (key : String) (value : α) : List (String × α) → List (String × α)
  | [] => [(key, value)]
  | (k, v) :: rest =>
    if key < k then (key, value) :: (k, v) :: rest
    else if key = k then (key, onClash value v) :: rest
    else (k, v) :: place onClash key value rest

theorem key_mem_of_mem_place {onClash : α → α → α} {key : String} {value : α}
    {l : List (String × α)} {e : String × α} (h : e ∈ place onClash key value l) :
    e.1 = key ∨ ∃ e' ∈ l, e'.1 = e.1 := by
  induction l with
  | nil => simp only [place, List.mem_singleton] at h; exact .inl (by rw [h])
  | cons hd tl ih =>
    obtain ⟨k, v⟩ := hd
    rw [place] at h
    split at h
    · rcases List.mem_cons.1 h with h | h
      · exact .inl (by rw [h])
      · exact .inr ⟨e, h, rfl⟩
    · split at h
      · rcases List.mem_cons.1 h with h | h
        · exact .inl (by rw [h])
        · exact .inr ⟨e, .tail _ h, rfl⟩
      · rcases List.mem_cons.1 h with h | h
        · exact .inr ⟨(k, v), .head _, by rw [h]⟩
        · rcases ih h with h | ⟨e', h, he⟩
          · exact .inl h
          · exact .inr ⟨e', .tail _ h, he⟩

theorem lt_of_not_lt_of_ne {a b : String} (h : ¬ a < b) (hne : a ≠ b) : b < a := by
  rcases Std.lt_trichotomy a b with h' | h' | h'
  · exact absurd h' h
  · exact absurd h' hne
  · exact h'

theorem pairwise_place {onClash : α → α → α} {key : String} {value : α} {l : List (String × α)}
    (h : l.Pairwise (fun a b => a.1 < b.1)) :
    (place onClash key value l).Pairwise (fun a b => a.1 < b.1) := by
  induction l with
  | nil => simp [place]
  | cons hd tl ih =>
    obtain ⟨k, v⟩ := hd
    obtain ⟨hk, htl⟩ := List.pairwise_cons.1 h
    rw [place]
    split
    case isTrue hlt =>
      refine List.pairwise_cons.2 ⟨fun e he => ?_, h⟩
      rcases List.mem_cons.1 he with rfl | he
      · exact hlt
      · exact String.lt_trans hlt (hk e he)
    case isFalse hlt =>
      split
      case isTrue heq => subst heq; exact List.pairwise_cons.2 ⟨hk, htl⟩
      case isFalse hne =>
        refine List.pairwise_cons.2 ⟨fun e he => ?_, ih htl⟩
        rcases key_mem_of_mem_place he with he | ⟨e', he', heq⟩
        · rw [he]; exact lt_of_not_lt_of_ne hlt hne
        · rw [← heq]; exact hk e' he'

def insert (m : SortedMap α) (key : String) (value : α) : SortedMap α :=
  ⟨place (fun new _ => new) key value m.entries, pairwise_place m.ordered⟩

def insertNew (m : SortedMap α) (key : String) (value : α) : SortedMap α :=
  ⟨place (fun _ old => old) key value m.entries, pairwise_place m.ordered⟩

/-- The bindings of a list, of which the last one for a key counts. -/
def ofList (l : List (String × α)) : SortedMap α :=
  l.foldr (fun e m => m.insertNew e.1 e.2) empty

def find? (m : SortedMap α) (key : String) : Option α :=
  (m.entries.find? (·.1 == key)).map (·.2)

def contains (m : SortedMap α) (key : String) : Bool := (m.find? key).isSome

def keys (m : SortedMap α) : List String := m.entries.map (·.1)

def erase (m : SortedMap α) (key : String) : SortedMap α :=
  ⟨m.entries.filter (·.1 != key), m.ordered.filter _⟩

def map (f : α → β) (m : SortedMap α) : SortedMap β :=
  ⟨m.entries.map (fun e => (e.1, f e.2)), by
    rw [List.pairwise_map]; exact m.ordered⟩

/-- The bindings of both maps, those of `above` where both have one. -/
def overlay (base above : SortedMap α) : SortedMap α :=
  above.entries.foldl (fun m e => m.insert e.1 e.2) base

theorem place_of_lt {onClash : α → α → α} {key : String} {value : α} {l : List (String × α)}
    (h : ∀ e ∈ l, key < e.1) : place onClash key value l = (key, value) :: l := by
  cases l with
  | nil => rfl
  | cons hd tl => rw [place, if_pos (h hd (.head _))]

theorem ofList_entries (m : SortedMap α) : ofList m.entries = m := by
  obtain ⟨l, h⟩ := m
  apply ext_entries
  induction l with
  | nil => rfl
  | cons hd tl ih =>
    obtain ⟨hk, htl⟩ := List.pairwise_cons.1 h
    have ih := ih htl
    simp only [ofList, List.foldr_cons, insertNew] at ih ⊢
    rw [ih]
    exact place_of_lt hk

theorem find?_place {onClash : α → α → α} {key : String} {value : α} {l : List (String × α)}
    (h : l.Pairwise (fun a b => a.1 < b.1)) (k : String) :
    ((place onClash key value l).find? (·.1 == k)).map (·.2) =
      if key = k then
        some (((l.find? (·.1 == k)).map (·.2)).elim value (onClash value))
      else (l.find? (·.1 == k)).map (·.2) := by
  induction l with
  | nil => by_cases hk : key = k <;> simp [place, hk]
  | cons hd tl ih =>
    obtain ⟨k', v⟩ := hd
    obtain ⟨hlt, htl⟩ := List.pairwise_cons.1 h
    have absent : key < k' → tl.find? (·.1 == key) = none := by
      intro hkey
      rw [List.find?_eq_none]
      intro e he heq
      have := String.lt_trans hkey (hlt e he)
      rw [beq_iff_eq.1 heq] at this
      exact Std.lt_irrefl this
    rw [place]
    split
    case isTrue hkey =>
      by_cases hk : key = k
      · subst hk
        have hne : (k' == key) = false := by
          rw [beq_eq_false_iff_ne]; intro h'; subst h'; exact Std.lt_irrefl hkey
        simp [hne, absent hkey]
      · simp [hk]
    case isFalse hkey =>
      split
      case isTrue heq =>
        subst heq
        by_cases hk : key = k <;> simp [hk]
      case isFalse hne =>
        by_cases hk' : k' = k
        · subst hk'; simp [hne]
        · simp [hk', ih htl]

@[simp] theorem find?_empty (k : String) : (empty : SortedMap α).find? k = none := rfl

theorem find?_insert (m : SortedMap α) (key : String) (value : α) (k : String) :
    (m.insert key value).find? k = if key = k then some value else m.find? k := by
  rw [find?, insert, find?_place m.ordered]
  split
  · cases (m.entries.find? (·.1 == k)).map (·.2) <;> rfl
  · rfl

theorem find?_insertNew (m : SortedMap α) (key : String) (value : α) (k : String) :
    (m.insertNew key value).find? k =
      if key = k then some ((m.find? k).getD value) else m.find? k := by
  rw [find?, insertNew, find?_place m.ordered, find?]
  split
  · cases (m.entries.find? (·.1 == k)).map (·.2) <;> rfl
  · rfl

end SortedMap
end DocCompiler
