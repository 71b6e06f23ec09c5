import DocCompiler.Formatting.Filter

/-! The words of a text under joining, trimming and the whitespace filter. All follows from one
equation: a blank separates the words before it from those behind it. -/

namespace DocCompiler.Text

section Parts

variable {isSep : Char → Bool}

theorem splitBy_append_cons {c : Char} (hc : isSep c = true) (a b : List Char) :
    splitBy isSep (a ++ c :: b) = splitBy isSep a ++ splitBy isSep b := by
  induction a with
  | nil => rw [List.nil_append, splitBy_cons, if_pos hc, splitBy_nil, List.singleton_append]
  | cons d a ih =>
    rw [List.cons_append, splitBy_cons, splitBy_cons, ih]
    split
    · rfl
    · obtain ⟨p, ps, hparts⟩ := List.exists_cons_of_ne_nil (splitBy_ne_nil isSep a)
      rw [hparts]
      rfl

theorem intercalate_splitBy (sep cs : List Char) :
    sep.intercalate (splitBy isSep cs) = cs.flatMap fun c => if isSep c then sep else [c] := by
  induction cs with
  | nil => rfl
  | cons c cs ih =>
    obtain ⟨p, ps, hparts⟩ := List.exists_cons_of_ne_nil (splitBy_ne_nil isSep cs)
    rw [splitBy_cons, List.flatMap_cons, ← ih, hparts]
    split
    · rw [List.intercalate_cons_cons, List.nil_append]
    · cases ps <;> simp [List.intercalate_cons_cons]

end Parts

theorem unlines_lines (cs : List Char) : unlines (lines cs) = cs := by
  rw [unlines, lines, intercalate_splitBy]
  induction cs with
  | nil => rfl
  | cons c cs ih =>
    rw [List.flatMap_cons, ih]
    split <;> simp_all

theorem words_append_cons {c : Char} (hc : isBlank c = true) (a b : List Char) :
    words (a ++ c :: b) = words a ++ words b := by
  rw [words, splitBy_append_cons hc, List.filter_append]
  rfl

@[simp] theorem words_nil : words [] = [] := rfl

theorem ne_nil_of_mem_words {cs w : List Char} (h : w ∈ words cs) : w ≠ [] := by
  simpa using (List.mem_filter.1 h).2

section Blanks

variable {blanks : List Char} (hblanks : ∀ c ∈ blanks, isBlank c = true)

include hblanks

theorem words_blanks_append (cs : List Char) : words (blanks ++ cs) = words cs := by
  induction blanks with
  | nil => rfl
  | cons c blanks ih =>
    rw [List.cons_append]
    exact (words_append_cons (hblanks c (.head _)) [] _).trans
      (ih fun d hd => hblanks d (.tail _ hd))

theorem words_append_blanks (cs : List Char) : words (cs ++ blanks) = words cs := by
  cases blanks with
  | nil => rw [List.append_nil]
  | cons c blanks =>
    have hrest := words_blanks_append (fun d hd => hblanks d (.tail _ hd)) []
    rw [List.append_nil] at hrest
    rw [words_append_cons (hblanks c (.head _)), hrest, words_nil, List.append_nil]

theorem words_intercalate (hne : blanks ≠ []) (texts : List (List Char)) :
    words (blanks.intercalate texts) = texts.flatMap words := by
  induction texts with
  | nil => rfl
  | cons t rest ih =>
    cases rest with
    | nil => simp
    | cons u rest =>
      obtain ⟨c, cs, rfl⟩ := List.exists_cons_of_ne_nil hne
      rw [List.intercalate_cons_cons, List.append_assoc, List.cons_append,
        words_append_cons (hblanks c (.head _)),
        words_blanks_append (fun d hd => hblanks d (.tail _ hd)), ih]
      rfl

end Blanks

theorem words_unlines (ls : List (List Char)) : words (unlines ls) = ls.flatMap words :=
  words_intercalate (List.all_eq_true.1 rfl) (by decide) ls

theorem words_eq_flatMap_lines (cs : List Char) : words cs = (lines cs).flatMap words := by
  rw [← words_unlines, unlines_lines]

theorem words_trimEnd (cs : List Char) : words (trimEnd cs) = words cs := by
  have hsplit : cs = trimEnd cs ++ (cs.reverse.takeWhile isBlank).reverse := by
    rw [trimEnd, ← List.reverse_append, List.takeWhile_append_dropWhile, List.reverse_reverse]
  have hblanks : ∀ c ∈ (cs.reverse.takeWhile isBlank).reverse, isBlank c = true := by
    intro c hc
    exact List.all_eq_true.1 List.all_takeWhile c (List.mem_reverse.1 hc)
  conv => rhs; rw [hsplit, words_append_blanks hblanks]

section Flatten

theorem intercalate_eq_empty {ws : List String} (h : ∀ w ∈ ws, w ≠ "") :
    " ".intercalate ws = "" ↔ ws = [] := by
  cases ws with
  | nil => simp
  | cons w rest =>
    have hw := h w (.head _)
    cases rest with
    | nil => simpa using hw
    | cons v rest => simp [String.intercalate_cons_cons, hw]

/-- Words in groups: those of each group are joined first, and groups without any left out. -/
theorem intercalate_flatMap {α : Type} (groups : List α) (f : α → List String)
    (h : ∀ a ∈ groups, ∀ w ∈ f a, w ≠ "") :
    " ".intercalate (groups.flatMap f) =
      " ".intercalate ((groups.map fun a => " ".intercalate (f a)).filter (!·.isEmpty)) := by
  induction groups with
  | nil => rfl
  | cons a groups ih =>
    have hrest := ih fun a ha => h a (.tail _ ha)
    have hne : ∀ t ∈ (groups.map fun a => " ".intercalate (f a)).filter (!·.isEmpty), t ≠ "" := by
      intro t ht
      simpa using (List.mem_filter.1 ht).2
    have hnil : groups.flatMap f = [] ↔
        (groups.map fun a => " ".intercalate (f a)).filter (!·.isEmpty) = [] := by
      rw [← intercalate_eq_empty hne, ← hrest, intercalate_eq_empty]
      intro w hw
      obtain ⟨b, hb, hw⟩ := List.mem_flatMap.1 hw
      exact h b (.tail _ hb) w hw
    rw [List.flatMap_cons, List.map_cons, List.filter_cons]
    by_cases hfirst : f a = []
    · simp only [hfirst, List.nil_append, String.intercalate_nil]
      exact hrest
    · have hjoined : " ".intercalate (f a) ≠ "" := fun heq =>
        hfirst ((intercalate_eq_empty (h a (.head _))).1 heq)
      rw [if_pos (by simpa using hjoined)]
      by_cases hlast : groups.flatMap f = []
      · rw [hlast, hnil.1 hlast, List.append_nil, String.intercalate_singleton]
      · rw [String.intercalate_append_of_ne_nil hfirst hlast, hrest,
          String.intercalate_cons_of_ne_nil fun heq => hlast (hnil.2 heq)]

theorem flatten_eq_of_words {text : String} {parts : List String}
    (h : words text.toList = parts.flatMap fun p => words p.toList) :
    flatten text = " ".intercalate ((parts.map flatten).filter (!·.isEmpty)) := by
  have hne : ∀ p ∈ parts, ∀ w ∈ (words p.toList).map String.ofList, w ≠ "" := by
    intro p _ w hw
    obtain ⟨cs, hcs, rfl⟩ := List.mem_map.1 hw
    simpa using ne_nil_of_mem_words hcs
  rw [flatten, h, List.map_flatMap, intercalate_flatMap _ _ hne]
  rfl

end Flatten

end DocCompiler.Text

namespace DocCompiler.Formatting

open Text

theorem flatMap_words_capBlankLines (run : Nat) (ls : List (List Char)) :
    (capBlankLines run ls).flatMap words = ls.flatMap words := by
  induction ls generalizing run with
  | nil => rfl
  | cons l ls ih =>
    rw [capBlankLines]
    split
    case isTrue hempty =>
      obtain rfl : l = [] := List.isEmpty_iff.1 hempty
      split
      · rw [List.flatMap_cons, List.flatMap_cons, ih]
      · rw [List.flatMap_cons, ih, words_nil, List.nil_append]
    case isFalse => rw [List.flatMap_cons, List.flatMap_cons, ih]

theorem words_tidyChars (cs : List Char) : words (tidyChars cs) = words cs := by
  rw [tidyChars, words_unlines, flatMap_words_capBlankLines, words_eq_flatMap_lines cs]
  simp only [List.flatMap_map, words_trimEnd]

end DocCompiler.Formatting
