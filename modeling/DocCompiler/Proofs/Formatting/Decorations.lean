import DocCompiler.Formatting.Builtin
import DocCompiler.Proofs.Formatting.Fence

/-! The lines that formatters put around a text. Fenced code is the lines of the text between two
others, and a callout is a header over the lines of a quotation, as long as the language and the
title are on one line; the type of a callout is, since it keeps letters, digits and two marks only.
A line feed in the language or within the title goes into the output as it is, and what stands
behind it is outside the opening of the fence, or outside the quotation. -/

namespace DocCompiler.Formatting

open Text

section Quotation

theorem head?_quoteLine (line : List Char) : (quoteLine line).head? = some '>' := by
  rw [quoteLine]
  split <;> rfl

theorem not_mem_quoteLine {line : List Char} (h : '\n' ∉ line) : '\n' ∉ quoteLine line := by
  rw [quoteLine]
  split <;> simp [h]

theorem lines_quoteLines (text : String) :
    lines (quoteLines text).toList = (lines text.toList).map quoteLine := by
  have hne : (lines text.toList).map quoteLine ≠ [] := by
    rw [Ne, List.map_eq_nil_iff]
    exact splitBy_ne_nil _ _
  rw [quoteLines, String.toList_ofList, lines_unlines hne]
  simp only [List.mem_map, forall_exists_index, and_imp, forall_apply_eq_imp_iff₂]
  exact fun line hline => not_mem_quoteLine (not_mem_of_mem_lines hline)

end Quotation

section Header

variable (m : BlockMetadata)

def calloutKind : String :=
  ((m.option? "calloutType").bind fun raw =>
    nonEmpty? (String.ofList ((sanitizeTag raw).toList.map Char.toUpper))).getD "NOTE"

/-- The title of a callout, without the blanks around it. -/
def calloutTitle : List Char := trim ((m.option? "title").getD "").toList

theorem toUpper_ne {c : Char} (h : c ≠ '\n') : c.toUpper ≠ '\n' := by
  intro hupper
  by_cases hlower : 'a'.val ≤ c.val ∧ c.val ≤ 'z'.val
  · have hchar : c.toUpper = _ := dif_pos hlower
    have hnat := congrArg Char.toNat (hupper.symm.trans hchar)
    rw [Char.toNat, Char.toNat, UInt32.toNat_add] at hnat
    have hshift : ('A'.val - 'a'.val).toNat = 2 ^ 32 - 32 := by decide
    have hline : '\n'.val.toNat = 10 := rfl
    have hle : 97 ≤ c.val.toNat := hlower.1
    have hlt : c.val.toNat < 2 ^ 32 := c.val.toNat_lt
    omega
  · exact h ((dif_neg hlower).symm.trans hupper)

theorem not_mem_sanitizeTag (raw : String) : '\n' ∉ (sanitizeTag raw).toList := by
  rw [sanitizeTag, String.toList_ofList, List.mem_filter]
  exact fun h => absurd h.2 (by decide)

theorem not_mem_calloutKind : '\n' ∉ (calloutKind m).toList := by
  rw [calloutKind]
  cases h : (m.option? "calloutType").bind _ with
  | none => decide
  | some kind =>
    obtain ⟨raw, -, hkind⟩ := Option.bind_eq_some_iff.1 h
    rw [nonEmpty?, Option.ite_none_left_eq_some, Option.some.injEq] at hkind
    rw [Option.getD_some, ← hkind.2, String.toList_ofList, List.mem_map]
    rintro ⟨c, hc, hupper⟩
    exact toUpper_ne (fun heq => not_mem_sanitizeTag raw (heq ▸ hc)) hupper

theorem toList_calloutHeader : (calloutHeader m).toList =
    '>' :: ' ' :: '[' :: '!' :: ((calloutKind m).toList ++
      ']' :: if (calloutTitle m).isEmpty then [] else ' ' :: calloutTitle m) := by
  rw [calloutHeader, calloutTitle]
  cases m.option? "title" with
  | none => simp [trim, trimStart, trimEnd, calloutKind]
  | some title =>
    rw [Option.bind_some, nonEmpty?, Option.getD_some]
    cases htrim : trim title.toList <;> simp [calloutKind]

theorem mem_calloutHeader : '\n' ∈ (calloutHeader m).toList ↔ '\n' ∈ calloutTitle m := by
  rw [toList_calloutHeader]
  cases htitle : calloutTitle m <;> simp [not_mem_calloutKind m]

end Header

section Lines

variable (text : String) (m : BlockMetadata)

/-- Fenced code is one line, the lines of the text as they are, and one line. -/
def CodeKeepsToLines : Prop :=
  ∃ opening closing, lines (Builtin.code.format text m).toList =
    opening :: (lines text.toList ++ [closing])

/-- A callout is one line and then one for each line of the text, and each begins as a quotation
does. -/
def CalloutKeepsToLines : Prop :=
  ∃ header quoted, lines (Builtin.callout.format text m).toList = header :: quoted ∧
    quoted.length = (lines text.toList).length ∧
    ∀ line ∈ header :: quoted, line.head? = some '>'

theorem lines_code : lines (Builtin.code.format text m).toList =
    lines (List.replicate (fenceSize text) tick ++ (m.language.getD "").toList) ++
      (lines text.toList ++ [List.replicate (fenceSize text) tick]) := lines_fence _ _

variable {text}

theorem lines_callout (htext : text ≠ "") : lines (Builtin.callout.format text m).toList =
    lines (calloutHeader m).toList ++ (lines text.toList).map quoteLine := by
  have hformat : Builtin.callout.format text m = calloutHeader m ++ "\n" ++ quoteLines text :=
    if_neg (mt String.isEmpty_iff.1 htext)
  have hlist : (calloutHeader m ++ "\n" ++ quoteLines text).toList =
      (calloutHeader m).toList ++ '\n' :: (quoteLines text).toList := by simp
  rw [hformat, hlist, lines_append_cons, lines_quoteLines]

theorem codeKeepsToLines_iff :
    CodeKeepsToLines text m ↔ '\n' ∉ (m.language.getD "").toList := by
  rw [CodeKeepsToLines, lines_code]
  constructor
  · rintro ⟨opening, closing, heq⟩ hmem
    have hlength := congrArg List.length heq
    simp only [List.length_append, List.length_cons, List.length_nil] at hlength
    have hopening : (lines (List.replicate (fenceSize text) tick ++
        (m.language.getD "").toList)).length = 1 := by omega
    exact length_lines_eq_one_iff.1 hopening (List.mem_append_right _ hmem)
  · intro h
    have hopening := List.not_mem_append (not_mem_ticks (fenceSize text)) h
    exact ⟨_, _, by rw [lines_of_not_mem hopening]; rfl⟩

theorem calloutKeepsToLines_iff (htext : text ≠ "") :
    CalloutKeepsToLines text m ↔ '\n' ∉ calloutTitle m := by
  rw [CalloutKeepsToLines, lines_callout m htext, ← mem_calloutHeader]
  constructor
  · rintro ⟨header, quoted, heq, hlength, -⟩
    have htotal := congrArg List.length heq
    simp only [List.length_append, List.length_map, List.length_cons] at htotal
    exact length_lines_eq_one_iff.1 (by omega)
  · intro h
    refine ⟨_, _, by rw [lines_of_not_mem h]; rfl, List.length_map quoteLine, ?_⟩
    refine List.forall_mem_cons.2 ⟨?_, ?_⟩
    · rw [toList_calloutHeader]
      rfl
    · simp [head?_quoteLine]

/-- **Decorations stay on their own lines if the language and the title do.** The lines of fenced
code are those of its opening, those of the text as they are, and one of as many ticks as the
opening begins with; the lines of a callout are those of its header and one for each line of the
text. The opening is one line if and only if the language is, and the header if and only if the
title without the blanks around it is; the type of a callout does not matter. -/
theorem decorations_keep_to_lines (htext : text ≠ "") :
    lines (Builtin.code.format text m).toList =
      lines (List.replicate (fenceSize text) tick ++ (m.language.getD "").toList) ++
        (lines text.toList ++ [List.replicate (fenceSize text) tick]) ∧
    (CodeKeepsToLines text m ↔ '\n' ∉ (m.language.getD "").toList) ∧
    lines (Builtin.callout.format text m).toList =
      lines (calloutHeader m).toList ++ (lines text.toList).map quoteLine ∧
    (CalloutKeepsToLines text m ↔ '\n' ∉ calloutTitle m) :=
  ⟨lines_code text m, codeKeepsToLines_iff m, lines_callout m htext,
    calloutKeepsToLines_iff m htext⟩

def warning : BlockMetadata :=
  ((BlockMetadata.ofFormatter "callout").withOption "title" (.str " Hot\n")).withOption "calloutType"
    (.str "war\nning!")

theorem decorations_keep_to_lines_warning :
    "Do not\ntouch" ≠ "" ∧ CalloutKeepsToLines "Do not\ntouch" warning ∧
      calloutHeader warning = "> [!WARNING] Hot" ∧ CodeKeepsToLines "Do not\ntouch" warning := by
  have htext : "Do not\ntouch" ≠ "" := by decide
  obtain ⟨-, hcode, -, hcallout⟩ := decorations_keep_to_lines warning htext
  exact ⟨htext, hcallout.2 (by decide +kernel), by decide +kernel, hcode.2 (by decide)⟩

/-- A line feed within a language, and one within a title: neither output keeps to its lines. -/
theorem decorations_break_lines :
    ¬ CodeKeepsToLines "x" ((BlockMetadata.ofFormatter "code").withLanguage "md\nnote") ∧
      ¬ CalloutKeepsToLines "x"
        ((BlockMetadata.ofFormatter "callout").withOption "title" (.str "a\nb")) := by
  rw [codeKeepsToLines_iff, calloutKeepsToLines_iff _ (by decide)]
  decide +kernel

end Lines
end DocCompiler.Formatting
