import DocCompiler.Proofs.Compile.NormalForm

/-! The line ending of a document. It is decided once the document has its text, so two requests that
differ in their settings alone compile to the same up to the ends of their lines, and each markdown
comes from the other by replacing the ends. -/

namespace DocCompiler

namespace Text

variable {old : List Char}

def Recogniser.exactly (old : List Char) : Recogniser Unit := fun cs =>
  if old.isPrefixOf cs then some ((), old.length) else none

/-- A text with `new` for every place where `old` stands; from the left, and no two of these places
overlap. -/
def replace (old new cs : List Char) : List Char :=
  (scan (.exactly old) cs).flatMap (Piece.written fun _ => new)

theorem replace_cons_of_not_prefix (new : List Char) {c : Char} {cs : List Char}
    (h : ¬ old <+: c :: cs) : replace old new (c :: cs) = c :: replace old new cs := by
  have hnone : Recogniser.exactly old (c :: cs) = none := by
    rw [Recogniser.exactly, if_neg (mt List.isPrefixOf_iff_prefix.1 h)]
  rw [replace, scan_cons_of_none hnone]
  rfl

theorem replace_append (new : List Char) (h : old ≠ []) (cs : List Char) :
    replace old new (old ++ cs) = new ++ replace old new cs := by
  obtain ⟨c, rest, rfl⟩ := List.exists_cons_of_ne_nil h
  have hsome : Recogniser.exactly (c :: rest) (c :: (rest ++ cs)) = some ((), rest.length + 1) :=
    if_pos (List.isPrefixOf_iff_prefix.2 (List.prefix_append (c :: rest) cs))
  rw [replace, List.cons_append, scan_cons_of_some hsome, Nat.add_sub_cancel, List.drop_left]
  rfl

theorem replace_singleton (old : Char) (new cs : List Char) :
    replace [old] new cs = cs.flatMap fun c => if c = old then new else [c] := by
  induction cs with
  | nil => rfl
  | cons c cs ih =>
    rw [List.flatMap_cons, ← ih]
    by_cases hc : c = old
    · rw [if_pos hc, hc]
      exact replace_append new (List.cons_ne_nil old []) cs
    · rw [if_neg hc]
      apply replace_cons_of_not_prefix
      rintro ⟨rest, hrest⟩
      exact hc (List.cons.inj hrest).1.symm

theorem not_prefix_replace_lf {mark : Char} (hmark : mark ≠ '\n') (cs : List Char) :
    ¬ ['\n'] <+: replace ['\n'] [mark, '\n'] cs := by
  rw [replace_singleton]
  rintro ⟨rest, hrest⟩
  cases cs with
  | nil => cases hrest
  | cons c cs =>
    rw [List.flatMap_cons] at hrest
    split at hrest
    · exact hmark (List.cons.inj hrest).1.symm
    · next hc => exact hc (List.cons.inj hrest).1.symm

/-- A mark put before every line feed can be taken away again, also where the text had marks of its
own: of several before one line feed only the last is taken. -/
theorem replace_replace_lf {mark : Char} (hmark : mark ≠ '\n') (cs : List Char) :
    replace [mark, '\n'] ['\n'] (replace ['\n'] [mark, '\n'] cs) = cs := by
  induction cs with
  | nil => rfl
  | cons c cs ih =>
    by_cases hc : c = '\n'
    · subst hc
      have hends := replace_append [mark, '\n'] (List.cons_ne_nil '\n' []) cs
      rw [List.singleton_append] at hends
      rw [hends, replace_append ['\n'] (List.cons_ne_nil mark ['\n']), ih]
      rfl
    · have hkept : replace ['\n'] [mark, '\n'] (c :: cs) = c :: replace ['\n'] [mark, '\n'] cs := by
        apply replace_cons_of_not_prefix
        rintro ⟨rest, hrest⟩
        exact hc (List.cons.inj hrest).1.symm
      rw [hkept, replace_cons_of_not_prefix, ih]
      rintro ⟨rest, hrest⟩
      exact not_prefix_replace_lf hmark cs ⟨rest, (List.cons.inj hrest).2⟩

end Text

def CompileRequest.withSettings (r : CompileRequest) (settings : SortedMap Json) : CompileRequest :=
  { r with document := { r.document with settings } }

namespace Compile

open Formatting (Filter)

theorem toList_endLines_crlf (text : String) :
    (endLines .crlf text).toList = Text.replace ['\n'] ['\r', '\n'] text.toList := by
  rw [Text.replace_singleton, endLines, String.toList_ofList]

section Settings

variable (r : CompileRequest) (settings : SortedMap Json)

theorem diagnostics_withSettings :
    (compileDocument (r.withSettings settings)).diagnostics = (compileDocument r).diagnostics := rfl

theorem provenance_withSettings :
    (compileDocument (r.withSettings settings)).provenance = (compileDocument r).provenance := rfl

theorem preflight_withSettings :
    (compileDocument (r.withSettings settings)).preflight = (compileDocument r).preflight := rfl

theorem markdown_withSettings :
    (compileDocument (r.withSettings settings)).markdown =
      endLines (r.withSettings settings).document.lineEnding
        (assemble Filter.builtin .lf (r.document.orderedBlocks.map (textIn r))) := by
  rw [markdown_compileDocument]
  rfl

theorem words_markdown_withSettings :
    Text.words (compileDocument (r.withSettings settings)).markdown.toList =
      Text.words (assemble Filter.builtin .lf (r.document.orderedBlocks.map (textIn r))).toList := by
  rw [markdown_withSettings, words_endLines]

end Settings

/-- **The line ending changes nothing but the ends of lines.** Of two requests that differ in their
settings alone (in `newline`, and be it in others), let one ask for CRLF and the other for LF. Then
the markdown of the first is that of the second with CRLF for every LF, and the other way round;
text, diagnostics, provenance and preflight are the same. -/
theorem compileDocument_lineEnding (r : CompileRequest) {crlf lf : SortedMap Json}
    (hcrlf : (r.withSettings crlf).document.lineEnding = .crlf)
    (hlf : (r.withSettings lf).document.lineEnding = .lf) :
    let inCrlf := compileDocument (r.withSettings crlf)
    let inLf := compileDocument (r.withSettings lf)
    inCrlf.markdown.toList = Text.replace ['\n'] ['\r', '\n'] inLf.markdown.toList ∧
      Text.replace ['\r', '\n'] ['\n'] inCrlf.markdown.toList = inLf.markdown.toList ∧
      inCrlf.text = inLf.text ∧ inCrlf.diagnostics = inLf.diagnostics ∧
      inCrlf.provenance = inLf.provenance ∧ inCrlf.preflight = inLf.preflight := by
  intro inCrlf inLf
  have hends : inCrlf.markdown.toList = Text.replace ['\n'] ['\r', '\n'] inLf.markdown.toList := by
    rw [markdown_withSettings, markdown_withSettings, hcrlf, hlf]
    exact toList_endLines_crlf _
  have hback : Text.replace ['\r', '\n'] ['\n'] inCrlf.markdown.toList = inLf.markdown.toList := by
    rw [hends]
    exact Text.replace_replace_lf (by decide) _
  have htext : inCrlf.text = inLf.text := by
    rw [text_eq_flatten, text_eq_flatten, Text.flatten, Text.flatten, words_markdown_withSettings,
      words_markdown_withSettings]
  have hdiagnostics : inCrlf.diagnostics = inLf.diagnostics := by
    rw [diagnostics_withSettings, diagnostics_withSettings]
  have hprovenance : inCrlf.provenance = inLf.provenance := by
    rw [provenance_withSettings, provenance_withSettings]
  have hpreflight : inCrlf.preflight = inLf.preflight := by
    rw [preflight_withSettings, preflight_withSettings]
  exact ⟨hends, hback, htext, hdiagnostics, hprovenance, hpreflight⟩

/-- A text with a carriage return inside a line, and one more before a line's end. -/
theorem compileDocument_lineEnding_untidy :
    let crlf := untidy.document.settings
    let lf := untidy.document.settings.insert "newline" (.str "\n")
    (untidy.withSettings crlf).document.lineEnding = .crlf ∧
      (untidy.withSettings lf).document.lineEnding = .lf ∧
      Text.replace ['\r', '\n'] ['\n'] (compileDocument (untidy.withSettings crlf)).markdown.toList =
        (compileDocument (untidy.withSettings lf)).markdown.toList := by
  intro crlf lf
  have hcrlf : (untidy.withSettings crlf).document.lineEnding = .crlf := by decide
  have hlf : (untidy.withSettings lf).document.lineEnding = .lf := by decide
  exact ⟨hcrlf, hlf, (compileDocument_lineEnding untidy hcrlf hlf).2.1⟩

end Compile
end DocCompiler
