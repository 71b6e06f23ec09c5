import DocCompiler.Proofs.Compile.Blocks
import DocCompiler.Proofs.Compile.Placeholders
import DocCompiler.Proofs.Text.Cuts

/-! Substitution as one pass over a text. The placeholders that stand in a text do not overlap, so
they cut it in one way only; values go between the gaps of this cut, and nothing that they bring
along is looked at. -/

namespace DocCompiler.Substitution

open Text (Cut)

variable {text key : String}

/-- The characters of keys: ASCII letters and digits, and three more. -/
def InKey (c : Char) : Prop :=
  'a' ≤ c ∧ c ≤ 'z' ∨ 'A' ≤ c ∧ c ≤ 'Z' ∨ '0' ≤ c ∧ c ≤ '9' ∨ c = '_' ∨ c = '.' ∨ c = '-'

theorem isKeyChar_iff {c : Char} : isKeyChar c = true ↔ InKey c := by
  have hchar : isKeyChar c =
      (c.isUpper || c.isLower || c.isDigit || c == '_' || c == '.' || c == '-') := rfl
  have hupper : c.isUpper = decide ('A' ≤ c ∧ c ≤ 'Z') := rfl
  have hlower : c.isLower = (decide ('a' ≤ c) && decide (c ≤ 'z')) := rfl
  have hdigit : c.isDigit = (decide ('0' ≤ c) && decide (c ≤ '9')) := rfl
  simp only [hchar, hupper, hlower, hdigit, Bool.or_eq_true, Bool.and_eq_true, decide_eq_true_eq,
    beq_iff_eq, InKey]
  tauto

/-- A placeholder stands in a text right behind these characters. -/
structure Occurs (text before : List Char) (key : String) : Prop where
  key_ne : key ≠ ""
  key_chars : ∀ c ∈ key.toList, InKey c
  here : before ++ (placeholder key).toList <+: text

theorem isKey_iff : IsKey key ↔ key ≠ "" ∧ ∀ c ∈ key.toList, InKey c := by
  have hne : key.toList ≠ [] ↔ key ≠ "" := by simp
  constructor
  · rintro ⟨hkey, hchars⟩
    exact ⟨hne.1 hkey, fun c hc => isKeyChar_iff.1 (hchars c hc)⟩
  · rintro ⟨hkey, hchars⟩
    exact ⟨hne.2 hkey, fun c hc => isKeyChar_iff.2 (hchars c hc)⟩

theorem matchesAt_iff {text before : List Char} :
    recognise.MatchesAt text before key ↔ Occurs text before key := by
  constructor
  · rintro ⟨rest, size, rfl, hmatch⟩
    obtain ⟨hkey, -, after, rfl⟩ := recognise_eq_some hmatch
    obtain ⟨hne, hchars⟩ := isKey_iff.1 hkey
    exact ⟨hne, hchars, after, by simp [toList_placeholder]⟩
  · rintro ⟨hne, hchars, after, rfl⟩
    exact ⟨_, _, List.append_assoc _ _ _, recognise_placeholder (isKey_iff.2 ⟨hne, hchars⟩) after⟩

def cut (text : String) : Cut String := .ofPieces (pieces text)

theorem marks_iff {c : Cut String} :
    c.Marks (fun key => (placeholder key).toList) (Occurs text.toList) text.toList ↔
      c = cut text := by
  have hoccurs : recognise.MatchesAt text.toList = Occurs text.toList :=
    funext fun _ => funext fun _ => propext matchesAt_iff
  rw [← hoccurs]
  exact Cut.marks_iff writes_recognise apart_recognise

/-- What stands for a placeholder: the value of its key, or else itself. -/
def standIn (values : Variables) (key : String) : List Char :=
  match values.find? key with
  | some value => value.rendered.toList
  | none => (placeholder key).toList

theorem toList_result_cut (text : String) (values : Variables) :
    (substitute text values).result.toList = (cut text).fill (standIn values) := by
  rw [toList_result, Cut.fill_eq, cut, Cut.pieces_ofPieces]
  refine List.flatMap_congr fun p _ => ?_
  cases p with
  | plain c => rfl
  | found key =>
    rw [replacement, Text.Piece.written, standIn]
    cases values.find? key <;> rfl

theorem mem_missing_cut {values : Variables} :
    key ∈ (substitute text values).missing ↔
      key ∈ (cut text).places ∧ values.find? key = none := by
  have hmissing : (substitute text values).missing =
      distinctSorted ((pieces text).filterMap (missing? values)) := rfl
  have habsent (key : String) : values.contains key = false ↔ values.find? key = none := by
    rw [SortedMap.contains, Option.isSome_eq_false_iff, Option.isNone_iff_eq_none]
  rw [hmissing, mem_distinctSorted, List.mem_filterMap, Cut.mem_places, cut, Cut.pieces_ofPieces]
  constructor
  · rintro ⟨p, hp, heq⟩
    cases p with
    | plain c => cases heq
    | found key' =>
      rw [missing?] at heq
      split at heq
      case isTrue => cases heq
      case isFalse hvalue =>
        cases heq
        exact ⟨hp, (habsent key).1 (by simpa using hvalue)⟩
  · rintro ⟨hp, hvalue⟩
    exact ⟨_, hp, by rw [missing?, (habsent key).2 hvalue]; rfl⟩

/-- **Substitution is one pass over a text.** The text is cut at all of its placeholders in one way
only, and none of them overlap. The result has the gaps as they are, and for each placeholder the
value of its key, or itself. The keys without a value are told in order, each of them once. -/
theorem substitute_fills_cut (text : String) (values : Variables) :
    ∃ c : Cut String,
      (∀ c' : Cut String, c'.Marks (fun key => (placeholder key).toList) (Occurs text.toList)
        text.toList ↔ c' = c) ∧
      (substitute text values).result.toList = c.fill (standIn values) ∧
      (∀ key, key ∈ (substitute text values).missing ↔
        key ∈ c.places ∧ values.find? key = none) ∧
      (substitute text values).missing.Pairwise (· < ·) ∧
      ∀ before key before' key', Occurs text.toList before key → Occurs text.toList before' key' →
        before = before' ∧ key = key' ∨ before ++ (placeholder key).toList <+: before' ∨
          before' ++ (placeholder key').toList <+: before := by
  refine ⟨cut text, fun c' => marks_iff, toList_result_cut text values,
    fun key => mem_missing_cut, pairwise_distinctSorted _, fun before key before' key' h h' => ?_⟩
  exact Text.apart_of_matchesAt writes_recognise apart_recognise (matchesAt_iff.2 h)
    (matchesAt_iff.2 h')

/-- Braces around a placeholder belong to the gaps, and a value that looks like a placeholder is
none. -/
example :
    let s := substitute
      ("\x7b\x7b\x7ba\x7d\x7d\x7d" ++ "\x7b\x7bb\x7d\x7d" ++ "ü\x7b\x7b a\x7d\x7d")
      (.ofList [("a", .text "\x7b\x7bb\x7d\x7d")])
    s.result = "\x7b\x7b\x7bb\x7d\x7d\x7d" ++ "\x7b\x7bb\x7d\x7d" ++ "ü\x7b\x7b a\x7d\x7d" ∧
      s.missing = ["b"] := by
  decide +kernel

end DocCompiler.Substitution
