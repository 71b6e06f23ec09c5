import DocCompiler.Text.Lines

/-! The whitespace filter: no line ends in a blank, and of several blank lines on end only two
are kept. -/

namespace DocCompiler.Formatting

def maxBlankLines : Nat := 2

/-- Drops the empty lines that follow `maxBlankLines` others; `run` of them came just before. -/
def capBlankLines : Nat → List (List Char) → List (List Char)
  | _, [] => []
  | run, line :: rest =>
    if line.isEmpty then
      if run < maxBlankLines then line :: capBlankLines (run + 1) rest
      else capBlankLines run rest
    else line :: capBlankLines 0 rest

def tidyChars (cs : List Char) : List Char :=
  Text.unlines (capBlankLines 0 ((Text.lines cs).map Text.trimEnd))

def tidyWhitespace (text : String) : String := String.ofList (tidyChars text.toList)

end DocCompiler.Formatting
