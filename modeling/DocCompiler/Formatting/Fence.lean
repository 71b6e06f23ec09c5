/-! Fenced code: a fence has at least three ticks, and more than any run of ticks within. -/

namespace DocCompiler.Formatting

def tick : Char := '\x60'

/-- The longest run so far and the run that is under way. -/
def countTick (longest current : Nat) (c : Char) : Nat × Nat :=
  if c = tick then (max longest (current + 1), current + 1) else (longest, 0)

def longestTickRun (cs : List Char) : Nat :=
  (cs.foldl (fun runs c => countTick runs.1 runs.2 c) (0, 0)).1

def fenceSize (text : String) : Nat := max (longestTickRun text.toList + 1) 3

def fence (text language : String) : String :=
  let ticks := String.ofList (List.replicate (fenceSize text) tick)
  ticks ++ language ++ "\n" ++ text ++ "\n" ++ ticks

end DocCompiler.Formatting
