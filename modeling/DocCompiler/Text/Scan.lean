/-! Left-to-right scanning for marked-up places in a text. A recogniser looks at the front of
the remaining text; what it recognises becomes one piece, every other character is a piece of
its own, so matches never overlap and the leftmost one wins. -/

namespace DocCompiler.Text

/-- One step of a scan: a plain character or a recognised place. -/
inductive Piece (α : Type) where
  | plain (c : Char)
  | found (a : α)

/-- What a recogniser finds at the front of a text: a value, and how many characters it covers. -/
abbrev Recogniser (α : Type) := List Char → Option (α × Nat)

/-- The loop of `scan`: `skip` characters are already covered by the last place found, and
`done` holds the pieces so far, the latest first. -/
def scanLoop {α : Type} (recognise : Recogniser α) : Nat → List Char → List (Piece α) → List (Piece α)
  | _, [], done => done.reverse
  | skip + 1, _ :: cs, done => scanLoop recognise skip cs done
  | 0, c :: cs, done =>
    match recognise (c :: cs) with
    | some (a, size) => scanLoop recognise (size - 1) cs (.found a :: done)
    | none => scanLoop recognise 0 cs (.plain c :: done)

def scan {α : Type} (recognise : Recogniser α) (cs : List Char) : List (Piece α) :=
  scanLoop recognise 0 cs []

theorem scanLoop_eq {α : Type} (recognise : Recogniser α) (skip : Nat) (cs : List Char)
    (done : List (Piece α)) :
    scanLoop recognise skip cs done = done.reverse ++ scan recognise (cs.drop skip) := by
  induction cs generalizing skip done with
  | nil => simp [scanLoop, scan]
  | cons c cs ih =>
    cases skip with
    | succ skip => rw [scanLoop, ih, List.drop_succ_cons]
    | zero =>
      rw [List.drop_zero, scan]
      cases h : recognise (c :: cs) with
      | none => simp only [scanLoop, h, ih 0 (_ :: _)]; simp
      | some found => simp only [scanLoop, h, ih _ (_ :: _)]; simp

@[simp] theorem scan_nil {α : Type} (recognise : Recogniser α) : scan recognise [] = [] := rfl

theorem scan_cons_of_none {α : Type} {recognise : Recogniser α} {c : Char} {cs : List Char}
    (h : recognise (c :: cs) = none) :
    scan recognise (c :: cs) = .plain c :: scan recognise cs := by
  rw [scan, scanLoop, h]
  exact scanLoop_eq recognise 0 cs [.plain c]

theorem scan_cons_of_some {α : Type} {recognise : Recogniser α} {c : Char} {cs : List Char}
    {a : α} {size : Nat} (h : recognise (c :: cs) = some (a, size)) :
    scan recognise (c :: cs) = .found a :: scan recognise (cs.drop (size - 1)) := by
  rw [scan, scanLoop, h]
  exact scanLoop_eq recognise (size - 1) cs [.found a]

end DocCompiler.Text
