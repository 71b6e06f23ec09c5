import DocCompiler.Json.Basic

/-! The text of JSON numbers. -/

namespace DocCompiler.Json

/-- Digits with a point after the first `point` of them; there is at least one digit on each
side of the point. -/
def Decimal.positional (digits : List Char) (point : Int) : List Char :=
  if point ≤ 0 then '0' :: '.' :: List.replicate (-point).toNat '0' ++ digits
  else
    let whole := digits.take point.toNat ++ List.replicate (point.toNat - digits.length) '0'
    let rest := digits.drop point.toNat
    whole ++ '.' :: (if rest.isEmpty then ['0'] else rest)

/-- One digit, the others behind a point, and the exponent with its sign. -/
def Decimal.scientific (digits : List Char) (exponent : Int) : List Char :=
  let mantissa := match digits with
    | d :: [] => [d]
    | d :: rest => d :: '.' :: rest
    | [] => []
  let sign := if exponent < 0 then '-' else '+'
  mantissa ++ 'e' :: sign :: Nat.toDigits 10 exponent.natAbs

/-- Positional from `10 ^ -5` up to below `10 ^ 16`, scientific outside. -/
def Decimal.text (d : Decimal) : List Char :=
  let digits := Nat.toDigits 10 d.digits
  let leading := d.exponent + digits.length - 1
  if -5 ≤ leading ∧ leading < 16 then positional digits (leading + 1)
  else scientific digits leading

/-- The shortest digits that read back as the same number. -/
def Binary64.text (x : Binary64) : List Char :=
  let body := if x.magnitude = 0 then ['0', '.', '0'] else (Decimal.shortest x.magnitude).text
  if x.negative then '-' :: body else body

def Number.text : Number → List Char
  | .int n =>
    let digits := Nat.toDigits 10 n.natAbs
    if n < 0 then '-' :: digits else digits
  | .float x => x.text

end DocCompiler.Json
