import DocCompiler.Json.Binary64

/-! Decimal notation of binary floating-point numbers: the shortest digits that stand for a
number, and the number that digits and an exponent stand for. -/

namespace DocCompiler.Json

/-- `digits · 10 ^ exponent`. -/
structure Decimal where
  digits : Nat
  exponent : Int
  deriving DecidableEq

namespace Decimal

/-- The values that round to a magnitude lie between its two halfway points. All three are
over the same denominator, and the ends belong to the interval when `closed`. -/
structure Interval where
  low : Nat
  value : Nat
  high : Nat
  den : Nat
  closed : Bool

/-- Below a power of two the next magnitude is only half as far away. -/
def Interval.of (x : Nat) : Interval :=
  let m := Binary64.significand x
  let q := Binary64.exponent x
  let scale := 1 <<< (q - 2).toNat
  let below := if m = Binary64.hiddenBit ∧ 2 * Binary64.hiddenBit ≤ x then 1 else 2
  ⟨(4 * m - below) * scale, 4 * m * scale, (4 * m + 2) * scale, 1 <<< (2 - q).toNat, m % 2 == 0⟩

def Interval.covers (i : Interval) (e : Int) (count : Nat) : Bool :=
  let scaled := fun n : Nat => n * Nat.pow 10 (-e).toNat
  let point := count * (i.den * Nat.pow 10 e.toNat)
  if i.closed then scaled i.low ≤ point && point ≤ scaled i.high
  else scaled i.low < point && point < scaled i.high

/-- The point of the grid of multiples of `10 ^ e` that lies in the interval and is nearest to
its value, if any; the even one of two that are equally near. Only the two neighbours of the
value can be in question. -/
def Interval.gridPoint? (i : Interval) (e : Int) : Option Nat :=
  let num := i.value * Nat.pow 10 (-e).toNat
  let den := i.den * Nat.pow 10 e.toNat
  let below := num / den
  match i.covers e below, i.covers e (below + 1) with
  | true, true =>
    let rest := 2 * (num % den)
    some (if rest < den || (rest == den && below % 2 == 0) then below else below + 1)
  | true, false => some below
  | false, true => some (below + 1)
  | false, false => none

/-- The `p` with `10 ^ p ≤ num / den < 10 ^ (p + 1)`. -/
def leadingExponent (num den : Nat) : Int :=
  if den ≤ num then ((Nat.toDigits 10 (num / den)).length : Int) - 1
  else -(((List.range 400).find? fun j => den ≤ num * Nat.pow 10 (j + 1)).getD 0 + 1 : Nat)

/-- The fewest digits that stand for a positive magnitude, and of those the nearest to it. -/
def shortest (x : Nat) : Decimal :=
  let i := Interval.of x
  let p := leadingExponent i.value i.den
  let found := (List.range 17).findSome? fun (k : Nat) =>
    (i.gridPoint? (p - k)).map fun digits => Decimal.mk digits (p - k)
  match found with
  | some d => if d.digits % 10 = 0 then ⟨d.digits / 10, d.exponent + 1⟩ else d
  | none => ⟨0, 0⟩

/-- Divides by `10 ^ k`, in steps of at most `10 ^ 308`, each of them rounded. -/
def scaleDown (x k : Nat) : Nat :=
  if k ≤ 308 then Binary64.div x (Binary64.powerOfTen k)
  else if x = 0 then 0
  else scaleDown (Binary64.div x (Binary64.powerOfTen 308)) (k - 308)
termination_by k

/-- The magnitude of `digits · 10 ^ exponent`: the digits are rounded first, then the product
or quotient with a rounded power of ten. Nothing when it is too large. -/
def magnitude? (d : Decimal) : Option Nat :=
  let x := Binary64.nearest d.digits 1
  if d.exponent < 0 then some (scaleDown x (-d.exponent).toNat)
  else if 308 < d.exponent then (if x = 0 then some 0 else none)
  else
    let y := Binary64.mul x (Binary64.powerOfTen d.exponent.toNat)
    if y < Binary64.infinity then some y else none

end Decimal
end DocCompiler.Json
