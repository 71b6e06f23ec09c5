/-! Finite binary floating-point numbers of 64 bits. A number is a sign and a magnitude, the
magnitude being the bit pattern below the sign bit; arithmetic is exact on ratios and then
rounded to the nearest magnitude, a tie going to the even one. -/

namespace DocCompiler.Json

/-- The bit of a significand that normal numbers have and that is not stored. -/
def Binary64.hiddenBit : Nat := 1 <<< 52

def Binary64.infinity : Nat := 2047 * hiddenBit

/-- A sign and the 63 bits below it; magnitudes are in the order of the values they stand for. -/
structure Binary64 where
  negative : Bool
  magnitude : Nat
  finite : magnitude < Binary64.infinity
  deriving DecidableEq

namespace Binary64

/-- The magnitude `x` stands for `significand x · 2 ^ exponent x`. -/
def significand (x : Nat) : Nat := if x < hiddenBit then x else x % hiddenBit + hiddenBit

def exponent (x : Nat) : Int := if x < hiddenBit then -1074 else (x / hiddenBit : Nat) - 1075

/-- A magnitude's value as numerator and denominator. -/
def ratio (x : Nat) : Nat × Nat :=
  (significand x <<< (exponent x).toNat, 1 <<< (-exponent x).toNat)

/-- `num / den` in units of `2 ^ q`, as numerator and denominator. -/
def inUnits (num den : Nat) (q : Int) : Nat × Nat :=
  (num <<< (-q).toNat, den <<< q.toNat)

/-- The quotient of two numbers rounded to the nearest integer, a half going to the even one. -/
def roundQuotient (num den : Nat) : Nat :=
  let whole := num / den
  let rest := 2 * (num % den)
  if den < rest || (rest == den && whole % 2 == 1) then whole + 1 else whole

/-- The magnitude nearest to `num / den`; `infinity` or above when that is too large. A
normal number has a significand of 53 bits, and no unit is finer than `2 ^ -1074`. -/
def nearest (num den : Nat) : Nat :=
  if num = 0 then 0 else
    let guess : Int := (num.log2 : Int) - den.log2 - 53
    let (a, b) := inUnits num den guess
    let unit := max (if a / b < 2 * hiddenBit then guess else guess + 1) (-1074)
    let (a, b) := inUnits num den unit
    (unit + 1074).toNat * hiddenBit + roundQuotient a b

def mul (x y : Nat) : Nat :=
  nearest ((ratio x).1 * (ratio y).1) ((ratio x).2 * (ratio y).2)

def div (x y : Nat) : Nat :=
  nearest ((ratio x).1 * (ratio y).2) ((ratio x).2 * (ratio y).1)

def powerOfTen (k : Nat) : Nat := nearest (Nat.pow 10 k) 1

def ofMagnitude? (negative : Bool) (x : Nat) : Option Binary64 :=
  if h : x < infinity then some ⟨negative, x, h⟩ else none

def zero (negative : Bool) : Binary64 := ⟨negative, 0, by decide⟩

end Binary64
end DocCompiler.Json
