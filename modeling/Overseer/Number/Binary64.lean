/-!
# Binary64 numbers

A binary64 number as what it stands for: not a number, an infinity, or a signed multiple of a power
of two. Zero keeps its sign. `ofRatio` rounds a quotient to the nearest such number, a tie to the
even mantissa.
-/

namespace Overseer.Number

/-- A binary64 number; `finite s m e` is `m * 2 ^ e`, negated if `s`. -/
inductive Binary64 where
  | nan
  | infinite (negative : Bool)
  | finite (negative : Bool) (mantissa : Nat) (exponent : Int)
  deriving DecidableEq, Repr

/-- The quotient of two natural numbers, rounded to the nearest, a tie to the even one. -/
def roundDiv (num den : Nat) : Nat :=
  let q := num / den
  let r := num % den
  if 2 * r < den then q else if den < 2 * r then q + 1 else q + q % 2

/-- The natural number scaled by a power of two, as a fraction `(numerator, denominator)`. -/
def scaleRatio (num den : Nat) (exponent : Int) : Nat × Nat :=
  (num * Nat.pow 2 exponent.toNat, den * Nat.pow 2 (-exponent).toNat)

/-- The exponent `e` with `2 ^ e ≤ num / den < 2 ^ (e + 1)`, for a positive quotient. -/
def floorLog2 (num den : Nat) : Int :=
  let e := (num.log2 : Int) - (den.log2 : Int)
  let (n, d) := scaleRatio num den (-e)
  if d ≤ n then e else e - 1

namespace Binary64

def minExponent : Int := -1074

def maxExponent : Int := 971

def ofRatio (negative : Bool) (num den : Nat) : Binary64 :=
  if num = 0 then .finite negative 0 minExponent
  else
    let e := max (floorLog2 num den - 52) minExponent
    let (n, d) := scaleRatio num den (-e)
    let m := roundDiv n d
    let (m, e) := if m = Nat.pow 2 53 then (Nat.pow 2 52, e + 1) else (m, e)
    if maxExponent < e then .infinite negative else .finite negative m e

def decimalLength (n : Nat) : Nat := (Nat.toDigits 10 n).length

/-- The decimal `digits * 10 ^ exponent`, negated if asked, rounded to the nearest number. Far
outside the range of the numbers the power is not formed. -/
def ofDecimal (negative : Bool) (digits : Nat) (exponent : Int) : Binary64 :=
  let reach := (decimalLength digits : Int) + exponent
  if digits = 0 ∨ reach < -330 then .finite negative 0 minExponent
  else if 310 < reach then .infinite negative
  else
    ofRatio negative (digits * Nat.pow 10 exponent.toNat) (Nat.pow 10 (-exponent).toNat)

def magnitude (m : Nat) (e : Int) : Rat :=
  mkRat (m * Nat.pow 2 e.toNat) (Nat.pow 2 (-e).toNat)

end Binary64

end Overseer.Number
