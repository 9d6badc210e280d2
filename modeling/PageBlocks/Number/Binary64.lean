/-!
# Finite binary64 numbers

A number that is not an integer is kept as the nearest binary64 value, written
as sign, significand and binary exponent. The form is canonical: the exponent
is as small as a 53-bit significand allows, and never below the smallest one of
the format. So two nonzero values are the same number exactly when they are
equal, and all arithmetic here is exact arithmetic on natural numbers with one
rounding, to nearest and ties to even.
-/

namespace PageBlocks

/-- The number `± significand · 2 ^ exponent`. -/
structure Binary64 where
  negative : Bool
  significand : Nat
  exponent : Int
deriving DecidableEq, Repr, Inhabited

namespace Binary64

/-- Exponent of the smallest positive value, shared by zero and all subnormal values. -/
def minExponent : Int := -1074

/-- Exponent of the largest values. -/
def maxExponent : Int := 971

/-- Significands stay below this. -/
def significandLimit : Nat := Nat.pow 2 53

/-- Zero of either sign. -/
def zero (negative : Bool) : Binary64 := ⟨negative, 0, minExponent⟩

def isZero (x : Binary64) : Bool := x.significand == 0

/-- The same number: the two zeros are, although they are written apart. -/
def same (x y : Binary64) : Bool := (x.isZero && y.isZero) || x == y

/-- The quotient rounded to the nearest integer, a tie to the even one. -/
def roundDiv (num den : Nat) : Nat :=
  let q := num / den
  let twice := 2 * (num % den)
  if twice < den then q
  else if den < twice then q + 1
  else if q % 2 = 0 then q else q + 1

/-- `num / den` scaled by `2 ^ -shift`, as one quotient of natural numbers. -/
def scaledRatio (num den : Nat) (shift : Int) : Nat × Nat :=
  if 0 ≤ shift then (num, den * Nat.pow 2 shift.toNat) else (num * Nat.pow 2 (-shift).toNat, den)

/-- The value nearest to `± num / den`, or nothing where that is beyond the largest value. -/
def ofRatio? (negative : Bool) (num den : Nat) : Option Binary64 :=
  if num = 0 ∨ den = 0 then some (zero negative)
  else
    let guess := max minExponent ((Nat.log2 num : Int) - Nat.log2 den - 53)
    let (n, d) := scaledRatio num den guess
    let exponent := if n / d < significandLimit then guess else guess + 1
    let (n, d) := scaledRatio num den exponent
    let rounded := roundDiv n d
    let (significand, exponent) :=
      if rounded < significandLimit then (rounded, exponent) else (rounded / 2, exponent + 1)
    if exponent ≤ maxExponent then some ⟨negative, significand, exponent⟩ else none

/-- The value nearest to `± digits · 10 ^ exponent`, or nothing where that is beyond the largest
value. Exponents far out of range are settled without computing the power. -/
def ofDecimal? (negative : Bool) (digits : Nat) (exponent : Int) : Option Binary64 :=
  if digits = 0 then some (zero negative)
  else if exponent > 400 then none
  else if exponent + (Nat.log2 digits : Int) < -1200 then some (zero negative)
  else if 0 ≤ exponent then ofRatio? negative (digits * Nat.pow 10 exponent.toNat) 1
  else ofRatio? negative digits (Nat.pow 10 (-exponent).toNat)

/-- The magnitude as a quotient of natural numbers. -/
def ratio (x : Binary64) : Nat × Nat :=
  if 0 ≤ x.exponent then (x.significand * Nat.pow 2 x.exponent.toNat, 1)
  else (x.significand, Nat.pow 2 (-x.exponent).toNat)

/-- The rounded product of the magnitudes, with the sign of the first factor. -/
def scaleUp? (x y : Binary64) : Option Binary64 :=
  ofRatio? x.negative (x.ratio.1 * y.ratio.1) (x.ratio.2 * y.ratio.2)

/-- The rounded quotient of the magnitudes, with the sign of the dividend. -/
def scaleDown? (x y : Binary64) : Option Binary64 :=
  ofRatio? x.negative (x.ratio.1 * y.ratio.2) (x.ratio.2 * y.ratio.1)

end Binary64

end PageBlocks
