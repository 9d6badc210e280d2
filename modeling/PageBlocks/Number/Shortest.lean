import PageBlocks.Number.Binary64

/-!
# The fewest digits that read back

A binary64 value is written with the fewest decimal digits that read back to
it, and among those with the digits nearest to it. Every decimal that reads
back lies in the interval of reals that round to the value; the ends belong to
it when the significand is even. For one, two, … digits only the two
neighbours of the value on that decimal grid need testing, since a grid with
any point in the interval has one of these two in it. Seventeen digits always
suffice.
-/

namespace PageBlocks.Shortest

/-- Number of decimal digits. -/
def digitCount (n : Nat) : Nat := (Nat.toDigits 10 n).length

/-- `⌊log₁₀ (num / den)⌋` of a positive quotient of at least `10 ^ -340`. -/
def leadingExponent (num den : Nat) : Int :=
  (digitCount (num * Nat.pow 10 340 / den) : Int) - 341

/-- The interval of reals that round to `significand · 2 ^ exponent`, as numerators over
a common denominator, with the value itself in the middle. -/
structure Interval where
  low : Nat
  value : Nat
  high : Nat
  den : Nat
  closed : Bool

/-- Below a power of two the next value is only half as far away. -/
def interval (x : Binary64) : Interval :=
  let m := x.significand
  let lowGap := if m = Nat.pow 2 52 ∧ Binary64.minExponent < x.exponent then 1 else 2
  let shift := x.exponent - 2
  let up := if 0 ≤ shift then Nat.pow 2 shift.toNat else 1
  let den := if 0 ≤ shift then 1 else Nat.pow 2 (-shift).toNat
  { low := (4 * m - lowGap) * up, value := 4 * m * up, high := (4 * m + 2) * up, den := den,
    closed := m % 2 == 0 }

/-- Whether the decimal `num / den` lies in the interval. -/
def Interval.has (i : Interval) (num den : Nat) : Bool :=
  if i.closed then i.low * den ≤ num * i.den && num * i.den ≤ i.high * den
  else i.low * den < num * i.den && num * i.den < i.high * den

/-- The upper neighbour on a grid of `count` digits; a power of ten sheds its zeros. -/
def upper (above count : Nat) (unit : Int) : Nat × Int :=
  if above = Nat.pow 10 count then (1, unit + count) else (above, unit)

/-- The decimal of `count` digits in the interval that is nearest to the value. -/
def atCount? (i : Interval) (lead : Int) (count : Nat) : Option (Nat × Int) :=
  let unit := lead - (count : Int) + 1
  let up := if 0 ≤ unit then Nat.pow 10 unit.toNat else 1
  let down := if 0 ≤ unit then 1 else Nat.pow 10 (-unit).toNat
  let below := i.value * down / (i.den * up)
  let above := below + 1
  let hasBelow := below ≠ 0 && i.has (below * up) down
  let hasAbove := i.has (above * up) down
  if hasBelow && hasAbove then
    let toBelow := i.value * down - below * up * i.den
    let toAbove := above * up * i.den - i.value * down
    if toBelow < toAbove ∨ (toBelow = toAbove ∧ below % 2 = 0) then some (below, unit)
    else some (upper above count unit)
  else if hasBelow then some (below, unit)
  else if hasAbove then some (upper above count unit)
  else none

/-- Digits `d` and exponent `k` of the shortest decimal `d · 10 ^ k` of a magnitude. -/
def decimal (x : Binary64) : Nat × Int :=
  if x.isZero then (0, 0)
  else
    let i := interval x
    let lead := leadingExponent i.value i.den
    ((List.range 17).findSome? fun n => atCount? i lead (n + 1)).getD (0, 0)

end PageBlocks.Shortest
