import PageBlocks.Number.Shortest

/-!
# Numbers as text

Reading and writing of numbers. Integers are read with an optional sign;
other numbers as a decimal with an optional fraction and exponent, rounded once
and correctly. A value is written with its shortest digits, positionally where
its leading digit stands for `10 ^ -5` to `10 ^ 15`, else with an exponent.
-/

namespace PageBlocks

namespace Digits

/-- The value of a decimal digit. -/
def ofChar? (c : Char) : Option Nat :=
  if '0' ≤ c ∧ c ≤ '9' then some (c.toNat - '0'.toNat) else none

def isDigit (c : Char) : Bool := (ofChar? c).isSome

/-- The digits a text starts with, as a number continuing `value` and their count, and the rest. -/
def read (value count : Nat) : List Char → Nat × Nat × List Char
  | [] => (value, count, [])
  | c :: rest =>
    match ofChar? c with
    | some d => read (10 * value + d) (count + 1) rest
    | none => (value, count, c :: rest)

/-- A text of one or more digits in a base up to sixteen, of either letter case. -/
def inBase? (base : Nat) : List Char → Option Nat
  | [] => none
  | cs => cs.foldlM (fun value c => (digit? c).map (base * value + ·)) 0
where
  /-- The value of one digit in the base. -/
  digit? (c : Char) : Option Nat :=
    let d :=
      if '0' ≤ c ∧ c ≤ '9' then some (c.toNat - '0'.toNat)
      else if 'a' ≤ c ∧ c ≤ 'f' then some (c.toNat - 'a'.toNat + 10)
      else if 'A' ≤ c ∧ c ≤ 'F' then some (c.toNat - 'A'.toNat + 10)
      else none
    d.filter (· < base)

end Digits

namespace NumberText

/-- A sign, if there is one, and the rest. -/
def sign : List Char → Bool × List Char
  | '-' :: rest => (true, rest)
  | '+' :: rest => (false, rest)
  | cs => (false, cs)

/-- Integers of this range are kept as they are. -/
def fitsSigned (n : Int) : Bool := -(Nat.pow 2 63 : Int) ≤ n && n < Nat.pow 2 63

/-- An optionally signed run of digits that fits 64 bits with a sign. -/
def signedInt? (text : List Char) : Option Int :=
  let (negative, body) := sign text
  match Digits.read 0 0 body with
  | (n, count, []) =>
    let value : Int := if negative then -n else n
    if count ≠ 0 ∧ fitsSigned value then some value else none
  | _ => none

/-- An exponent mark with its digits: the exponent, or nothing where the digits are missing.
No exponent mark means zero. -/
def exponent? : List Char → Option Int
  | [] => some 0
  | c :: rest =>
    if c = 'e' ∨ c = 'E' then
      let (negative, body) := sign rest
      match Digits.read 0 0 body with
      | (n, count, []) => if count = 0 then none else some (if negative then -n else n)
      | _ => none
    else none

/-- A decimal with an optional sign, fraction and exponent. A digit must stand before or after
the point. A magnitude beyond the largest binary64 value is no number. -/
def decimal? (text : List Char) : Option Binary64 :=
  let (negative, body) := sign text
  let (whole, wholeCount, rest) := Digits.read 0 0 body
  let (digits, fractionCount, rest) :=
    match rest with
    | '.' :: rest => Digits.read whole 0 rest
    | _ => (whole, 0, rest)
  if wholeCount + fractionCount = 0 then none
  else do
    let exponent ← exponent? rest
    Binary64.ofDecimal? negative digits (exponent - fractionCount)

end NumberText

/-- How a number with a fraction or an exponent is laid out. -/
structure FloatLayout where
  /-- Leading digits from here … -/
  leastPositional : Int
  /-- … to here are written positionally. -/
  mostPositional : Int
  /-- A positive exponent carries its sign. -/
  signedExponent : Bool

namespace FloatLayout

/-- A whole number keeps `.0`; an exponent always has a sign; a sole digit has no point before
the exponent. -/
def json : FloatLayout := ⟨-5, 15, true⟩

/-- As in JSON text, but positive exponents have no sign. -/
def yaml : FloatLayout := ⟨-5, 15, false⟩

/-- The text of a value. -/
def write (layout : FloatLayout) (x : Binary64) : String :=
  let (digits, unit) := Shortest.decimal x
  let ds := Nat.toDigits 10 digits
  let lead := unit + (ds.length : Int) - 1
  let body :=
    if x.isZero then ['0', '.', '0']
    else if layout.leastPositional ≤ lead ∧ lead ≤ layout.mostPositional then
      if 0 ≤ unit then ds ++ List.replicate unit.toNat '0' ++ ['.', '0']
      else if 0 ≤ lead then
        ds.take (lead.toNat + 1) ++ '.' :: ds.drop (lead.toNat + 1)
      else '0' :: '.' :: (List.replicate (-lead - 1).toNat '0' ++ ds)
    else
      let mantissa :=
        match ds with
        | d :: rest@(_ :: _) => d :: '.' :: rest
        | ds => ds
      let sign := if lead < 0 then ['-'] else if layout.signedExponent then ['+'] else []
      mantissa ++ 'e' :: (sign ++ Nat.toDigits 10 lead.natAbs)
  String.ofList (if x.negative then '-' :: body else body)

end FloatLayout

end PageBlocks
