import PageBlocks.Number.Text
import PageBlocks.Text.Blank

/-!
# Instants

Moments in universal time, with nanoseconds, read from and written as RFC 3339
texts. Reading is lenient: fields may have fewer digits, blanks may stand
between them, and the offset may be written without a colon. A sixtieth second
is kept as the 59th with more than a second of nanoseconds.
-/

namespace PageBlocks

/-- A moment: a day, counted from the first of March of the year 0, a second of that day, and
nanoseconds. -/
structure Instant where
  day : Int
  second : Nat
  nano : Nat
deriving DecidableEq, Repr, Inhabited

namespace Instant

/-! ## The calendar -/

/-- A day of the proleptic Gregorian calendar. -/
structure Date where
  year : Int
  month : Nat
  day : Nat

def isLeapYear (year : Int) : Bool := year % 4 == 0 && (year % 100 != 0 || year % 400 == 0)

def monthLength (year : Int) (month : Nat) : Nat :=
  if month = 2 then if isLeapYear year then 29 else 28
  else if month = 4 ∨ month = 6 ∨ month = 9 ∨ month = 11 then 30 else 31

/-- Days from the first of March of the year 0; years are taken to begin in March. -/
def Date.number (d : Date) : Int :=
  let year := if d.month ≤ 2 then d.year - 1 else d.year
  let month := if d.month ≤ 2 then d.month + 9 else d.month - 3
  365 * year + year / 4 - year / 100 + year / 400 + ((153 * month + 2) / 5 : Nat)
    + (d.day : Int) - 1

/-- The day with a number, by whole eras of 400 years. -/
def Date.ofNumber (n : Int) : Date :=
  let era := n / 146097
  let dayOfEra := (n % 146097).toNat
  let yearOfEra := (dayOfEra - dayOfEra / 1460 + dayOfEra / 36524 - dayOfEra / 146096) / 365
  let dayOfYear := dayOfEra - (365 * yearOfEra + yearOfEra / 4 - yearOfEra / 100)
  let month := (5 * dayOfYear + 2) / 153
  let year := era * 400 + yearOfEra
  { year := if month < 10 then year else year + 1
    month := if month < 10 then month + 3 else month - 9
    day := dayOfYear - (153 * month + 2) / 5 + 1 }

/-- The moment some seconds after the first of January 1970. -/
def ofSeconds (seconds : Int) (nano : Nat) : Instant :=
  { day := (⟨1970, 1, 1⟩ : Date).number + seconds / 86400
    second := (seconds % 86400).toNat
    nano := nano }

/-! ## Writing -/

/-- At least `width` digits. -/
def padded (width n : Nat) : List Char :=
  let ds := Nat.toDigits 10 n
  List.replicate (width - ds.length) '0' ++ ds

/-- Years of four digits stand alone, others carry a sign. -/
def yearText (year : Int) : List Char :=
  if 0 ≤ year ∧ year ≤ 9999 then padded 4 year.toNat
  else (if year < 0 then '-' else '+') :: padded 4 year.natAbs

/-- Nothing, or three, six or nine digits of a fraction: as few as keep it. -/
def fractionText (nano : Nat) : List Char :=
  if nano = 0 then []
  else if nano % 1000000 = 0 then '.' :: padded 3 (nano / 1000000)
  else if nano % 1000 = 0 then '.' :: padded 6 (nano / 1000)
  else '.' :: padded 9 nano

/-- The date and time of day, without an offset. -/
def civil (t : Instant) : List Char :=
  let d := Date.ofNumber t.day
  let leap := t.nano / 1000000000
  yearText d.year ++ '-' :: padded 2 d.month ++ '-' :: padded 2 d.day ++
    'T' :: padded 2 (t.second / 3600) ++ ':' :: padded 2 (t.second / 60 % 60) ++
    ':' :: padded 2 (t.second % 60 + leap) ++ fractionText (t.nano % 1000000000)

/-- The text with `Z` for universal time, as in encoded records. -/
def zulu (t : Instant) : String := String.ofList (civil t ++ ['Z'])

/-- The text with a numeric offset, as in stored tables, markers and the status. -/
def rfc3339 (t : Instant) : String := String.ofList (civil t ++ "+00:00".toList)

/-- Whether the numeric text can be read back by a reader that insists on four-digit years. -/
def hasPlainYear (t : Instant) : Bool :=
  let year := (Date.ofNumber t.day).year
  0 ≤ year && year ≤ 9999

/-! ## Reading -/

/-- Up to `most` digits, at least one. -/
def digits? (most : Nat) (text : List Char) : Option (Nat × List Char) :=
  let lead := (text.take most).takeWhile Digits.isDigit
  if lead.isEmpty then none else some ((Digits.read 0 0 lead).1, text.drop lead.length)

/-- A field behind blanks. -/
def field? (most : Nat) (text : List Char) : Option (Nat × List Char) :=
  digits? most (text.dropWhile isBlank)

/-- A separator behind blanks. -/
def separator? (c : Char) (text : List Char) : Option (List Char) :=
  match text.dropWhile isBlank with
  | d :: rest => if d = c then some rest else none
  | [] => none

/-- A year: up to four digits, or a sign and any number of digits. -/
def year? (text : List Char) : Option (Int × List Char) :=
  match text.dropWhile isBlank with
  | '-' :: rest => (digits? rest.length rest).map fun (n, rest) => (-n, rest)
  | '+' :: rest => (digits? rest.length rest).map fun (n, rest) => ((n : Int), rest)
  | rest => (digits? 4 rest).map fun (n, rest) => ((n : Int), rest)

/-- A fraction of a second in nanoseconds; digits beyond the ninth are passed over. -/
def fraction? : List Char → Option (Nat × List Char)
  | '.' :: rest => do
    let (n, after) ← digits? 9 rest
    let count := rest.length - after.length
    return (n * Nat.pow 10 (9 - count), after.dropWhile Digits.isDigit)
  | text => some (0, text)

/-- Two digits. -/
def twoDigits? : List Char → Option (Nat × List Char)
  | a :: b :: rest => do return (10 * (← Digits.ofChar? a) + (← Digits.ofChar? b), rest)
  | _ => none

/-- An offset from universal time in minutes. -/
def offset? (text : List Char) : Option (Int × List Char) :=
  match text with
  | 'Z' :: rest | 'z' :: rest => some (0, rest)
  | [] => none
  | c :: rest =>
    if (text.take 3).map Char.toUpper = ['U', 'T', 'C'] then some (0, text.drop 3)
    else do
      let negative ←
        if c = '+' then some false
        else if c = '-' ∨ c.toNat = 0x2212 then some true else none
      let (hours, rest) ← twoDigits? rest
      let (minutes, rest) ← twoDigits? (rest.dropWhile fun c => c == ':' || isBlank c)
      if 60 ≤ minutes ∨ 24 ≤ hours then none
      else
        let total : Int := 60 * hours + minutes
        some (if negative then -total else total, rest)

/-- Whether a day is in a year that can be kept. -/
def dayFits (day : Int) : Bool :=
  Date.number ⟨-262143, 1, 1⟩ ≤ day && day ≤ Date.number ⟨262142, 12, 31⟩

/-- The moment that a text stands for. -/
def read? (text : String) : Option Instant := do
  let (year, rest) ← year? text.toList
  let (month, rest) ← field? 2 (← separator? '-' rest)
  let (day, rest) ← field? 2 (← separator? '-' rest)
  let rest ←
    match rest with
    | 'T' :: rest | 't' :: rest | ' ' :: rest => some rest
    | _ => none
  let (hour, rest) ← field? 2 rest
  let (minute, rest) ← field? 2 (← separator? ':' rest)
  let (second, rest) ← field? 2 (← separator? ':' rest)
  let (nano, rest) ← fraction? rest
  let (offset, rest) ← offset? (rest.dropWhile isBlank)
  if ¬(rest.dropWhile isBlank).isEmpty then none
  else if month = 0 ∨ 12 < month ∨ day = 0 ∨ monthLength year month < day then none
  else if 24 ≤ hour ∨ 60 ≤ minute ∨ 61 ≤ second then none
  else
    let leap := if second = 60 then 1 else 0
    let seconds : Int := 3600 * hour + 60 * minute + (second - leap : Nat) - 60 * offset
    let written := Date.number ⟨year, month, day⟩
    let meant := written + seconds / 86400
    if ¬dayFits written ∨ ¬dayFits meant then none
    else
      some
        { day := meant
          second := (seconds % 86400).toNat
          nano := nano + leap * 1000000000 }

end Instant

end PageBlocks
