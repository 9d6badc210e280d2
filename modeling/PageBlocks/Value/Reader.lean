import PageBlocks.Value
import PageBlocks.Number.Text

/-!
# Values from JSON text

A text is cut into tokens, and a pushdown machine takes one token at a time:
its stack holds the arrays and objects that are still open. Of repeated keys
the last one stays. Arrays and objects may be nested `maxDepth` levels deep.

Numbers without fraction and exponent that fit 64 bits are integers. All others
are floats: the digits that fit 64 bits are rounded to a binary64 value, which
is then multiplied or divided by a (rounded) power of ten.
-/

namespace PageBlocks.JsonText

/-! ## Numbers -/

/-- Digits accumulated as long as they fit an unsigned 64-bit number. -/
structure Significand where
  value : Nat
  /-- Digits taken into the value. -/
  kept : Nat
  /-- Digits passed over once the value was full. -/
  dropped : Nat

/-- Takes the digits a text starts with. -/
def Significand.take (s : Significand) : List Char → Significand × List Char
  | [] => (s, [])
  | c :: rest =>
    match Digits.ofChar? c with
    | none => (s, c :: rest)
    | some d =>
      if s.dropped = 0 ∧ 10 * s.value + d < Nat.pow 2 64 then
        Significand.take { s with value := 10 * s.value + d, kept := s.kept + 1 } rest
      else Significand.take { s with dropped := s.dropped + 1 } rest

/-- `x · 10 ^ exponent`, in steps no larger than the largest power of ten. Each step down beyond
it is one division; four of them leave nothing of any significand. -/
def scale (x : Binary64) (exponent : Int) : Nat → Option Binary64
  | 0 => some (.zero x.negative)
  | steps + 1 =>
    if exponent.natAbs ≤ 308 then do
      let power ← Binary64.ofDecimal? false 1 exponent.natAbs
      if 0 ≤ exponent then x.scaleUp? power else x.scaleDown? power
    else if x.isZero then some x
    else if 0 ≤ exponent then none
    else do
      let power ← Binary64.ofDecimal? false 1 308
      scale (← x.scaleDown? power) (exponent + 308) steps

/-- The float of a significand and a power of ten. -/
def float? (negative : Bool) (significand : Nat) (exponent : Int) : Option Value := do
  let x ← Binary64.ofRatio? negative significand 1
  return .float (← scale x exponent 4)

/-- The exponent behind an exponent mark. -/
def exponent? (text : List Char) : Option (Int × List Char) :=
  let (negative, body) := NumberText.sign text
  match Digits.read 0 0 body with
  | (_, 0, _) => none
  | (n, _, rest) => some (if negative then -n else n, rest)

/-- The value of a number without an exponent: the digits before the point, and all of them with
those behind it. -/
def plainNumber? (negative point : Bool) (whole all : Significand) : Option Value :=
  if point ∨ whole.dropped ≠ 0 then
    float? negative all.value ((whole.dropped : Int) - all.kept)
  else if negative then
    -- Minus zero and what is below the signed range are floats.
    if all.value = 0 ∨ Nat.pow 2 63 < all.value then float? true all.value 0
    else some (.int (-all.value))
  else some (.int all.value)

/-- A number without its sign. -/
def unsignedNumber? (negative : Bool) (text : List Char) : Option (Value × List Char) :=
  let (whole, rest) := Significand.take ⟨0, 0, 0⟩ text
  let leadingZero := text.head? = some '0' ∧ whole.kept + whole.dropped ≠ 1
  if whole.kept = 0 ∨ leadingZero then none
  else
    let point := rest.head? = some '.'
    let (all, rest) :=
      if point then Significand.take { whole with kept := 0, dropped := 0 } rest.tail
      else ({ whole with kept := 0, dropped := 0 }, rest)
    if point ∧ all.kept = 0 ∧ all.dropped = 0 then none
    else
      match rest with
      | 'e' :: rest | 'E' :: rest => do
        let (exponent, rest) ← exponent? rest
        return (← float? negative all.value ((whole.dropped : Int) - all.kept + exponent), rest)
      | rest => (plainNumber? negative point whole all).map fun v => (v, rest)

/-! ## Strings -/

/-- The value of four hexadecimal digits. -/
def hex4? : List Char → Option (Nat × List Char)
  | a :: b :: c :: d :: rest => do return (← Digits.inBase? 16 [a, b, c, d], rest)
  | _ => none

/-- The character of a `\u` escape, whose mark has been read. Two escapes make up a character
beyond U+FFFF; half of such a pair is an error. -/
def unicodeEscape? (text : List Char) : Option (Char × List Char) := do
  let (n, rest) ← hex4? text
  if 0xD800 ≤ n ∧ n < 0xDC00 then
    match rest with
    | '\\' :: 'u' :: rest =>
      let (m, rest) ← hex4? rest
      if 0xDC00 ≤ m ∧ m < 0xE000 then
        some (Char.ofNat (0x10000 + (n - 0xD800) * 0x400 + (m - 0xDC00)), rest)
      else none
    | _ => none
  else if 0xDC00 ≤ n ∧ n < 0xE000 then none
  else some (Char.ofNat n, rest)

/-- The character of an escape, whose backslash has been read. -/
def escape? : List Char → Option (Char × List Char)
  | '"' :: rest => some ('"', rest)
  | '\\' :: rest => some ('\\', rest)
  | '/' :: rest => some ('/', rest)
  | 'b' :: rest => some (Char.ofNat 0x08, rest)
  | 'f' :: rest => some (Char.ofNat 0x0C, rest)
  | 'n' :: rest => some ('\n', rest)
  | 'r' :: rest => some ('\r', rest)
  | 't' :: rest => some ('\t', rest)
  | 'u' :: rest => unicodeEscape? rest
  | _ => none

/-- A string up to its closing quote; the opening one has been read. The count bounds the
characters still to come. -/
def stringBody? : Nat → List Char → List Char → Option (String × List Char)
  | 0, _, _ => none
  | count + 1, done, text =>
    match text with
    | [] => none
    | '"' :: rest => some (String.ofList done.reverse, rest)
    | '\\' :: rest => do
      let (c, rest) ← escape? rest
      stringBody? count (c :: done) rest
    | c :: rest => if c.toNat < 0x20 then none else stringBody? count (c :: done) rest

/-! ## Tokens -/

/-- What a text is made of between blanks. -/
inductive Token where
  | openObject
  | closeObject
  | openArray
  | closeArray
  | comma
  | colon
  | scalar (v : Value)

/-- The tokens of a text. The count bounds the tokens and blanks still to come. -/
def tokens? : Nat → List Char → Option (List Token)
  | 0, text => if text.isEmpty then some [] else none
  | count + 1, text =>
    let after (token : Token) (rest : List Char) : Option (List Token) := do
      return token :: (← tokens? count rest)
    match text with
    | [] => some []
    | '\x7b' :: rest => after .openObject rest
    | '\x7d' :: rest => after .closeObject rest
    | '[' :: rest => after .openArray rest
    | ']' :: rest => after .closeArray rest
    | ',' :: rest => after .comma rest
    | ':' :: rest => after .colon rest
    | '"' :: rest => do
      let (s, rest) ← stringBody? (rest.length + 1) [] rest
      after (.scalar (.string s)) rest
    | 'n' :: 'u' :: 'l' :: 'l' :: rest => after (.scalar .null) rest
    | 't' :: 'r' :: 'u' :: 'e' :: rest => after (.scalar (.bool true)) rest
    | 'f' :: 'a' :: 'l' :: 's' :: 'e' :: rest => after (.scalar (.bool false)) rest
    | '-' :: rest => do
      let (v, rest) ← unsignedNumber? true rest
      after (.scalar v) rest
    | c :: rest =>
      if c = ' ' ∨ c = '\n' ∨ c = '\t' ∨ c = '\r' then tokens? count rest
      else do
        let (v, rest) ← unsignedNumber? false (c :: rest)
        after (.scalar v) rest

/-! ## Nesting -/

/-- An array or object that is still open; items and members are the latest first. -/
inductive Frame where
  | array (items : List Value)
  | object (members : List (String × Value)) (key : String)

/-- What may come next. -/
inductive State where
  /-- A value, or the end of an array that has no item yet. -/
  | value (mayClose : Bool) (stack : List Frame)
  /-- A key, or the end of an object that has no member yet. -/
  | key (mayClose : Bool) (members : List (String × Value)) (stack : List Frame)
  | colon (members : List (String × Value)) (key : String) (stack : List Frame)
  /-- What follows a value. -/
  | after (v : Value) (stack : List Frame)

/-- Levels that may be open at once. -/
def maxDepth : Nat := 127

/-- One token. -/
def State.step : State → Token → Option State
  | .value _ stack, .scalar v => some (.after v stack)
  | .value _ stack, .openArray =>
    if stack.length < maxDepth then some (.value true (.array [] :: stack)) else none
  | .value _ stack, .openObject =>
    if stack.length < maxDepth then some (.key true [] stack) else none
  | .value true (.array [] :: stack), .closeArray => some (.after (.array []) stack)
  | .key _ members stack, .scalar (.string k) => some (.colon members k stack)
  | .key true [] stack, .closeObject => some (.after (.object []) stack)
  | .colon members k stack, .colon => some (.value false (.object members k :: stack))
  | .after v (.array items :: stack), .comma => some (.value false (.array (v :: items) :: stack))
  | .after v (.array items :: stack), .closeArray =>
    some (.after (.array (v :: items).reverse) stack)
  | .after v (.object members k :: stack), .comma => some (.key false ((k, v) :: members) stack)
  | .after v (.object members k :: stack), .closeObject =>
    some (.after (Value.ofMembers ((k, v) :: members).reverse) stack)
  | _, _ => none

/-- The value that a text stands for. -/
def read? (text : String) : Option Value := do
  let chars := text.toList
  let tokens ← tokens? (chars.length + 1) chars
  match ← tokens.foldlM State.step (.value false []) with
  | .after v [] => some v
  | _ => none

end PageBlocks.JsonText
