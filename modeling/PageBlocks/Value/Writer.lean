import PageBlocks.Value
import PageBlocks.Number.Text

/-!
# Values as JSON text

The compact text of a value has no blanks; the indented text has one item or
member to a line. In both, members stand in key order, only the quote, the
backslash and control characters below U+0020 are escaped, and floats have the
fewest digits that read back.
-/

namespace PageBlocks

namespace JsonText

/-- A hexadecimal digit, in lower case. -/
def hexDigit (n : Nat) : Char := (Nat.digitChar (n % 16))

/-- A character inside quotes. -/
def escapeChar (c : Char) : List Char :=
  if c = '"' then ['\\', '"']
  else if c = '\\' then ['\\', '\\']
  else if c = '\n' then ['\\', 'n']
  else if c = '\r' then ['\\', 'r']
  else if c = '\t' then ['\\', 't']
  else if c.toNat = 0x08 then ['\\', 'b']
  else if c.toNat = 0x0C then ['\\', 'f']
  else if c.toNat < 0x20 then
    ['\\', 'u', '0', '0', hexDigit (c.toNat / 16), hexDigit c.toNat]
  else [c]

/-- A text in quotes. -/
def quote (s : String) : String :=
  "\"" ++ String.ofList (s.toList.flatMap escapeChar) ++ "\""

end JsonText

namespace Value

open JsonText

mutual
/-- The compact text. -/
def compact : Value → String
  | .null => "null"
  | .bool b => if b then "true" else "false"
  | .int n => toString n
  | .float x => FloatLayout.json.write x
  | .string s => quote s
  | .array items => "[" ++ String.intercalate "," (compactItems items) ++ "]"
  | .object members => "\x7b" ++ String.intercalate "," (compactMembers members) ++ "\x7d"

/-- The texts of items. -/
def compactItems : List Value → List String
  | [] => []
  | v :: vs => compact v :: compactItems vs

/-- The texts of members. -/
def compactMembers : List (String × Value) → List String
  | [] => []
  | (k, v) :: ms => (quote k ++ ":" ++ compact v) :: compactMembers ms
end

/-- Parts between brackets, each on a line of its own, at a margin. -/
def bracketed (opening closing margin : String) : List String → String
  | [] => opening ++ closing
  | parts =>
    opening ++ "\n" ++
      String.intercalate ",\n" (parts.map fun part => margin ++ "  " ++ part) ++
      "\n" ++ margin ++ closing

mutual
/-- The indented text, starting behind a margin. -/
def indented (margin : String) : Value → String
  | .array items => bracketed "[" "]" margin (indentedItems (margin ++ "  ") items)
  | .object members => bracketed "\x7b" "\x7d" margin (indentedMembers (margin ++ "  ") members)
  | v => compact v

/-- The indented texts of items. -/
def indentedItems (margin : String) : List Value → List String
  | [] => []
  | v :: vs => indented margin v :: indentedItems margin vs

/-- The indented texts of members. -/
def indentedMembers (margin : String) : List (String × Value) → List String
  | [] => []
  | (k, v) :: ms => (quote k ++ ": " ++ indented margin v) :: indentedMembers margin ms
end

end Value

end PageBlocks
