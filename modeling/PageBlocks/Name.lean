import PageBlocks.Text.Transliteration

/-!
# Names

Names are the segments of id paths: one or more of `a`–`z`, `0`–`9` and `_`.
A field without a name takes one from its label, by way of a slug: the label is
transliterated to ASCII, letters are lowered, and every run of anything else
between two kept characters becomes one separator.
-/

namespace PageBlocks

/-- A character of a name. -/
def isNameChar (c : Char) : Bool :=
  ('a' ≤ c && c ≤ 'z') || ('0' ≤ c && c ≤ '9') || c == '_'

/-- The ASCII letter, digit or underscore in the lower case of a character. Outside ASCII only
the Kelvin sign and the dotted capital I have one. -/
def lowerNameChar? (c : Char) : Option Char :=
  if isNameChar c then some c
  else if 'A' ≤ c ∧ c ≤ 'Z' then some (Char.ofNat (c.toNat + 32))
  else if c.toNat = 0x212A then some 'k'
  else if c.toNat = 0x0130 then some 'i'
  else none

/-- A text in lower case without the characters that a name cannot have. -/
def sanitise (s : String) : String := String.ofList (s.toList.filterMap lowerNameChar?)

/-- Whether a text can be a segment of an id path. -/
def isValidName (s : String) : Bool := s ≠ "" && sanitise s = s

namespace Slug

/-- The slug character of an ASCII letter or digit. -/
def keep? (c : Char) : Option Char :=
  if ('a' ≤ c ∧ c ≤ 'z') ∨ ('0' ≤ c ∧ c ≤ '9') then some c
  else if 'A' ≤ c ∧ c ≤ 'Z' then some (Char.ofNat (c.toNat + 32))
  else none

/-- Kept characters, with a separator wherever others stood between two of them. `started` once
a character has been kept, `pending` when something has been passed over since. -/
def chars (separator : Char) : List Char → (started pending : Bool) → List Char
  | [], _, _ => []
  | c :: cs, started, pending =>
    match keep? c with
    | some k =>
      (if started && pending then [separator, k] else [k]) ++ chars separator cs true false
    | none => chars separator cs started true

end Slug

/-- The name made from a label, over a transliteration. -/
def nameFromLabel (letters : Transliteration) (label : String) : String :=
  String.ofList (Slug.chars '_' (label.toList.flatMap letters) false false)

end PageBlocks
