import PageBlocks.Text.Extending
import PageBlocks.Text.Hidden

/-!
# Texts quoted in messages

How a message shows a text that somebody gave: between quotes, with everything
escaped that would not be seen for what it is.
-/

namespace PageBlocks

/-- A character between quotes. -/
def quotedChar (c : Char) : List Char :=
  if c = '"' then ['\\', '"']
  else if c = '\\' then ['\\', '\\']
  else if c = '\t' then ['\\', 't']
  else if c = '\n' then ['\\', 'n']
  else if c = '\r' then ['\\', 'r']
  else if c.toNat = 0 then ['\\', '0']
  else if isExtending c || isHidden c then
    "\\u\x7b".toList ++ Nat.toDigits 16 c.toNat ++ "\x7d".toList
  else [c]

/-- A text between quotes. -/
def quotedText (s : String) : String :=
  "\"" ++ String.ofList (s.toList.flatMap quotedChar) ++ "\""

end PageBlocks
