/-!
# Cursors

A place in a YAML text, with the classes of characters that the syntax is built
on. A carriage return with a line feed is one line break.
-/

namespace PageBlocks.Yaml

/-- A place in a text: what is left of it, and the numbers of characters, of lines and of
characters of the line before it. -/
structure Cursor where
  rest : List Char
  index : Nat := 0
  line : Nat := 0
  column : Nat := 0
deriving Inhabited

/-- A space or a tab. -/
def isSpacing (c : Char) : Bool := c == ' ' || c == '\t'

/-- A character that ends a line. -/
def isBreak (c : Char) : Bool :=
  c == '\n' || c == '\r' || c.toNat == 0x85 || c.toNat == 0x2028 || c.toNat == 0x2029

/-- A character of the names of anchors, handles and directives. -/
def isWordChar (c : Char) : Bool :=
  ('a' ≤ c && c ≤ 'z') || ('A' ≤ c && c ≤ 'Z') || ('0' ≤ c && c ≤ '9') || c == '_' || c == '-'

/-- A character that a text may hold at all. -/
def isAllowed (c : Char) : Bool :=
  let n := c.toNat
  n == 0x09 || n == 0x0A || n == 0x0D || (0x20 ≤ n && n ≤ 0x7E) || n == 0x85 ||
    (0xA0 ≤ n && n ≤ 0xFFFD) || 0x10000 ≤ n

namespace Cursor

def ofText (text : String) : Cursor := { rest := text.toList }

/-- The character at a distance. -/
def ahead (c : Cursor) (distance : Nat) : Option Char := c.rest[distance]?

def peek (c : Cursor) : Option Char := c.rest.head?

/-- Whether a character stands here. -/
def sees (c : Cursor) (ch : Char) : Bool := c.peek == some ch

/-- Whether the text is at its end or a space, a tab or a line break stands at a distance. -/
def gapAt (c : Cursor) (distance : Nat) : Bool :=
  match c.ahead distance with
  | none => true
  | some ch => isSpacing ch || isBreak ch

/-- Whether the line is at its end. -/
def atBreak (c : Cursor) : Bool := c.peek.all isBreak

def atSpacing (c : Cursor) : Bool := c.peek.any isSpacing

/-- Passes some characters that break no line. -/
def advance (c : Cursor) (count : Nat) : Cursor :=
  let passed := min count c.rest.length
  { c with rest := c.rest.drop passed, index := c.index + passed, column := c.column + passed }

/-- Passes one character that breaks no line. -/
def skip (c : Cursor) : Cursor := c.advance 1

/-- Passes a line break, and gives what it means: a line feed, or a separator of lines or
paragraphs as it is. -/
def newline (c : Cursor) : List Char × Cursor :=
  match c.rest with
  | '\r' :: '\n' :: rest =>
    (['\n'], { rest := rest, index := c.index + 2, line := c.line + 1, column := 0 })
  | ch :: rest =>
    if isBreak ch then
      (if ch.toNat = 0x2028 ∨ ch.toNat = 0x2029 then [ch] else ['\n'],
        { rest := rest, index := c.index + 1, line := c.line + 1, column := 0 })
    else ([], c)
  | [] => ([], c)

/-- Passes the characters of a class that breaks no line. -/
def skipWhile (c : Cursor) (p : Char → Bool) : List Char × Cursor :=
  let taken := c.rest.takeWhile p
  (taken, c.advance taken.length)

/-- Passes a comment. -/
def skipComment (c : Cursor) : Cursor :=
  if c.sees '#' then (c.skipWhile fun ch => !isBreak ch).2 else c

/-- Whether a marker of three characters stands at the beginning of the line. -/
def atMarker (c : Cursor) (ch : Char) : Bool :=
  c.column == 0 && c.rest.take 3 == [ch, ch, ch] && c.gapAt 3

/-- Whether a document starts or ends here. -/
def atDocumentMarker (c : Cursor) : Bool := c.atMarker '-' || c.atMarker '.'

end Cursor

end PageBlocks.Yaml
