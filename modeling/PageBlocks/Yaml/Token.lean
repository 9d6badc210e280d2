import PageBlocks.Yaml.Text

/-!
# Tokens

A YAML text as a list of tokens. Block structure is in the tokens too: a block
opens where a column is larger than that of the block around it, and closes
where one is smaller. Whether a scalar is the key of a mapping shows only at the
colon behind it, so the place of every scalar that could be a key is kept, and
the key marker is put in there. A key must stand on the line of its colon.
-/

namespace PageBlocks.Yaml

inductive Token where
  | version (major minor : Nat)
  | handleDefinition (handle lead : String)
  | documentStart
  | documentEnd
  | streamEnd
  | blockSequence
  | blockMapping
  | blockEnd
  | flowSequence
  | flowSequenceEnd
  | flowMapping
  | flowMappingEnd
  | blockEntry
  | flowEntry
  | key
  | value
  | alias (name : String)
  | anchor (name : String)
  | tag (handle suffix : String)
  | scalar (style : ScalarStyle) (text : String)
deriving DecidableEq, Repr, Inhabited

namespace Token

/-! ## Properties and directives -/

/-- The name of an anchor or an alias. -/
def anchorName? (c : Cursor) : Option (String × Cursor) :=
  let (name, c) := c.skipWhile isWordChar
  let closed := c.gapAt 0 || c.peek.any fun ch => "?:,]\x7d%@`".toList.contains ch
  if name.isEmpty || !closed then none else some (String.ofList name, c)

/-- Characters of a tag besides those of a word; brackets and commas only in a verbatim one. -/
def isTagChar (verbatim : Bool) (c : Char) : Bool :=
  isWordChar c || ";/?:@&=+$.%!~*'()".toList.contains c || verbatim && ",[]".toList.contains c

/-- The number of bytes of a character that begins with a byte. -/
def byteCount? (lead : Nat) : Option Nat :=
  if lead < 0x80 then some 1
  else if 0xC0 ≤ lead ∧ lead < 0xE0 then some 2
  else if 0xE0 ≤ lead ∧ lead < 0xF0 then some 3
  else if 0xF0 ≤ lead ∧ lead < 0xF8 then some 4
  else none

/-- A byte written as a percent sign and two hexadecimal digits. -/
def percentByte? : List Char → Option (Nat × List Char)
  | '%' :: a :: b :: rest => (hexadecimal? [a, b]).map fun n => (n, rest)
  | _ => none

/-- Bytes that continue a character. -/
def continuation? : Nat → Nat → List Char → Option (Nat × List Char)
  | 0, n, text => some (n, text)
  | count + 1, n, text => do
    let (byte, rest) ← percentByte? text
    if 0x80 ≤ byte ∧ byte < 0xC0 then continuation? count (64 * n + (byte - 0x80)) rest else none

/-- A tag with its percent escapes read. -/
def unescaped? : (fuel : Nat) → List Char → Option (List Char)
  | 0, _ => some []
  | _ + 1, [] => some []
  | fuel + 1, '%' :: rest => do
    let (lead, rest) ← percentByte? ('%' :: rest)
    let count ← byteCount? lead
    let bits := if count = 1 then lead else lead % Nat.pow 2 (7 - count)
    let (n, rest) ← continuation? (count - 1) bits rest
    return (← scalarOf? n) :: (← unescaped? fuel rest)
  | fuel + 1, c :: rest => (unescaped? fuel rest).map (c :: ·)

/-- The characters of a tag. -/
def tagText? (verbatim : Bool) (c : Cursor) : Option (String × Cursor) :=
  let (text, c) := c.skipWhile (isTagChar verbatim)
  (unescaped? text.length text).map fun text => (String.ofList text, c)

/-- A handle: a word between exclamation marks, of which the second may be missing. -/
def handle (c : Cursor) : List Char × Cursor :=
  let (word, c) := c.skip.skipWhile isWordChar
  if c.sees '!' then ('!' :: word ++ ['!'], c.skip) else ('!' :: word, c)

/-- A tag from its exclamation mark on. -/
def tag? (flow : Bool) (c : Cursor) : Option (Token × Cursor) := do
  let (token, c) ←
    if c.ahead 1 = some '<' then do
      let (suffix, c) ← tagText? true (c.advance 2)
      if suffix ≠ "" ∧ c.sees '>' then some (Token.tag "" suffix, c.skip) else none
    else
      let (head, after) := handle c
      if 2 ≤ head.length ∧ head.getLast? = some '!' then do
        let (suffix, c) ← tagText? false after
        if suffix = "" then none else some (.tag (String.ofList head) suffix, c)
      else do
        let (suffix, c) ← tagText? false after
        let suffix := String.ofList head.tail ++ suffix
        some (if suffix = "" then .tag "" "!" else .tag "!" suffix, c)
  if c.gapAt 0 || (flow && c.sees ',') then some (token, c) else none

/-- A number of at most nine digits. -/
def number? (c : Cursor) : Option (Nat × Cursor) :=
  let (digits, c) := c.skipWhile Char.isDigit
  if digits.isEmpty ∨ 9 < digits.length then none
  else some (digits.foldl (fun n d => 10 * n + (d.toNat - 48)) 0, c)

/-- A directive from its percent sign to the end of its line. -/
def directive? (c : Cursor) : Option (Token × Cursor) := do
  let (name, c) := c.skip.skipWhile isWordChar
  if name.isEmpty || !c.gapAt 0 then none
  let c := (c.skipWhile isSpacing).2
  let (token, c) ←
    if name = "YAML".toList then do
      let (major, c) ← number? c
      if !c.sees '.' then none
      let (minor, c) ← number? c.skip
      some (Token.version major minor, c)
    else if name = "TAG".toList then do
      if !c.sees '!' then none
      let (head, c) := handle c
      if head.length ≠ 1 ∧ head.getLast? ≠ some '!' then none
      if !c.atSpacing then none
      let (lead, c) ← tagText? true (c.skipWhile isSpacing).2
      if lead = "" ∨ !c.gapAt 0 then none
      some (.handleDefinition (String.ofList head) lead, c)
    else none
  let c := (c.skipWhile isSpacing).2.skipComment
  if c.atBreak then some (token, c.newline.2) else none

end Token

/-! ## The scanner -/

/-- A place where a key may stand. -/
structure KeyPlace where
  /-- How many tokens are before it. -/
  number : Nat
  /-- Whether nothing but a key can stand there. -/
  required : Bool
  index : Nat
  line : Nat
  column : Nat

/-- A text partly cut into tokens. -/
structure Scanner where
  cursor : Cursor
  /-- The tokens so far, last first. -/
  made : List Token := []
  count : Nat := 0
  /-- Where a key may stand, for every open bracket and outside of all. -/
  places : List (Option KeyPlace) := [none]
  /-- Column of the innermost block, or -1 outside of all. -/
  indent : Int := -1
  /-- Columns of the blocks around it. -/
  outer : List Int := []
  /-- Number of open brackets. -/
  flow : Nat := 0
  /-- Whether a key may stand here. -/
  keyAllowed : Bool := true

namespace Scanner

def push (s : Scanner) (t : Token) : Scanner := { s with made := t :: s.made, count := s.count + 1 }

/-- Puts a token behind the first `number` ones. -/
def insert (s : Scanner) (number : Nat) (t : Token) : Scanner :=
  let later := s.count - number
  { s with made := s.made.take later ++ t :: s.made.drop later, count := s.count + 1 }

def place? (s : Scanner) : Option KeyPlace := s.places.head?.join

/-- Changes the place where a key may stand. -/
def setPlace (s : Scanner) (place : Option KeyPlace) : Scanner :=
  { s with places := place :: s.places.tail }

/-- Gives up the place where a key may stand, unless only a key can. -/
def dropPlace? (s : Scanner) : Option Scanner :=
  match s.place? with
  | some place => if place.required then none else some (s.setPlace none)
  | none => some s

/-- Keeps this place as one where a key may stand. -/
def keepPlace? (s : Scanner) : Option Scanner :=
  if s.keyAllowed then do
    let required := s.flow == 0 && s.indent == (s.cursor.column : Int)
    let place : KeyPlace :=
      { number := s.count, required := required, index := s.cursor.index, line := s.cursor.line
        column := s.cursor.column }
    return (← s.dropPlace?).setPlace (some place)
  else some s

/-- Gives up places on earlier lines and places too far back. -/
def expire? (s : Scanner) : Option Scanner := do
  let places ← s.places.mapM fun place =>
    match place with
    | some p =>
      if p.line < s.cursor.line ∨ p.index + 1024 < s.cursor.index then
        if p.required then none else some none
      else some (some p)
    | none => some none
  return { s with places := places }

/-- Opens a block at a column that is larger than that of the block around it. -/
def openBlock (s : Scanner) (column : Nat) (number : Option Nat) (t : Token) : Scanner :=
  if s.flow = 0 ∧ s.indent < column then
    let s := { s with outer := s.indent :: s.outer, indent := column }
    match number with
    | some number => s.insert number t
    | none => s.push t
  else s

/-- Closes the blocks at columns larger than one. -/
def closeBlocks (s : Scanner) (column : Int) : Scanner :=
  if s.flow = 0 then
    let rec close (outer : List Int) (s : Scanner) : Scanner :=
      match outer with
      | [] => { s with outer := [] }
      | before :: rest =>
        if column < s.indent then close rest { s.push .blockEnd with indent := before }
        else { s with outer := before :: rest }
    close s.outer s
  else s

/-- Passes spacing, comments, line breaks, and byte order marks at the beginning of a line. Outside
of brackets a line may begin with a key, and tabs do not indent. -/
def toToken : Nat → Scanner → Scanner
  | 0, s => s
  | fuel + 1, s =>
    let c :=
      if s.cursor.column = 0 ∧ s.cursor.sees (Char.ofNat 0xFEFF) then s.cursor.skip else s.cursor
    let tabs := s.flow != 0 || !s.keyAllowed
    let c := (c.skipWhile fun ch => ch == ' ' || tabs && ch == '\t').2.skipComment
    if c.peek.any isBreak then
      toToken fuel { s with cursor := c.newline.2, keyAllowed := s.keyAllowed || s.flow == 0 }
    else { s with cursor := c }

/-- Takes a token that goes on to a cursor. -/
def take (s : Scanner) (t : Token) (c : Cursor) : Scanner := { s.push t with cursor := c }

/-- A token outside of all blocks. -/
def outside? (s : Scanner) (t : Token) (c : Cursor) : Option Scanner := do
  let s ← (s.closeBlocks (-1)).dropPlace?
  return { s with keyAllowed := false }.take t c

/-- An opening bracket. -/
def openBracket? (s : Scanner) (t : Token) : Option Scanner := do
  let s ← s.keepPlace?
  return { s with places := none :: s.places, flow := s.flow + 1, keyAllowed := true }.take t
    s.cursor.skip

/-- A closing bracket. -/
def closeBracket? (s : Scanner) (t : Token) : Option Scanner := do
  let s ← s.dropPlace?
  let s := if s.flow = 0 then s else { s with places := s.places.tail, flow := s.flow - 1 }
  return { s with keyAllowed := false }.take t s.cursor.skip

/-- A comma. -/
def flowEntry? (s : Scanner) : Option Scanner := do
  let s ← s.dropPlace?
  return { s with keyAllowed := true }.take .flowEntry s.cursor.skip

/-- The dash of an item. -/
def blockEntry? (s : Scanner) : Option Scanner := do
  if s.flow = 0 ∧ !s.keyAllowed then none
  let s ← (s.openBlock s.cursor.column none .blockSequence).dropPlace?
  return { s with keyAllowed := true }.take .blockEntry s.cursor.skip

/-- The question mark of a key. -/
def key? (s : Scanner) : Option Scanner := do
  if s.flow = 0 ∧ !s.keyAllowed then none
  let s ← (s.openBlock s.cursor.column none .blockMapping).dropPlace?
  return { s with keyAllowed := s.flow == 0 }.take .key s.cursor.skip

/-- The colon of a value, which may make what stands before it a key. -/
def value? (s : Scanner) : Option Scanner :=
  match s.place? with
  | some place =>
    let s := (s.insert place.number .key).openBlock place.column (some place.number) .blockMapping
    some ({ s.setPlace none with keyAllowed := false }.take .value s.cursor.skip)
  | none => do
    if s.flow = 0 ∧ !s.keyAllowed then none
    let s := s.openBlock s.cursor.column none .blockMapping
    return { s with keyAllowed := s.flow == 0 }.take .value s.cursor.skip

/-- An anchor, an alias, a tag or a quoted scalar: what may be a key, or begin one. -/
def keyPart? (s : Scanner) (read : Cursor → Option (Token × Cursor)) : Option Scanner := do
  let s ← s.keepPlace?
  let (t, c) ← read s.cursor
  return { s with keyAllowed := false }.take t c

/-- A scalar in quotes. -/
def quotedToken? (single : Bool) (c : Cursor) : Option (Token × Cursor) := do
  let (text, c) ← quotedScalar? single (c.rest.length + 1) [] c.skip
  let style := if single then ScalarStyle.singleQuoted else .doubleQuoted
  return (.scalar style (String.ofList text), c)

/-- A scalar as a block. -/
def blockToken? (s : Scanner) (literal : Bool) : Option Scanner := do
  let s ← s.dropPlace?
  let (text, c) ← blockScalar? literal s.indent s.cursor.skip
  let style := if literal then ScalarStyle.literal else .folded
  return { s with keyAllowed := true }.take (.scalar style (String.ofList text)) c

/-- A plain scalar. -/
def plainToken? (s : Scanner) : Option Scanner := do
  let s ← s.keepPlace?
  let (text, broken, c) ← plainScalar? (s.flow != 0) (s.indent + 1).toNat
    (s.cursor.rest.length + 1) [] {} s.cursor
  return { s with keyAllowed := broken }.take (.scalar .plain (String.ofList text)) c

/-- Characters that begin no plain scalar, or only before certain others. -/
def isIndicator (c : Char) : Bool := "-?:,[]\x7b\x7d#&*!|>'\"%@`".toList.contains c

/-- Whether a plain scalar begins here. -/
def beginsPlain (s : Scanner) (ch : Char) : Bool :=
  let c := s.cursor
  !(c.gapAt 0 || isIndicator ch) || (ch == '-' && !(c.ahead 1).any isSpacing) ||
    (s.flow == 0 && (ch == '?' || ch == ':') && !c.gapAt 1)

/-- Takes the next token; nothing is left to take when there is no scanner. -/
def next? (s : Scanner) : Option (Scanner × Bool) := do
  let s := toToken (s.cursor.rest.length + 1) s
  let s := (← s.expire?).closeBlocks s.cursor.column
  let c := s.cursor
  let more (s : Option Scanner) : Option (Scanner × Bool) := s.map fun s => (s, true)
  match c.peek with
  | none => do
    let s ← (s.closeBlocks (-1)).dropPlace?
    return (s.push .streamEnd, false)
  | some ch =>
    if c.column = 0 ∧ ch = '%' then more do
      let (t, after) ← Token.directive? c
      s.outside? t after
    else if c.atMarker '-' then more (s.outside? .documentStart (c.advance 3))
    else if c.atMarker '.' then more (s.outside? .documentEnd (c.advance 3))
    else if ch = '[' then more (s.openBracket? .flowSequence)
    else if ch = '\x7b' then more (s.openBracket? .flowMapping)
    else if ch = ']' then more (s.closeBracket? .flowSequenceEnd)
    else if ch = '\x7d' then more (s.closeBracket? .flowMappingEnd)
    else if ch = ',' then more s.flowEntry?
    else if ch = '-' ∧ c.gapAt 1 then more s.blockEntry?
    else if ch = '?' ∧ (s.flow ≠ 0 ∨ c.gapAt 1) then more s.key?
    else if ch = ':' ∧ (s.flow ≠ 0 ∨ c.gapAt 1) then more s.value?
    else if ch = '*' then more <| s.keyPart? fun c =>
      (Token.anchorName? c.skip).map fun (name, c) => (.alias name, c)
    else if ch = '&' then more <| s.keyPart? fun c =>
      (Token.anchorName? c.skip).map fun (name, c) => (.anchor name, c)
    else if ch = '!' then more (s.keyPart? (Token.tag? (s.flow != 0)))
    else if ch = '|' ∧ s.flow = 0 then more (s.blockToken? true)
    else if ch = '>' ∧ s.flow = 0 then more (s.blockToken? false)
    else if ch = '\'' then more (s.keyPart? (quotedToken? true))
    else if ch = '"' then more (s.keyPart? (quotedToken? false))
    else if s.beginsPlain ch then more s.plainToken?
    else none

/-- Takes all tokens. -/
def run? : Nat → Scanner → Option (List Token)
  | 0, _ => none
  | fuel + 1, s => do
    let (s, more) ← s.next?
    if more then run? fuel s else return s.made.reverse

end Scanner

/-- The tokens of a text. -/
def tokens? (text : String) : Option (List Token) :=
  if text.toList.all isAllowed then
    Scanner.run? (text.toList.length + 2) { cursor := .ofText text }
  else none

end PageBlocks.Yaml
