import PageBlocks.Yaml.Scalar
import PageBlocks.Value.Writer

/-!
# Values as YAML text

Collections are written in blocks, two columns deeper at each level; a list
under a key is not indented further. A text that would be read as something
else stands in quotes, a text of several lines is a literal block. Lines are
never folded.
-/

namespace PageBlocks.Yaml

/-- Whether a plain text would not be read as that text, or consists of digits behind a leading
zero, which some readers take for a number. -/
def isAmbiguous (s : String) : Bool :=
  isZeroLed s.toList ||
    match plainDatum? s with
    | some (.string _) => false
    | _ => true

/-- Characters that can be written as they are. -/
def isPrintable (c : Char) : Bool :=
  let n := c.toNat
  n == 0x0A || (0x20 ≤ n && n ≤ 0x7E) || (0xA0 ≤ n && n ≤ 0xFFFD && n != 0xFEFF) || 0x10000 ≤ n

/-- Characters that a plain scalar cannot begin with. -/
def isLeadIndicator (c : Char) : Bool := "#,[]\x7b\x7d&*!|>'\"%@`".toList.contains c

/-- Whether the text ends, or spacing or a line break follows. -/
def gapFollows : List Char → Bool
  | [] => true
  | c :: _ => isSpacing c || isBreak c

/-- Whether a character behind the first reads as an indicator: a colon before a gap, or a number
sign behind one. -/
def hasIndicator (before : Char) : List Char → Bool
  | [] => false
  | c :: rest =>
    (c == ':' && gapFollows rest) || (c == '#' && (isSpacing before || isBreak before)) ||
      hasIndicator c rest

/-- Whether a line break stands right before a space. -/
def breakBeforeSpace : List Char → Bool
  | c :: ' ' :: rest => isBreak c || breakBeforeSpace rest
  | _ :: rest => breakBeforeSpace rest
  | [] => false

/-- Whether a space stands right before a line break. -/
def spaceBeforeBreak : List Char → Bool
  | ' ' :: c :: rest => isBreak c || spaceBeforeBreak (c :: rest)
  | _ :: rest => spaceBeforeBreak rest
  | [] => false

/-- Whether a text can be a plain scalar. -/
def canBePlain (s : String) : Bool :=
  match s.toList with
  | [] => false
  | c :: rest =>
    let cs := c :: rest
    !(cs.any fun d => !isPrintable d || isBreak d) && c != ' ' && cs.getLast? != some ' ' &&
      !isLeadIndicator c && !((c == '?' || c == ':' || c == '-') && gapFollows rest) &&
      !hasIndicator c rest && !cs.take 3 == "---".toList && !cs.take 3 == "...".toList

/-- Whether a text can stand in single quotes. -/
def canBeSingleQuoted (s : String) : Bool :=
  let cs := s.toList
  cs.all isPrintable && !spaceBeforeBreak cs && !breakBeforeSpace cs

/-- Whether a text of several lines can be a literal block. -/
def canBeLiteral (s : String) : Bool :=
  let cs := s.toList
  cs.all isPrintable && !spaceBeforeBreak cs && cs.getLast? != some ' '

/-- The escape of a character in double quotes. -/
def escapeOf (c : Char) : List Char :=
  let n := c.toNat
  let hex (width : Nat) : List Char :=
    let ds := (Nat.toDigits 16 n).map Char.toUpper
    List.replicate (width - ds.length) '0' ++ ds
  '\\' ::
    (if n = 0 then ['0'] else if n = 7 then ['a'] else if n = 8 then ['b'] else if n = 9 then ['t']
      else if n = 10 then ['n'] else if n = 11 then ['v'] else if n = 12 then ['f']
      else if n = 13 then ['r'] else if n = 27 then ['e'] else if c = '"' then ['"']
      else if c = '\\' then ['\\'] else if n = 0x85 then ['N'] else if n = 0xA0 then ['_']
      else if n = 0x2028 then ['L'] else if n = 0x2029 then ['P']
      else if n ≤ 0xFF then 'x' :: hex 2 else if n ≤ 0xFFFF then 'u' :: hex 4
      else 'U' :: hex 8)

def doubleQuoted (s : String) : List Char :=
  '"' :: (s.toList.flatMap fun c =>
    if !isPrintable c || isBreak c || c == '"' || c == '\\' then escapeOf c else [c]) ++ ['"']

/-- Characters with so many spaces before each line, empty lines apart. The flag says whether a line
begins with them. -/
def indented (column : Nat) : Bool → List Char → List Char
  | _, [] => []
  | begins, c :: rest =>
    if isBreak c then c :: indented column true rest
    else (if begins then List.replicate column ' ' else []) ++ c :: indented column false rest

/-- A text in single quotes. What follows a line break stands at a column. -/
def singleQuoted (column : Nat) (s : String) : List Char :=
  indented column false <|
    '\'' :: (s.toList.flatMap fun c => if c == '\'' then [c, c] else [c]) ++ ['\'']

/-- How a literal block keeps the line breaks at its end. -/
def chompingMark (cs : List Char) : List Char :=
  match cs.reverse with
  | [] => ['-']
  | [c] => if isBreak c then ['+'] else ['-']
  | c :: before :: _ => if !isBreak c then ['-'] else if isBreak before then ['+'] else []

/-- A text as a literal block with its lines at a column. -/
def literal (column : Nat) (s : String) : List Char :=
  let cs := s.toList
  let deeper := cs.head?.any fun c => c == ' ' || isBreak c
  '|' :: (if deeper then ['2'] else []) ++ chompingMark cs ++ '\n' :: indented column true cs

/-- A text as a scalar, whose further lines stand at a column. -/
def textScalar (column : Nat) (s : String) : List Char :=
  if s.toList.contains '\n' then
    if canBeLiteral s then literal column s else doubleQuoted s
  else if !isAmbiguous s && canBePlain s then s.toList
  else if canBeSingleQuoted s then singleQuoted column s
  else doubleQuoted s

/-- The longest key that is written before its colon, in bytes. -/
def longestKey : Nat := 128

/-- Whether a key is written before its colon, and not on a line of its own. -/
def isShortKey (key : String) : Bool :=
  !key.toList.any isBreak && key.utf8ByteSize ≤ longestKey

/-- Characters up to the end of a line. -/
def closed (cs : List Char) : List Char := if cs.getLast?.any isBreak then cs else cs ++ ['\n']

mutual
/-- A value at a column, behind what stands before that column on its line. -/
def node (column : Nat) : Value → List Char
  | .null => "null\n".toList
  | .bool b => closed (if b then "true" else "false").toList
  | .int n => closed (toString n).toList
  | .float x => closed (FloatLayout.yaml.write x).toList
  | .string s => closed (textScalar column s)
  | .array [] => "[]\n".toList
  | .array (item :: rest) => '-' :: ' ' :: node (column + 2) item ++ furtherItems column rest
  | .object [] => "\x7b\x7d\n".toList
  | .object ((key, value) :: rest) => member column key value ++ furtherMembers column rest

/-- The items of a list behind the first. -/
def furtherItems (column : Nat) : List Value → List Char
  | [] => []
  | item :: rest =>
    List.replicate column ' ' ++ '-' :: ' ' :: node (column + 2) item ++ furtherItems column rest

/-- A member of an object. -/
def member (column : Nat) (key : String) (value : Value) : List Char :=
  if isShortKey key then
    textScalar (column + 2) key ++ ':' ::
      match value with
      | .array (item :: rest) =>
        '\n' :: List.replicate column ' ' ++ node column (.array (item :: rest))
      | .object (first :: rest) =>
        '\n' :: List.replicate (column + 2) ' ' ++ node (column + 2) (.object (first :: rest))
      | value => ' ' :: node (column + 2) value
  else
    '?' :: ' ' :: closed (textScalar (column + 2) key) ++
      List.replicate column ' ' ++ ':' :: ' ' :: node (column + 2) value

/-- The members of an object behind the first. -/
def furtherMembers (column : Nat) : List (String × Value) → List Char
  | [] => []
  | (key, value) :: rest =>
    List.replicate column ' ' ++ member column key value ++ furtherMembers column rest
end

/-- A value as a document. -/
def write (v : Value) : String :=
  String.ofList <|
    match v with
    | .string s => closed (textScalar 2 s)
    | v => node 0 v

end PageBlocks.Yaml
