import PageBlocks.Yaml.Cursor

/-!
# Texts of scalars

The four ways to write a scalar: plain, in single or double quotes, and as a
block. Where a text goes on over several lines, a line break becomes a blank,
and line breaks behind it stay.
-/

namespace PageBlocks.Yaml

inductive ScalarStyle where
  | plain
  | singleQuoted
  | doubleQuoted
  | literal
  | folded
deriving DecidableEq, Repr, Inhabited

/-- Spacing and line breaks between two parts of a text. -/
structure Gap where
  /-- Spacing on the line of the first part. -/
  spacing : List Char := []
  /-- The line break behind the first part. -/
  leading : List Char := []
  /-- Further line breaks. -/
  trailing : List Char := []
  /-- Whether the second part is on another line. -/
  broken : Bool := false

namespace Gap

/-- What stands between the parts in the value. -/
def folded (gap : Gap) : List Char :=
  if gap.broken then
    if gap.leading = ['\n'] then if gap.trailing = [] then [' '] else gap.trailing
    else gap.leading ++ gap.trailing
  else gap.spacing

/-- Passes spacing and line breaks. Behind a line break, a tab before `indent` is refused. -/
def read? (indent : Nat) : (fuel : Nat) → Gap → Cursor → Option (Gap × Cursor)
  | 0, gap, c => some (gap, c)
  | fuel + 1, gap, c =>
    match c.peek with
    | none => some (gap, c)
    | some ch =>
      if isSpacing ch then
        if gap.broken then
          if c.column < indent ∧ ch = '\t' then none else read? indent fuel gap c.skip
        else read? indent fuel { gap with spacing := gap.spacing ++ [ch] } c.skip
      else if isBreak ch then
        let (text, next) := c.newline
        if gap.broken then read? indent fuel { gap with trailing := gap.trailing ++ text } next
        else read? indent fuel { gap with spacing := [], leading := text, broken := true } next
      else some (gap, c)

end Gap

/-! ## Plain scalars -/

/-- Characters that end a plain scalar inside brackets. -/
def isFlowMark (c : Char) : Bool := c == ',' || c == '[' || c == ']' || c == '{' || c == '}'

/-- Characters of a plain scalar up to a gap or an indicator. Inside brackets a colon must not
stand before another indicator. -/
def plainRun? (flow : Bool) : (fuel : Nat) → List Char → Cursor → Option (List Char × Cursor)
  | 0, run, c => some (run.reverse, c)
  | fuel + 1, run, c =>
    match c.peek with
    | none => some (run.reverse, c)
    | some ch =>
      if isSpacing ch || isBreak ch then some (run.reverse, c)
      else if flow && ch == ':' && (c.ahead 1).any (fun d => isFlowMark d || d == '?') then none
      else if ch == ':' && c.gapAt 1 then some (run.reverse, c)
      else if flow && isFlowMark ch then some (run.reverse, c)
      else plainRun? flow fuel (ch :: run) c.skip

/-- A plain scalar from its first character on, and whether the cursor has come to a new line
behind it. A block scalar ends where the text is indented less than `indent`. -/
def plainScalar? (flow : Bool) (indent : Nat) : (fuel : Nat) → (text : List Char) → Gap → Cursor →
    Option (List Char × Bool × Cursor)
  | 0, text, gap, c => some (text, gap.broken, c)
  | fuel + 1, text, gap, c =>
    if c.atDocumentMarker || c.sees '#' then some (text, gap.broken, c)
    else do
      let (run, c) ← plainRun? flow (c.rest.length + 1) [] c
      let (text, gap) := if run.isEmpty then (text, gap) else (text ++ gap.folded ++ run, {})
      if c.peek.isSome && c.gapAt 0 then do
        let (gap, c) ← Gap.read? indent (c.rest.length + 1) gap c
        if !flow && c.column < indent then some (text, gap.broken, c)
        else plainScalar? flow indent fuel text gap c
      else some (text, gap.broken, c)

/-! ## Quoted scalars -/

/-- The character of a one-letter escape. -/
def escape? : Char → Option Char
  | '0' => some (Char.ofNat 0)
  | 'a' => some (Char.ofNat 7)
  | 'b' => some (Char.ofNat 8)
  | 't' | '\t' => some '\t'
  | 'n' => some '\n'
  | 'v' => some (Char.ofNat 11)
  | 'f' => some (Char.ofNat 12)
  | 'r' => some '\r'
  | 'e' => some (Char.ofNat 27)
  | ' ' => some ' '
  | '"' => some '"'
  | '/' => some '/'
  | '\\' => some '\\'
  | 'N' => some (Char.ofNat 0x85)
  | '_' => some (Char.ofNat 0xA0)
  | 'L' => some (Char.ofNat 0x2028)
  | 'P' => some (Char.ofNat 0x2029)
  | _ => none

/-- How many hexadecimal digits follow a letter. -/
def escapeDigits? : Char → Option Nat
  | 'x' => some 2
  | 'u' => some 4
  | 'U' => some 8
  | _ => none

/-- The number that hexadecimal digits write. -/
def hexadecimal? (digits : List Char) : Option Nat :=
  digits.foldlM
    (fun n c =>
      if '0' ≤ c ∧ c ≤ '9' then some (16 * n + (c.toNat - 48))
      else if 'a' ≤ c ∧ c ≤ 'f' then some (16 * n + (c.toNat - 87))
      else if 'A' ≤ c ∧ c ≤ 'F' then some (16 * n + (c.toNat - 55))
      else none) 0

/-- The character of a number, unless it is half of a surrogate pair or too large. -/
def scalarOf? (n : Nat) : Option Char :=
  if (0xD800 ≤ n ∧ n ≤ 0xDFFF) ∨ 0x10FFFF < n then none else some (Char.ofNat n)

/-- An escape behind its backslash. -/
def escaped? (c : Cursor) : Option (Char × Cursor) := do
  let letter ← c.peek
  match escape? letter with
  | some ch => return (ch, c.skip)
  | none =>
    let count ← escapeDigits? letter
    let digits := (c.skip.rest).take count
    if digits.length = count then
      return (← scalarOf? (← hexadecimal? digits), c.skip.advance count)
    else none

/-- How a run of characters in quotes ended. -/
inductive RunEnd where
  | gap
  | quote
  /-- At an escaped line break. -/
  | joined

/-- Characters in quotes up to a gap, the closing quote or an escaped line break. -/
def quotedRun? (single : Bool) : (fuel : Nat) → List Char → Cursor →
    Option (List Char × RunEnd × Cursor)
  | 0, _, _ => none
  | fuel + 1, run, c =>
    match c.peek with
    | none => some (run.reverse, .gap, c)
    | some ch =>
      if isSpacing ch || isBreak ch then some (run.reverse, .gap, c)
      else if single then
        if ch = '\'' then
          if c.ahead 1 = some '\'' then quotedRun? single fuel ('\'' :: run) (c.advance 2)
          else some (run.reverse, .quote, c)
        else quotedRun? single fuel (ch :: run) c.skip
      else if ch = '"' then some (run.reverse, .quote, c)
      else if ch = '\\' then
        if (c.ahead 1).any isBreak then some (run.reverse, .joined, c.skip.newline.2)
        else do
          let (e, c) ← escaped? c.skip
          quotedRun? single fuel (e :: run) c
      else quotedRun? single fuel (ch :: run) c.skip

/-- A quoted scalar from behind its opening quote on. -/
def quotedScalar? (single : Bool) : (fuel : Nat) → (text : List Char) → Cursor →
    Option (List Char × Cursor)
  | 0, _, _ => none
  | fuel + 1, text, c =>
    if c.atDocumentMarker || c.rest.isEmpty then none
    else do
      let (run, ending, c) ← quotedRun? single (c.rest.length + 1) [] c
      let text := text ++ run
      let quote := if single then '\'' else '"'
      if c.sees quote then return (text, c.skip)
      else
        let before : Gap :=
          match ending with
          | .joined => { broken := true }
          | _ => {}
        let (gap, c) ← Gap.read? 0 (c.rest.length + 1) before c
        quotedScalar? single fuel (text ++ gap.folded) c

/-! ## Block scalars -/

/-- What becomes of the line breaks at the end of a block scalar. -/
inductive Chomping where
  | strip
  | clip
  | keep
deriving DecidableEq

def chompingOf? : Char → Option Chomping
  | '+' => some .keep
  | '-' => some .strip
  | _ => none

/-- An indentation from 1 to 9. -/
def increment? (c : Char) : Option Nat :=
  if '1' ≤ c ∧ c ≤ '9' then some (c.toNat - 48) else none

/-- The indicators behind the mark of a block scalar, in either order. -/
def blockHeader? (c : Cursor) : Option (Chomping × Option Nat × Cursor) :=
  match c.peek.bind chompingOf? with
  | some chomping =>
    let c := c.skip
    match c.peek with
    | some '0' => none
    | some d =>
      match increment? d with
      | some n => some (chomping, some n, c.skip)
      | none => some (chomping, none, c)
    | none => some (chomping, none, c)
  | none =>
    match c.peek with
    | some '0' => none
    | some d =>
      match increment? d with
      | some n =>
        let c := c.skip
        match c.peek.bind chompingOf? with
        | some chomping => some (chomping, some n, c.skip)
        | none => some (.clip, some n, c)
      | none => some (.clip, none, c)
    | none => some (.clip, none, c)

/-- Passes the indentation of empty lines, gathering their line breaks and the largest column
reached. An unknown indentation is taken to be as large as it comes. -/
def blockBreaks? (indent : Option Nat) : (fuel : Nat) → (largest : Nat) → (breaks : List Char) →
    Cursor → Option (Nat × List Char × Cursor)
  | 0, largest, breaks, c => some (largest, breaks, c)
  | fuel + 1, largest, breaks, c =>
    let room := indent.map fun n => n - c.column
    let spaces := (c.rest.takeWhile fun ch => ch = ' ').length
    let c := c.advance (room.elim spaces (min spaces))
    let largest := max largest c.column
    if c.sees '\t' && indent.all (fun n => decide (c.column < n)) then none
    else if c.peek.any isBreak then
      let (text, c) := c.newline
      blockBreaks? indent fuel largest (breaks ++ text) c
    else some (largest, breaks, c)

/-- Lines of a block scalar with an indentation. `leading` is the line break behind the line
before, `blank` whether that line began with spacing. -/
def blockLines? (literal : Bool) (indent : Nat) : (fuel : Nat) →
    (text leading trailing : List Char) → (blank : Bool) → Cursor →
    Option (List Char × List Char × List Char × Cursor)
  | 0, text, leading, trailing, _, c => some (text, leading, trailing, c)
  | fuel + 1, text, leading, trailing, blank, c =>
    if c.column = indent && c.peek.isSome then do
      let here := c.atSpacing
      let gap :=
        if !literal && leading == ['\n'] && !blank && !here then
          if trailing.isEmpty then [' '] else []
        else leading
      let (line, c) := c.skipWhile fun ch => !isBreak ch
      let (ending, c) := c.newline
      let (_, breaks, c) ← blockBreaks? (some indent) (c.rest.length + 1) 0 [] c
      blockLines? literal indent fuel (text ++ gap ++ trailing ++ line) ending breaks here c
    else some (text, leading, trailing, c)

/-- A block scalar behind its mark, inside an indentation, which is -1 outside all blocks. -/
def blockScalar? (literal : Bool) (outer : Int) (c : Cursor) : Option (List Char × Cursor) := do
  let (chomping, increment, c) ← blockHeader? c
  let c := (c.skipWhile isSpacing).2.skipComment
  if !c.atBreak then none
  else
    let c := c.newline.2
    let given := increment.map fun n => (if 0 ≤ outer then outer.toNat + n else n)
    let (largest, breaks, c) ← blockBreaks? given (c.rest.length + 1) 0 [] c
    let indent := given.getD (max (max largest (outer + 1).toNat) 1)
    let (text, leading, trailing, c) ←
      blockLines? literal indent (c.rest.length + 1) [] [] breaks false c
    let text := if chomping = .strip then text else text ++ leading
    return (if chomping = .keep then text ++ trailing else text, c)

end PageBlocks.Yaml
