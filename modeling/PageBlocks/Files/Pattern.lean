/-!
# Patterns of names

In a pattern `?` stands for one character, `*` for any number of them, and `[…]`
or `[!…]` for one of, or one outside, a set of characters and ranges. A whole
component `**` stands for any number of directories. A pattern that breaks these
rules is refused with the rule and the number of characters before the fault.
-/

namespace PageBlocks

namespace Pattern

/-- Characters, or ranges of them. -/
abbrev Ranges := List (Char × Char)

/-- A part of a pattern. -/
inductive Token where
  | char (c : Char)
  /-- Any one character. -/
  | anyChar
  /-- Any number of characters. -/
  | anyText
  /-- Any number of directories. -/
  | anyDirectories
  | within (ranges : Ranges)
  | outside (ranges : Ranges)
deriving DecidableEq, Repr

/-- A rule of patterns. -/
inductive Rule where
  /-- There are no more than two stars together. -/
  | stars
  /-- Two stars are a whole component. -/
  | directories
  /-- A bracket is closed. -/
  | brackets
deriving DecidableEq, Repr, Inhabited

/-- What is told of a rule that is broken. -/
def Rule.text : Rule → String
  | .stars => "wildcards are either regular `*` or recursive `**`"
  | .directories => "recursive wildcards must form a single path component"
  | .brackets => "invalid range pattern"

/-- Why a text is no pattern. -/
structure Fault where
  position : Nat
  rule : Rule
deriving DecidableEq, Repr, Inhabited

def Fault.text (fault : Fault) : String :=
  "Pattern syntax error near position " ++ toString fault.position ++ ": " ++ fault.rule.text

/-- The ranges between brackets. -/
def ranges : List Char → Ranges
  | a :: '-' :: b :: rest => (a, b) :: ranges rest
  | a :: rest => (a, a) :: ranges rest
  | [] => []

/-- Splits a set at its closing bracket, of which the first character is no bracket yet. -/
def bracket? (text : List Char) : Option (List Char × List Char) :=
  match text with
  | [] => none
  | first :: rest =>
    let body := rest.takeWhile fun c => c ≠ ']'
    match rest.drop body.length with
    | _ :: after => some (first :: body, after)
    | [] => none

/-- Reads a pattern from a position on, given the character before. Stars come one at a time, or two
at a time as a whole component. -/
def read : (fuel position : Nat) → (before : Option Char) → List Char → Except Fault (List Token)
  | 0, _, _, _ => .ok []
  | _ + 1, _, _, [] => .ok []
  | fuel + 1, position, before, '*' :: rest =>
    let more := (rest.takeWhile fun c => c = '*').length
    let after := rest.drop more
    if more = 0 then (read fuel (position + 1) (some '*') after).map (.anyText :: ·)
    else if 1 < more then .error ⟨position + 2, .stars⟩
    else if before = none ∨ before = some '/' then
      match after with
      | [] => .ok [.anyDirectories]
      | '/' :: after => (read fuel (position + 3) (some '/') after).map (.anyDirectories :: ·)
      | _ => .error ⟨position + 2, .directories⟩
    else .error ⟨position - 1, .directories⟩
  | fuel + 1, position, _, '?' :: rest =>
    (read fuel (position + 1) (some '?') rest).map (.anyChar :: ·)
  | fuel + 1, position, _, '[' :: '!' :: rest =>
    match bracket? rest with
    | some (body, after) =>
      (read fuel (position + body.length + 3) (some ']') after).map (.outside (ranges body) :: ·)
    | none => .error ⟨position, .brackets⟩
  | fuel + 1, position, _, '[' :: rest =>
    match bracket? rest with
    | some (body, after) =>
      (read fuel (position + body.length + 2) (some ']') after).map (.within (ranges body) :: ·)
    | none => .error ⟨position, .brackets⟩
  | fuel + 1, position, _, c :: rest =>
    (read fuel (position + 1) (some c) rest).map (.char c :: ·)

/-- The tokens of a pattern, or of a component of one. -/
def tokens (text : String) : Except Fault (List Token) :=
  read (text.length + 1) 0 none text.toList

def inRanges (rs : Ranges) (c : Char) : Bool := rs.any fun (a, b) => a ≤ c && c ≤ b

/-- Whether tokens match a whole name. -/
def matchesName : List Token → List Char → Bool
  | [], cs => cs.isEmpty
  | .anyText :: ts, cs => (List.range (cs.length + 1)).any fun n => matchesName ts (cs.drop n)
  | .anyDirectories :: ts, cs =>
    (List.range (cs.length + 1)).any fun n => matchesName ts (cs.drop n)
  | .char c :: ts, d :: ds => c == d && matchesName ts ds
  | .anyChar :: ts, _ :: ds => matchesName ts ds
  | .within rs :: ts, d :: ds => inRanges rs d && matchesName ts ds
  | .outside rs :: ts, d :: ds => !inRanges rs d && matchesName ts ds
  | _ :: _, [] => false

/-- The name that a component stands for, if it stands for just one. -/
def literal? (ts : List Token) : Option String :=
  (ts.mapM fun (t : Token) =>
    match t with
    | .char c => some c
    | _ => none).map String.ofList

def isRecursive (ts : List Token) : Bool := ts.contains .anyDirectories

end Pattern

end PageBlocks
