import PageBlocks.Yaml.Node
import PageBlocks.Datum
import PageBlocks.Number.Text

/-!
# Types of scalars

A plain scalar is what it looks like: null, a truth value, a number, or else a
text. Any other scalar is a text, unless a standard tag says what it is. Nodes
of unknown type become data this way; tags of the author's own are refused
there.
-/

namespace PageBlocks.Yaml

/-- The tag of a standard type. -/
def standardTag (name : String) : String := "tag:yaml.org,2002:" ++ name

/-- Whether a tag is the author's own. -/
def isOwnTag (tag : Option String) : Bool := tag.any fun t => t.startsWith "!"

def isNullText (text : String) : Bool := ["~", "null", "Null", "NULL"].contains text

def flagText? (text : String) : Option Bool :=
  if ["true", "True", "TRUE"].contains text then some true
  else if ["false", "False", "FALSE"].contains text then some false
  else none

/-- Digits behind a leading zero, with an optional sign: a text, as in a telephone number. -/
def isZeroLed (text : List Char) : Bool :=
  match (NumberText.sign text).2 with
  | '0' :: c :: rest => (c :: rest).all Digits.isDigit
  | _ => false

/-- A whole number of any size: decimal, or in base 16, 8 or 2 behind `0x`, `0o` or `0b`. -/
def wholeNumber? (text : List Char) : Option Int :=
  let (negative, body) := NumberText.sign text
  let magnitude :=
    match body with
    | '0' :: 'x' :: digits => Digits.inBase? 16 digits
    | '0' :: 'o' :: digits => Digits.inBase? 8 digits
    | '0' :: 'b' :: digits => Digits.inBase? 2 digits
    | digits => if isZeroLed text then none else Digits.inBase? 10 digits
  magnitude.map fun n => if negative then -n else n

/-- A float; nothing inside stands for the infinities and for no number. -/
def floatText? (text : String) : Option (Option Binary64) :=
  if [".inf", ".Inf", ".INF", "+.inf", "+.Inf", "+.INF", "-.inf", "-.Inf", "-.INF", ".nan", ".NaN",
      ".NAN"].contains text then some none
  else (NumberText.decimal? text.toList).map some

/-- The datum of a whole number. Numbers of more than 64 bits are refused as long as they fit 128
bits; beyond that they are floats. -/
inductive Whole where
  | fits (n : Int)
  | refused
  | beyond

def Whole.ofInt (n : Int) : Whole :=
  if -(Nat.pow 2 63 : Int) ≤ n ∧ n < Nat.pow 2 64 then .fits n
  else if -(Nat.pow 2 127 : Int) ≤ n ∧ n < Nat.pow 2 128 then .refused
  else .beyond

/-- The datum of a plain scalar. -/
def plainDatum? (text : String) : Option Datum :=
  if text = "" ∨ isNullText text then some .null
  else
    match flagText? text with
    | some b => some (.bool b)
    | none =>
      match (wholeNumber? text.toList).map Whole.ofInt with
      | some (.fits n) => some (.int n)
      | some .refused => none
      | some .beyond | none =>
        if isZeroLed text.toList then some (.string text)
        else
          match floatText? text with
          | some x => some (.float x)
          | none => some (.string text)

/-- The datum of a scalar. -/
def scalarDatum? (tag : Option String) (style : ScalarStyle) (text : String) : Option Datum :=
  match tag with
  | none => if style = .plain then plainDatum? text else some (.string text)
  | some tag =>
    if tag.startsWith "!" then none
    else if tag = standardTag "bool" then (flagText? text).map .bool
    else if tag = standardTag "int" then
      match (wholeNumber? text.toList).map Whole.ofInt with
      | some (.fits n) => some (.int n)
      | _ => none
    else if tag = standardTag "float" then (floatText? text).map .float
    else if tag = standardTag "null" then if isNullText text then some .null else none
    else some (.string text)

/-- The datum of a node, to a depth. -/
def Document.datum? (d : Document) : Nat → Node → Reading Datum
  | 0, node => do
    match ← d.follow node with
    | .scalar _ tag style text => scalarDatum? tag style text
    | _ => failure
  | depth + 1, node => do
    match ← d.follow node with
    | .alias _ => failure
    | .scalar _ tag style text => scalarDatum? tag style text
    | .sequence _ tag items =>
      if isOwnTag tag then failure else return .array (← items.mapM (d.datum? depth))
    | .mapping _ tag members =>
      if isOwnTag tag then failure
      else
        return .object (← members.mapM fun (key, value) => do
          return (← d.datum? depth key, ← d.datum? depth value))

end PageBlocks.Yaml
